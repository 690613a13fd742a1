import Galadril.Lib.Text
import Galadril.Lib.Orders

namespace Galadril.Vision

open Lib Lib.Characters Lib.Orders Lib.Text

inductive PyValue
  | none
  | bool (b : Bool)
  | number (text : String)
  | str (text : String)
  | list (items : List PyValue)
  | tuple (items : List PyValue)
  | ndarray (shape : List Nat) (entries : List String)
  | dict (members : List (String × PyValue))

namespace PyValue

def isNumber : PyValue → Bool
  | .bool _ | .number _ => true
  | _ => false

def truthy : PyValue → Bool
  | .none => false
  | .bool b => b
  | .number text => text != "0" && text != "0.0" && text != "-0.0"
  | .str text => text != ""
  | .list items | .tuple items => !items.isEmpty
  | .ndarray shape _ => shape.prod != 0
  | .dict members => !members.isEmpty

def field (key : String) : List (String × PyValue) → Option PyValue
  | [] => Option.none
  | (k, value) :: members => if k = key then some value else field key members

/-- The value unless it is absent or falsy, and then another one. -/
def orElse (value : Option PyValue) (other : PyValue) : PyValue :=
  match value with
  | some v => if v.truthy then v else other
  | Option.none => other

end PyValue

def modelArtifactExtensions : List String := ["bin", "joblib", "model", "onnx", "pkl", "pt", "pth", "safetensors"]

def fileName (path : List Char) : List Char :=
  match rsplitOnce '/' path with
  | some (_, name) => name
  | none => path

def stemOrLast (name : List Char) : List Char :=
  match rsplitOnce '.' name with
  | some (stem, extension) => if modelArtifactExtensions.contains (String.ofList extension) then stem else extension
  | none => name

variable (lower : String → String)

def normalizeModelKey (value : PyValue) : String :=
  let rawValue := match value with
    | .str text => text
    | _ => "default"
  let modelKey := lower (PythonText.strip rawValue)
  let modelKey := if modelKey = "" then "default" else modelKey
  String.ofList (stemOrLast (fileName modelKey.toList))

/-- A dictionary by its keys. Dictionaries are equal whatever the order in which
their keys came. -/
abbrev Item := String → Option PyValue

def embeddingKeys : List String := ["embedding", "embeddings", "vector", "features"]

def metadataKeys : List String :=
  ["bbox", "confidence", "label", "model_name", "model_version", "mime_type", "modality", "source_field", "raw_modality",
    "scalar_evidence"]

def isNumericEmbedding : PyValue → Bool
  | .ndarray shape _ => (shape.length == 1 || shape.length == 2) && shape.prod > 0
  | .list items | .tuple items => !items.isEmpty && items.all PyValue.isNumber
  | _ => false

variable (modelKey : String)

def nodeMetadata (inherited : Item) (members : List (String × PyValue)) : Item := fun key =>
  if key = "model_name" then
    some (.str (normalizeModelKey lower
      (PyValue.orElse (PyValue.field "model_name" members) (PyValue.orElse (inherited "model_name") (.str modelKey)))))
  else if metadataKeys.contains key then
    match PyValue.field key members with
    | some value => some value
    | none => inherited key
  else inherited key

def embeddingsUnder (key : String) (members : List (String × PyValue)) : List PyValue :=
  match PyValue.field key members with
  | none => []
  | some value =>
      if isNumericEmbedding value then [value]
      else if key = "embeddings" then
        match value with
        | .list embeddings => embeddings.filter isNumericEmbedding
        | _ => []
      else []

def withEmbedding (metadata : Item) (embedding : PyValue) :
    Item := fun key => if key = "embedding" then some embedding else metadata key

variable (order : List String)

mutual

def walk (inherited : Item) : PyValue → List Item
  | .dict members =>
      let metadata := nodeMetadata lower modelKey inherited members
      (order.flatMap fun key => (embeddingsUnder key members).map (withEmbedding metadata)) ++ walkMembers metadata members
  | .list items => if isNumericEmbedding (.list items) then [] else walkItems inherited items
  | _ => []

def walkItems (inherited : Item) : List PyValue → List Item
  | [] => []
  | item :: items => walk inherited item ++ walkItems inherited items

def walkMembers (inherited : Item) : List (String × PyValue) → List Item
  | [] => []
  | (key, value) :: members =>
      (if embeddingKeys.contains key then [] else walk inherited value) ++ walkMembers inherited members

end

def faceItem : PyValue → Option Item
  | .dict members =>
      match PyValue.field "embedding" members with
      | none | some .none => none
      | some _ => some fun key =>
          if key = "model_name" then some ((PyValue.field "model_name" members).getD (.str modelKey)) else PyValue.field key members
  | _ => none

def faceItems (members : List (String × PyValue)) : List Item :=
  match PyValue.field "faces" members with
  | some (.list faces) => faces.filterMap (faceItem modelKey)
  | _ => []

def extractEmbeddingItems (prediction : PyValue) (modelName : String) : List Item :=
  let modelKey := normalizeModelKey lower (.str modelName)
  match prediction with
  | .dict members =>
      let items := faceItems modelKey members
      if items.isEmpty then
        walk lower modelKey order (fun key => if key = "model_name" then some (.str modelKey) else none) prediction
      else items
  | _ => []

mutual

def visits (inherited : Item) : PyValue → List (Item × List (String × PyValue))
  | .dict members => (nodeMetadata lower modelKey inherited members, members) ::
      visitsMembers (nodeMetadata lower modelKey inherited members) members
  | .list items => if isNumericEmbedding (.list items) then [] else visitsItems inherited items
  | _ => []

def visitsItems (inherited : Item) : List PyValue → List (Item × List (String × PyValue))
  | [] => []
  | item :: items => visits inherited item ++ visitsItems inherited items

def visitsMembers (inherited : Item) : List (String × PyValue) → List (Item × List (String × PyValue))
  | [] => []
  | (key, value) :: members =>
      (if embeddingKeys.contains key then [] else visits inherited value) ++ visitsMembers inherited members

end

def taken (order : List String) (visit : Item × List (String × PyValue)) : List Item :=
  order.flatMap fun key => (embeddingsUnder key visit.2).map (withEmbedding visit.1)

mutual

theorem walk_eq (order : List String) (inherited : Item) (value : PyValue) :
    walk lower modelKey order inherited value = (visits lower modelKey inherited value).flatMap (taken order) := by
  match value with
  | .dict members =>
      rw [walk, visits, List.flatMap_cons, walkMembers_eq]
      rfl
  | .list items =>
      rw [walk, visits]
      split
      · rfl
      · exact walkItems_eq order inherited items
  | .none | .bool _ | .number _ | .str _ | .tuple _ | .ndarray _ _ => rfl

theorem walkItems_eq (order : List String) (inherited : Item) (items : List PyValue) :
    walkItems lower modelKey order inherited items = (visitsItems lower modelKey inherited items).flatMap (taken order) := by
  match items with
  | [] => rfl
  | item :: items => rw [walkItems, visitsItems, List.flatMap_append, walk_eq, walkItems_eq]

theorem walkMembers_eq (order : List String) (inherited : Item) (members : List (String × PyValue)) :
    walkMembers lower modelKey order inherited members = (visitsMembers lower modelKey inherited members).flatMap
    (taken order) := by
  match members with
  | [] => rfl
  | (key, value) :: members =>
      rw [walkMembers, visitsMembers, List.flatMap_append, walkMembers_eq]
      split
      · rfl
      · rw [walk_eq]

end

end Galadril.Vision
