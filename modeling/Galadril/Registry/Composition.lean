import Galadril.Registry.PipelineGraph

namespace Galadril.Registry.Pipeline

open Json Lib.Checked Identity

def maxBlocks : Nat := 256

def maxTransfers : Nat := 3

/-- Exact immutable input of a transfer block. -/
structure PipelineReference where
  pipelineId : String
  revisionId : String
  inputSource : String

abbrev ReferenceKey := String × String

def PipelineReference.key (r : PipelineReference) : ReferenceKey := (r.pipelineId, r.revisionId)

/-- Deserialization accepts an object with exactly the three fields or a list
of their values. -/
def parseReference : Value → Option PipelineReference
  | .object m => do
      guard (m.all fun p => ["pipeline_id", "revision_id", "input_source"].contains p.1)
      let pipelineId ← (Members.field m "pipeline_id").bind Value.asStr
      let revisionId ← (Members.field m "revision_id").bind Value.asStr
      let inputSource ← (Members.field m "input_source").bind Value.asStr
      return ⟨pipelineId, revisionId, inputSource⟩
  | .array [a, b, c] => do
      let pipelineId ← a.asStr
      let revisionId ← b.asStr
      let inputSource ← c.asStr
      return ⟨pipelineId, revisionId, inputSource⟩
  | _ => none

def nullOrAbsent (v : Value) (key : String) : Bool := (v.get key).all Value.isNull

def transferReference (steps : List Value) (id : String) (node : Value) : Except String PipelineReference := do
  ensure (nullOrAbsent node "capability_id" && nullOrAbsent node "model")
    "Native transfers cannot select plugin code or a model"
  let value ← context (node.get "pipeline_ref") "Pipeline reference missing"
  let reference ← context (parseReference value) "invalid pipeline reference document"
  ensure (identity reference.pipelineId && validRevision reference.revisionId && identity reference.inputSource)
    "Invalid pipeline reference"
  ensure ((node.get "params").all fun params => (params.get "trigger").all (· == .string "manual"))
    "Pipeline transfers must be event driven"
  ensure (!steps.any fun step => (step.getArray "input_from").any fun inputs =>
      inputs.any fun input => input.asStr = some id)
    "Pipeline transfers are terminal; continuations require explicit return semantics"
  return reference

def nodeReference (steps : List Value) (found : List PipelineReference) (node : Value) :
    Except String (List PipelineReference) := do
  let id ← context (((node.get "step").or (node.get "id")).bind Value.asStr) "Pipeline block identifier missing"
  ensure (!startsWith "__linked_" id && nullOrAbsent node "origin") "Reserved compiled pipeline field"
  if node.getStr "type" = some "pipeline" then
    let reference ← transferReference steps id node
    ensure (found.length + 1 ≤ maxTransfers) "Composition exceeds three pipeline transfers"
    return found ++ [reference]
  else
    ensure (nullOrAbsent node "pipeline_ref" && (node.getStr "type" != some "forward" ||
        (node.pointer "params" "merge").bind Value.asStr == some "union"))
      "Pipeline references require a transfer block"
    return found

def references (definition : Value) : Except String (List PipelineReference) := do
  let sources ← context (definition.getArray "sources") "Pipeline sources missing"
  let steps ← context (definition.getArray "pipeline") "Pipeline steps missing"
  ensure (sources.length + steps.length ≤ maxBlocks) "Pipeline exceeds 256 blocks"
  (sources ++ steps).foldlM (nodeReference steps) []

abbrev Definitions := List (ReferenceKey × Value)

structure Expansion where
  active : List String
  steps : List Value
  blocks : Nat
  transfers : Nat
  nextId : Nat

def reach (steps : List Value) (reachable : List String) (id : String) : Except String (List String) :=
  match steps.find? fun step => step.getStr "step" = some id with
  | none => .ok reachable
  | some step =>
      if scheduled step then .ok reachable
      else do
        let inputs ← context (step.getArray "input_from") "Step inputs missing"
        if inputs.any fun input => input.asStr.any reachable.contains then
          ensure (inputs.length = 1) "Linked inputs cannot create an implicit stateful join"
          return id :: reachable
        else return reachable

def linkedBlocks (sources steps : List Value) (order : List String) (selected : String) :
    Except String (List String) := do
  ensure (sources.any fun source => source.getStr "id" = some selected) "Selected pipeline input is unavailable"
  order.foldlM (reach steps) [selected]

abbrev Renaming := Std.ExtTreeMap String String

def nameSource (entry : Option (String × String)) (names : Renaming) (source : Value) : Except String Renaming := do
  let id ← context (source.getStr "id") "Source identifier missing"
  match entry with
  | some (selected, transfer) => return if id = selected then names.insert id transfer else names
  | none => return names.insert id id

def nameStep (linked : Option (List String)) (acc : Renaming × Nat) (step : Value) :
    Except String (Renaming × Nat) := do
  let id ← context (step.getStr "step") "Step identifier missing"
  match linked with
  | none => return (acc.1.insert id id, acc.2)
  | some reachable =>
      if reachable.contains id then
        return (acc.1.insert id s!"__linked_{acc.2 + 1}", acc.2 + 1)
      else return acc

def renamed (names : Renaming) (text : String) (items : List Value) : Except String (List Value) :=
  items.mapM fun item => do
    let name ← context (item.asStr.bind fun id => names[id]?) text
    return .string name

def renameBranches (names : Renaming) (branches : Members) : Except String Members :=
  branches.mapM fun entry => do
    let targets ← context entry.2.asArray "Invalid branch destinations"
    let targets ← renamed names "Unknown branch destination" targets
    return (entry.1, .array targets)

def renameStep (names : Renaming) (origin : Option Value) (id : String) (step : Value) :
    Except String (String × Members) := do
  let mapped ← context names[id]? "Unknown step"
  let inputs ← context (step.getArray "input_from") "Step inputs missing"
  let inputs ← renamed names "Unknown dependency" inputs
  let object ← context step.asObject "Invalid step"
  let object := Members.insert "input_from" (.array inputs) (Members.insert "step" (.string mapped) object)
  let object := (origin.map fun v => Members.insert "origin" v object).getD object
  let object ← match (Members.field object "branches").bind Value.asObject with
    | none => .ok object
    | some branches => do
        let branches ← renameBranches names branches
        .ok (Members.insert "branches" (.object branches) object)
  return (mapped, object)

def originValue (pipelineId revisionId blockId : String) : Value :=
  .object [("pipeline_id", .string pipelineId), ("revision_id", .string revisionId), ("block_id", .string blockId)]

def append (definitions : Definitions) : Nat → String → String → Value → Option (String × String) → Expansion →
    Except String Expansion
  | 0, _, _, _, _, _ => .error "Composition exceeds three pipeline transfers"
  | depth + 1, pipelineId, revisionId, definition, entry, expansion => do
      ensure (!expansion.active.contains pipelineId) "Cross-pipeline cycle detected"
      let found ← references definition
      let transfers := expansion.transfers + found.length
      ensure (transfers ≤ maxTransfers) "Composition exceeds three pipeline transfers"
      let order ← validatePipelineStructure definition
      let sources ← context (definition.getArray "sources") "Pipeline sources missing"
      let steps ← context (definition.getArray "pipeline") "Pipeline steps missing"
      let blocks := expansion.blocks + sources.length + steps.length
      ensure (blocks ≤ maxBlocks) "Expanded composition exceeds 256 blocks"
      let linked ← entry.mapM fun e => linkedBlocks sources steps order e.1
      let names ← sources.foldlM (nameSource entry) ∅
      let (names, nextId) ← steps.foldlM (nameStep linked) (names, expansion.nextId)
      let expansion := { expansion with active := pipelineId :: expansion.active, transfers, blocks, nextId }
      let expansion ← steps.foldlM (fun expansion step => do
        let id ← context (step.getStr "step") "Step identifier missing"
        if linked.all (·.contains id) then
          let (mapped, object) ← renameStep names (entry.map fun _ => originValue pipelineId revisionId id) id step
          if step.getStr "type" = some "pipeline" then
            let value ← context (Members.field object "pipeline_ref") "Reference missing"
            let reference ← context (parseReference value) "invalid pipeline reference document"
            let object := Members.insert "type" (.string "forward") (Members.swapRemove "pipeline_ref" object)
            let child ← context (definitions.lookup reference.key) "Referenced pipeline revision unavailable"
            append definitions depth reference.pipelineId reference.revisionId child
              (some (reference.inputSource, mapped)) { expansion with steps := expansion.steps ++ [.object object] }
          else return { expansion with steps := expansion.steps ++ [.object object] }
        else return expansion) expansion
      return { expansion with active := expansion.active.erase pipelineId }

def compile (pipelineId revisionId : String) (definition : Value) (definitions : Definitions) :
    Except String Value := do
  let expansion ← append definitions (maxTransfers + 1) pipelineId revisionId definition none ⟨[], [], 0, 0, 0⟩
  let object ← context definition.asObject "Invalid pipeline"
  return .object (Members.insert "pipeline" (.array expansion.steps) object)

end Galadril.Registry.Pipeline
