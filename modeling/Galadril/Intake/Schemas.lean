import Galadril.Json.Text
import Galadril.Lib.Arranging
import Galadril.Lib.Checked
import Galadril.Lib.Mapping
import Galadril.Lib.Text

namespace Galadril.Intake.Schemas

open Json Lib Lib.Arranging Lib.Checked Lib.Fuel Lib.Mapping
open Std (ExtTreeMap ExtTreeSet)

structure SchemaDescriptor where
  path : String
  content : String
  fullname : String
  dependencies : List String
  deriving DecidableEq

structure ParsedRoot where
  path : String
  content : String
  value : Value
  fullname : String
  deriving DecidableEq

structure RegisteredInfo where
  content : String
  dependencies : List String

abbrev Registered := ExtTreeMap String RegisteredInfo

mutual

def strings : Value → List String
  | .string s => [s]
  | .array items => itemStrings items
  | .object members => memberStrings members
  | .null => []
  | .bool _ => []
  | .number _ => []

def itemStrings : List Value → List String
  | [] => []
  | item :: items => strings item ++ itemStrings items

def memberStrings : Members → List String
  | [] => []
  | (_, v) :: members => strings v ++ memberStrings members

end

-- The JSON parser and the Unicode property of uppercase letters stay open.
variable (parse : String → Except String Value) (uppercase : Char → Bool)

def lastSegment (text : List Char) : List Char := (text.reverse.takeWhile (· ≠ '.')).reverse

def isRecordFullname (value : String) : Bool :=
  ((Text.stripStart "com.galadril.".toList value.toList).bind fun suffix => (lastSegment suffix).head?).any uppercase

def collectFullnameReferences (value : Value) : List String :=
  (ExtTreeSet.ofList ((strings value).filter (isRecordFullname uppercase))).toList

def quotedPath (path : String) : String := "\"" ++ path ++ "\""

def requiredString (value : Option Value) (field path : String) : Except String String :=
  context ((value.bind Value.asStr).filter (· ≠ ""))
    ("Avro schema " ++ quotedPath path ++ " requires string field '" ++ field ++ "'")

def parseRoot (raw : String × String) : Except String ParsedRoot := do
  let value ← (parse raw.2).mapError fun e => "failed parsing Avro JSON at " ++ quotedPath raw.1 ++ ": " ++ e
  let object ← context value.asObject ("Avro schema " ++ quotedPath raw.1 ++ " must be an object")
  ensure ((Members.field object "type").bind Value.asStr == some "record")
    ("avro root inside " ++ quotedPath raw.1 ++ " must be a record")
  let name ← requiredString (Members.field object "name") "name" raw.1
  let space ← requiredString (Members.field object "namespace") "namespace" raw.1
  return ⟨raw.1, raw.2, value, s!"{space}.{name}"⟩

def addRoot (parsed : List ParsedRoot) (raw : String × String) : Except String (List ParsedRoot) := do
  let root ← parseRoot parse raw
  ensure (!(parsed.map ParsedRoot.fullname).contains root.fullname) s!"duplicate Avro root name {root.fullname}"
  return parsed ++ [root]

def ParsedRoot.references (root : ParsedRoot) : List String :=
  (collectFullnameReferences uppercase root.value).filter (· ≠ root.fullname)

def ParsedRoot.descriptor (root : ParsedRoot) : SchemaDescriptor :=
  ⟨root.path, root.content, root.fullname, root.references uppercase⟩

def describe (names : List String) (root : ParsedRoot) : Except String SchemaDescriptor := do
  (root.references uppercase).forM fun reference =>
    ensure (names.contains reference) ("schema " ++ quotedPath root.path ++ " references missing root " ++ reference)
  return root.descriptor uppercase

def circular (waiting : List SchemaDescriptor) : String :=
  "circular Avro schema dependencies: [" ++ ", ".intercalate (waiting.map fun d => quotedPath d.fullname) ++ "]"

def schemaRegistrationPlan (raw : List (String × String)) : Except String (List SchemaDescriptor) := do
  let parsed ← raw.foldlM (addRoot parse) []
  let descriptors ← parsed.mapM (describe uppercase (parsed.map ParsedRoot.fullname))
  let descriptors := descriptors.mergeSort fun left right => decide (left.fullname ≤ right.fullname)
  (arrange SchemaDescriptor.fullname SchemaDescriptor.dependencies descriptors.length [] descriptors).mapError circular

def registeredOf (before : List SchemaDescriptor) : Registered :=
  ExtTreeMap.ofList (before.map fun d => (d.fullname, (⟨d.content, d.dependencies⟩ : RegisteredInfo)))

variable (registered : Registered)

/-- The contents a compilation needs, dependencies first. The first argument
bounds how deeply dependencies nest. -/
def appendCompilationDependency : Nat → List String × List String → String → Fueled String (List String × List String)
  | 0, _, _ => ExceptT.mk none
  | fuel + 1, (included, compilation), name =>
      if included.contains name then pure (included, compilation)
      else do
        let info ← context registered[name]? s!"schema dependency {name} was not registered"
        let (included, compilation) ← info.dependencies.foldlM (appendCompilationDependency fuel) (name :: included, compilation)
        return (included, compilation ++ [info.content])

def compilationContext (fuel : Nat) (descriptor : SchemaDescriptor) : Fueled String (List String) := do
  let (_, compilation) ← descriptor.dependencies.foldlM (appendCompilationDependency registered fuel) ([], [])
  return compilation ++ [descriptor.content]

mutual

def inlineValue (expand : String → List String → Fueled String (Value × List String)) :
    Value → List String → Fueled String (Value × List String)
  | .string s, included => expand s included
  | .array items, included => do
      let (items, included) ← inlineItems expand items included
      return (.array items, included)
  | .object members, included => do
      let (members, included) ← inlineMembers expand members included
      return (.object members, included)
  | .null, included => pure (.null, included)
  | .bool b, included => pure (.bool b, included)
  | .number n, included => pure (.number n, included)

def inlineItems (expand : String → List String → Fueled String (Value × List String)) :
    List Value → List String → Fueled String (List Value × List String)
  | [], included => pure ([], included)
  | item :: items, included => do
      let (item, included) ← inlineValue expand item included
      let (items, included) ← inlineItems expand items included
      return (item :: items, included)

def inlineMembers (expand : String → List String → Fueled String (Value × List String)) :
    Members → List String → Fueled String (Members × List String)
  | [], included => pure ([], included)
  | (key, v) :: members, included => do
      let (v, included) ← inlineValue expand v included
      let (members, included) ← inlineMembers expand members included
      return ((key, v) :: members, included)

end

/-- The first occurrence of a registered name becomes its definition. The first
argument bounds how deeply definitions nest. -/
def inlineName : Nat → String → List String → Fueled String (Value × List String)
  | fuel, name, included =>
      match registered[name]? with
      | none => pure (.string name, included)
      | some info =>
          if included.contains name then pure (.string name, included)
          else
            match fuel with
            | 0 => ExceptT.mk none
            | fuel + 1 => do
                let definition ← (parse info.content).mapError fun e => s!"failed parsing dependency {name}: {e}"
                inlineValue (inlineName fuel) definition (name :: included)

def inlineRegistryValue (fuel : Nat) : Value → List String → Fueled String (Value × List String) :=
  inlineValue (inlineName parse registered fuel)

def inlineRegistryDependencies (fuel : Nat) (descriptor : SchemaDescriptor) : Fueled String String := do
  let value ← (parse descriptor.content).mapError fun e =>
    "failed parsing Avro schema " ++ quotedPath descriptor.path ++ ": " ++ e
  let (resolved, _) ← inlineRegistryValue parse registered fuel value []
  return String.ofList resolved.render

end Galadril.Intake.Schemas
