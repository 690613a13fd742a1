import Galadril.Json.Text
import Galadril.Json.Value
import Galadril.Lib.Checked
import Galadril.Lib.Kahn
import Galadril.Lib.Text

namespace Galadril.Dashboard

open Json Lib Lib.Checked

def truthy : Value → Bool
  | .null => false
  | .bool b => b
  | .number (.int n) => n != 0
  | .number (.float text) => text != "0.0" && text != "-0.0"
  | .string s => s != ""
  | .array _ | .object _ => true

def nullish (v : Option Value) : Option Value := v.filter fun v => !v.isNull

def isText (v : Value) : Bool := v.asStr.isSome

def spread : Value → Except String (List Value)
  | .array items => .ok items
  | .string s => .ok (s.toList.map fun c => .string (String.ofList [c]))
  | _ => .error "is not iterable"

def indexed (values : List Value) : Members := values.zipIdx.map fun entry => (Nat.repr entry.2, entry.1)

def entries : Value → Members
  | .object members => members
  | .array items => indexed items
  | .string s => indexed (s.toList.map fun c => .string (String.ofList [c]))
  | _ => []

def includes (values : Value) (text : String) : Except String Bool :=
  match values with
  | .array items => .ok (items.any fun item => item.asStr = some text)
  | .string s => .ok (Text.occursIn text.toList s.toList)
  | _ => .error "includes is not a function"

mutual

def textOf : Value → Except String String
  | .null => .ok "null"
  | .bool b => .ok (if b then "true" else "false")
  | .number n => .ok (String.ofList n.render)
  | .string s => .ok s
  | .array items => (textsOf items).map (String.intercalate ",")
  | .object members =>
      if (Members.field members "toString").isSome then .error "Cannot convert object to primitive value" else .ok "[object Object]"

def textsOf : List Value → Except String (List String)
  | [] => .ok []
  | v :: rest => do
      let text ← if v.isNull then .ok "" else textOf v
      let texts ← textsOf rest
      return text :: texts

end

def isSpace (c : Char) : Bool :=
  let n := c.toNat
  (9 ≤ n && n ≤ 13) || n == 32 || n == 0xa0 || n == 0x1680 || (0x2000 ≤ n && n ≤ 0x200a) || n == 0x2028 || n == 0x2029 ||
    n == 0x202f || n == 0x205f || n == 0x3000 || n == 0xfeff

def trim (text : String) : String := String.ofList (Text.trimBy isSpace text.toList)

def arrayIndex (key : String) : Option Nat := key.toNat?.filter fun n => Nat.repr n = key ∧ n < 4294967295

def propertyOrder (keys : List String) : List String :=
  let distinct := keys.eraseDups
  (distinct.filter fun key => (arrayIndex key).isSome).mergeSort (fun a b => (arrayIndex a).getD 0 ≤ (arrayIndex b).getD 0) ++
    distinct.filter fun key => (arrayIndex key).isNone

def fromEntries (given : List (String × Value)) : Members :=
  (propertyOrder (given.map Prod.fst)).filterMap fun key => (given.reverse.lookup key).map fun v => (key, v)

def present (fields : List (String × Option Value)) : Members := fields.filterMap fun field => field.2.map fun v => (field.1, v)

mutual

def isJson (depth : Nat) : Value → Bool
  | .array items => decide (depth ≤ 32) && areJson (depth + 1) items
  | .object members => decide (depth ≤ 32) && membersAreJson (depth + 1) members
  | .null | .bool _ | .number _ | .string _ => decide (depth ≤ 32)

def areJson (depth : Nat) : List Value → Bool
  | [] => true
  | v :: rest => isJson depth v && areJson depth rest

def membersAreJson (depth : Nat) : Members → Bool
  | [] => true
  | (_, v) :: rest => isJson depth v && membersAreJson depth rest

end

def hasTexts (v : Value) (keys : List String) : Bool := keys.all fun key => (v.getStr key).isSome

def isSourceDefinition (source : Value) : Bool := source.isObject && hasTexts source ["id", "topic", "match_pattern", "schema_path"]

def isStepDefinition (step : Value) : Bool :=
  step.isObject && hasTexts step ["step", "type"] &&
    (step.getArray "input_from").any (fun inputs => inputs.all isText) &&
    (step.get "params").all (fun params => params.isObject && isJson 0 params) &&
    (nullish (step.get "pipeline_ref")).all (fun reference =>
      reference.isObject && hasTexts reference ["pipeline_id", "revision_id", "input_source"]) &&
    ["model", "capability_id", "capability_version", "artifact_path"].all fun key => (nullish (step.get key)).all isText

def isDefinition (value : Value) : Bool :=
  value.isObject && (value.getStr "name").isSome &&
    (value.getArray "sources").any (fun sources => sources.all isSourceDefinition) &&
    (value.getArray "pipeline").any fun steps => steps.all isStepDefinition

def parseDefinition (decoded : Value) : Except String Value :=
  if isDefinition decoded then .ok decoded else .error "PIPELINE_UNAVAILABLE"

structure GraphNode where
  id : String
  stepType : String
  config : Members
  title : Option Value
  position : Option (Number × Number)

structure GraphEdge where
  source : String
  target : String
  sourceHandle : Option String
  targetHandle : Option String
deriving DecidableEq

structure StoredGraph where
  nodes : List GraphNode
  edges : List GraphEdge

structure CapabilityLabel where
  id : String
  pluginVersion : String
  name : String

def copyField (key : String) (v : Value) : Except String Value :=
  if truthy v then
    if key = "params" ∨ key = "pipeline_ref" then .ok (.object (entries v))
    else if key = "branch_labels" ∨ key = "content_types" then (spread v).map .array
    else .ok v
  else .ok v

def copyConfig (config : Members) :
    Except String Members := config.mapM fun entry => (copyField entry.1 entry.2).map fun v => (entry.1, v)

def without (keys : List String) (v : Value) : Members := (entries v).filter fun entry => entry.1 ∉ keys

def capabilityName (capabilities : List CapabilityLabel) (key : String) : Option String :=
  (capabilities.flatMap fun item =>
    [(item.id ++ "@" ++ item.pluginVersion, item.name), (item.id ++ "@", item.name)]).reverse.lookup key

def capabilityTitle (capabilities : List CapabilityLabel) (config : Members) : Except String (Option Value) :=
  match (Members.field config "capability_id").filter truthy with
  | none => .ok none
  | some capability => do
      let id ← textOf capability
      let version ← textOf ((nullish (Members.field config "capability_version")).getD (.string ""))
      return some (((capabilityName capabilities (id ++ "@" ++ version)).map .string).getD capability)

def nodeTitle (capabilities : List CapabilityLabel) (editor : Option Value) (id : String) (config : Members) :
    Except String (Option Value) :=
  match nullish ((nullish ((nullish editor).bind fun e => e.get "labels")).bind fun labels => labels.get id) with
  | some label => .ok (some label)
  | none => capabilityTitle capabilities config

def savedPosition (editor : Option Value) (id : String) : Except String (Option (Number × Number)) :=
  match nullish editor with
  | none => .ok none
  | some e => do
      let positions ← context (nullish (e.get "positions")) "Cannot read properties of undefined"
      match positions.pointer id "x", positions.pointer id "y" with
      | some (.number x), some (.number y) => return some (x, y)
      | _, _ => return none

variable (capabilities : List CapabilityLabel) (editor : Option Value)

def storedSource (source : Value) (index : Nat) : Except String GraphNode := do
  let id := (source.getStr "id").getD ""
  let config := without ["id"] source
  let copied ← copyConfig config
  let title ← nodeTitle capabilities editor id config
  return ⟨id, "source", copied, title, some (.int 40, .int (80 + index * 180))⟩

def storedKinds : List String :=
  ["inference", "resolve", "sink", "causal", "dbt", "algorithm", "route", "pipeline", "forward", "filter"]

def stepConfig (step : Value) : Members :=
  let config := without ["step", "type", "input_from", "branches"] step
  match (step.get "branches").filter truthy with
  | none => config
  | some branches => Members.insert "branch_labels" (.array ((entries branches).map fun entry => .string entry.1)) config

def storedStep (step : Value) (index : Nat) : Except String GraphNode := do
  let id := (step.getStr "step").getD ""
  let kind := (step.getStr "type").getD ""
  ensure (storedKinds.contains kind) "unsupported"
  let title ← nodeTitle capabilities editor id (without ["step", "type", "input_from", "branches"] step)
  let copied ← copyConfig (stepConfig step)
  return ⟨id, kind, copied, title, some (.int (360 + index / 3 * 320), .int (80 + index % 3 * 180))⟩

def passedLabels (steps : List Value) (source id : String) : Except String (List (Option String)) :=
  match steps.find? fun candidate => candidate.getStr "step" = some source with
  | none => .ok [none]
  | some parent =>
      if parent.getStr "type" = some "route" then do
        let passed ← (entries ((nullish (parent.get "branches")).getD (.object []))).mapM fun entry =>
          (includes entry.2 id).map fun passes => if passes then some entry.1 else none
        let labels := passed.filterMap fun label => label
        return if labels = [] then [none] else labels.map some
      else .ok [none]

def storedEdges (steps : List Value) (step : Value) : Except String (List GraphEdge) := do
  let id := (step.getStr "step").getD ""
  let inputs := ((step.getArray "input_from").getD []).filterMap Value.asStr
  let edges ← inputs.mapM fun source => (passedLabels steps source id).map fun labels => labels.map fun label =>
    ⟨source, id, label, none⟩
  return edges.flatten

def place (node : GraphNode) : Except String GraphNode :=
  (savedPosition editor node.id).map fun saved => { node with position := saved <|> node.position }

def graphFromDefinition (value : Value) : Except String StoredGraph := do
  let definition ← parseDefinition value
  let editor := definition.get "editor"
  let sources := (definition.getArray "sources").getD []
  let steps := (definition.getArray "pipeline").getD []
  let sourceNodes ← sources.zipIdx.mapM fun entry => storedSource capabilities editor entry.1 entry.2
  let stepNodes ← steps.zipIdx.mapM fun entry => storedStep capabilities editor entry.1 entry.2
  let edges ← steps.mapM (storedEdges steps)
  let nodes := sourceNodes ++ stepNodes
  ensure (decide (nodes.map GraphNode.id).Nodup) "duplicate"
  let placed ← nodes.mapM (place editor)
  return ⟨placed, edges.flatten⟩

def configParam (config : Members) (name : String) :
    Option Value := (nullish (Members.field config "params")).bind fun params => params.get name

def isScheduled (config : Members) : Bool :=
  configParam config "trigger" = some (.string "cron") || configParam config "trigger" = some (.string "on_demand")

def mergesUnion (node : GraphNode) : Bool := node.stepType == "forward" && configParam node.config "merge" = some (.string "union")

def branchLabels (config : Members) : Except String (List String) :=
  match nullish (Members.field config "branch_labels") with
  | some (.array labels) => .ok (labels.filterMap Value.asStr)
  | some _ => .error "is not a list"
  | none => do
      let matched ← textOf ((nullish (configParam config "match_branch")).getD (.string "match"))
      let other ← textOf ((nullish (configParam config "default_branch")).getD (.string "other"))
      return [matched, other]

def namesHandle (handle : Option String) : Bool := handle.any fun text => text != "" && text != "record"

def checkBranch (source : GraphNode) (edge : GraphEdge) : Except String Unit :=
  if source.stepType = "route" then do
    let labels ← branchLabels source.config
    ensure (labels.contains (edge.sourceHandle.getD "")) "branch"
  else .ok ()

def checkEdge (nodes : List GraphNode) (before : List GraphEdge) (edge : GraphEdge) : Except String (List GraphEdge) := do
  let source ← context (nodes.find? fun node => node.id = edge.source) "connection"
  let target ← context (nodes.find? fun node => node.id = edge.target) "connection"
  ensure (source.stepType != "pipeline" && target.stepType != "source" && !isScheduled target.config) "connection"
  ensure (!namesHandle edge.targetHandle && (source.stepType == "route" || !namesHandle edge.sourceHandle)) "connection"
  ensure (!before.any fun e => e.source == edge.source && e.target == edge.target &&
    e.sourceHandle.getD "" == edge.sourceHandle.getD "")
    "duplicate"
  checkBranch source edge
  let parents := (((before ++ [edge]).filter fun e => e.target = edge.target).map GraphEdge.source).eraseDups
  ensure (parents.length ≤ 1 || mergesUnion target) "join"
  return before ++ [edge]

section Order

variable (downstream : String → List String)

/-- The blocks that are reached, oldest first. The first argument bounds their
number. -/
def visit : Nat → (String → Option Nat) → List String → List String
  | 0, _, _ => []
  | _, _, [] => []
  | n + 1, degree, id :: ready =>
      if id = "" then visit n degree ready
      else
        let next := (downstream id).foldl Kahn.release (degree, ready)
        id :: visit n next.1 next.2

end Order

def validateConnections (nodes : List GraphNode) (edges : List GraphEdge) : Except String Unit := do
  ensure (nodes.length ≤ 256) "blocks"
  ensure ((nodes.filter fun node => node.stepType = "pipeline").length ≤ 3) "transfers"
  let ids := nodes.map GraphNode.id
  ensure (decide ids.Nodup) "duplicate"
  let _ ← edges.foldlM (checkEdge nodes) []
  let indegree := fun id => if id ∈ ids then some (edges.countP fun edge => edge.target = id) else none
  let children := fun id => (edges.filter fun edge => edge.source = id).map GraphEdge.target
  let ready := ids.filter fun id => indegree id = some 0
  ensure ((visit children nodes.length indegree ready).length = nodes.length) "cycle"

variable (edges : List GraphEdge) (draft : Bool)

def savedSource (node : GraphNode) : Value :=
  let config := Members.field node.config
  .object (present [
    ("account_id", config "account_id"),
    ("id", some (.string node.id)),
    ("capability_id", config "capability_id"),
    ("capability_version", config "capability_version"),
    ("topic", some ((nullish (config "topic")).getD (.string "raw"))),
    ("match_pattern", some ((nullish (config "match_pattern")).getD (.string ".*"))),
    ("schema_path", some ((nullish (config "schema_path")).getD (.string "schemas/avro/text.avsc"))),
    ("parser", config "parser"),
    ("source_kind", config "source_kind"),
    ("group_id", config "group_id"),
    ("content_types", config "content_types")])

def inputsOf (id : String) : List String := ((edges.filter fun edge => edge.target = id).map GraphEdge.source).eraseDups

def branchTargets (id label : String) : List String :=
  (edges.filter fun edge => edge.source = id ∧ edge.sourceHandle = some label).map GraphEdge.target

def savedBranch (id label : String) : Except String (String × Value) := do
  let targets := branchTargets edges id label
  ensure (draft || (trim label != "" && !targets.isEmpty)) "branch"
  return (label, .array (targets.map .string))

def savedBranches (node : GraphNode) : Except String (Option Value) :=
  if node.stepType = "route" then do
    let labels ← branchLabels node.config
    let branches ← labels.mapM (savedBranch edges draft node.id)
    return some (.object (fromEntries branches))
  else .ok none

def savedStep (node : GraphNode) : Except String Value := do
  let config := Members.field node.config
  let inputs := inputsOf edges node.id
  ensure (draft || inputs.length == 1 || (mergesUnion node && !inputs.isEmpty) || isScheduled node.config) "input"
  let branches ← savedBranches edges draft node
  ensure (draft || node.stepType != "pipeline" || (config "pipeline_ref").any truthy) "reference"
  return .object (present [
    ("ontology_required", config "ontology_required"),
    ("step", some (.string node.id)),
    ("type", some (.string node.stepType)),
    ("input_from", some (.array (inputs.map .string))),
    ("model", config "model"),
    ("capability_id", config "capability_id"),
    ("capability_version", config "capability_version"),
    ("artifact_path", config "artifact_path"),
    ("routing", config "routing"),
    ("pipeline_ref", config "pipeline_ref"),
    ("params", some ((nullish (config "params")).getD (.object []))),
    ("branches", branches)])

def savedLabels (nodes : List GraphNode) : Members :=
  fromEntries (nodes.filterMap fun node => (node.title.filter truthy).map fun title => (node.id, title))

def savedPositions (nodes : List GraphNode) : Members :=
  fromEntries (nodes.filterMap fun node => node.position.map fun p => (node.id, .object [("x", .number p.1), ("y", .number p.2)]))

def definitionFromGraph (name : String) (nodes : List GraphNode) (edges : List GraphEdge) (draft : Bool) : Except String Value := do
  if !draft then
    validateConnections nodes edges
    ensure (trim name != "") "name"
  let sources := (nodes.filter fun node => node.stepType = "source").map savedSource
  let pipeline ← (nodes.filter fun node => node.stepType ≠ "source").mapM (savedStep edges draft)
  ensure (draft || !sources.isEmpty || nodes.any fun node => isScheduled node.config) "source"
  return .object [
    ("name", .string (trim name)),
    ("version", .number (.int 1)),
    ("sources", .array sources),
    ("pipeline", .array pipeline),
    ("editor", .object [("labels", .object (savedLabels nodes)), ("positions", .object (savedPositions nodes))])]

def draftFromGraph (name : String) (nodes : List GraphNode) (edges : List GraphEdge) : Except String Value :=
  definitionFromGraph name nodes edges true

end Galadril.Dashboard
