import Galadril.Json.Path
import Galadril.Json.Text
import Galadril.Lib.Sha256
import Galadril.Registry.Composition

namespace Galadril.Registry.Pipeline

open Json Lib.Checked Identity

def definitionHash (definition : Value) : String := Lib.Sha256.sha256 definition.toVec

def draftKeys : List String := ["name", "version", "sources", "pipeline", "editor"]

def draftNode (key : String) (ids : List String) (node : Value) : Except String (List String) := do
  let id ← context (node.getStr key) "pipeline block identity missing"
  ensure (validBranch id && !startsWith "__linked_" id && !ids.contains id)
    "pipeline block identity invalid or duplicate"
  ensure (node.get "origin").isNone "reserved pipeline compiler field"
  return id :: ids

def validateDraft (definition : Value) : Except String Unit := do
  let object ← context definition.asObject "pipeline draft not object"
  ensure (object.all fun p => draftKeys.contains p.1) "pipeline service settings forbidden"
  ensure (((Members.field object "name").bind Value.asStr).any fun name => !blank name && name.utf8ByteSize ≤ 256)
    "pipeline name required"
  let sources ← context ((Members.field object "sources").bind Value.asArray) "pipeline sources missing"
  let steps ← context ((Members.field object "pipeline").bind Value.asArray) "pipeline steps missing"
  ensure (sources.length + steps.length ≤ 256) "pipeline block limit exceeded"
  ensure (definition.toVec.length ≤ 1048576) "pipeline document limit exceeded"
  let ids ← sources.foldlM (draftNode "id") []
  let _ ← steps.foldlM (draftNode "step") ids

def textField (v : Value) (field : String) : Bool := (v.getStr field).any fun text => !blank text

def param (step : Value) (name : String) : Option String := (step.pointer "params" name).bind Value.asStr

def executableSource (source : Value) : Except String Unit := do
  ensure (source.getStr "capability_id" != some "utils.input.email" || (source.getStr "account_id").any validMailbox)
    "email receiving account required"
  ["topic", "match_pattern", "schema_path"].forM fun field =>
    ensure (textField source field) s!"pipeline source field missing: {field}"

def executableCondition (condition : Value) : Except String Unit := do
  ensure ((condition.getStr "field").any ["sender", "recipient", "subject", "body", "account"].contains)
    "pipeline condition field invalid"
  ensure ((condition.getStr "operator").any ["equals", "contains", "starts_with", "not_equals"].contains)
    "pipeline condition operator invalid"
  ensure ((condition.getStr "value").any fun value => !blank value && value.utf8ByteSize ≤ 2048)
    "pipeline condition value invalid"

def executableReply (step : Value) : Except String Unit :=
  if step.getStr "capability_id" = some "utils.output.reply" then do
    ensure ((param step "sender_account_id").any fun value => value == "source" || validMailbox value)
      "email sending account required"
    ensure ((param step "delivery_mode").any ["automatic", "approval", "draft"].contains)
      "email delivery mode required"
  else .ok ()

def executableConditions (step : Value) (kind : String) : Except String Unit :=
  if kind = "filter" ∨ step.getStr "routing" = some "conditions" then do
    let conditions ← context ((step.pointer "params" "conditions").bind Value.asArray) "pipeline conditions missing"
    ensure (!conditions.isEmpty && conditions.length ≤ 16) "pipeline condition count invalid"
    conditions.forM executableCondition
  else .ok ()

def executableStep (step : Value) : Except String Unit := do
  executableReply step
  let kind ← context (step.getStr "type") "pipeline type missing"
  let inputs ← context (step.getArray "input_from") "pipeline input missing"
  ensure (param step "trigger" != some "cron" || (param step "cron").any fun cron => !blank cron)
    "scheduled pipeline requires a cron expression"
  let union := kind == "forward" && param step "merge" == some "union"
  ensure (if scheduled step then inputs.isEmpty else !inputs.isEmpty && (inputs.length == 1 || union))
    "pipeline input cardinality invalid"
  executableConditions step kind

def validateExecutable (definition : Value) : Except String Unit := do
  validateDraft definition
  let _ ← validatePipelineStructure definition
  let sources ← context (definition.getArray "sources") "pipeline sources missing"
  sources.forM executableSource
  let steps ← context (definition.getArray "pipeline") "pipeline steps missing"
  ensure (!sources.isEmpty || steps.any scheduled) "pipeline source or schedule required"
  steps.forM executableStep

inductive MergeChoice
  | target
  | source
  deriving DecidableEq

abbrev Resolutions := Std.ExtTreeMap String MergeChoice

structure DefinitionConflict where
  path : String
  base : Option Value
  target : Option Value
  source : Option Value

structure MergePreview where
  definition : Value
  conflicts : List DefinitionConflict

def indexNode (key : String) (indexed : Members) (node : Value) : Except String Members := do
  let id ← context (node.getStr key) "pipeline block identity missing"
  ensure (Members.field indexed id).isNone "duplicate pipeline block"
  return Members.insert id node indexed

def indexCollection (object : Members) (entry : String × String) : Except String Members := do
  let nodes ← context ((Members.field object entry.1).bind Value.asArray) "pipeline collection missing"
  let indexed ← nodes.foldlM (indexNode entry.2) []
  return Members.insert entry.1 (.object indexed) object

def normalize (definition : Value) : Except String Value := do
  let object ← context definition.asObject "pipeline definition not object"
  let object ← [("sources", "id"), ("pipeline", "step")].foldlM indexCollection object
  return .object object

def pointerEscape (c : Char) : List Char :=
  if c = '~' then ['~', '0'] else if c = '/' then ['~', '1'] else [c]

def childPointer (path key : String) : String :=
  path ++ "/" ++ String.ofList (key.toList.flatMap pointerEscape)

def mergeDefinitionValue (resolutions : Resolutions) (path : String) (base target source : Option Value)
    (depth : Nat) : Except String (Option Value × List DefinitionConflict) :=
  if depth > 32 then .error "pipeline merge depth exceeded"
  else if target == source || source == base then .ok (target, [])
  else if target == base then .ok (source, [])
  else
    match target, source, base.all Value.isObject with
    | some (.object left), some (.object right), true =>
        let ancestor := (base.bind Value.asObject).getD []
        let merged := fun key => mergeDefinitionValue resolutions (childPointer path key)
          (Members.field ancestor key) (Members.field left key) (Members.field right key) (depth + 1)
        do
          let keys := Members.unionKeys [left, right, ancestor]
          let results ← keys.mapM merged
          let members := (keys.zip results).filterMap fun p => p.2.1.map fun v => (p.1, v)
          return (some (.object members), results.flatMap (·.2))
    | target, source, _ =>
        match resolutions[path]? with
        | some .target => .ok (target, [])
        | some .source => .ok (source, [])
        | none => .ok (target, [⟨path, base, target, source⟩])
termination_by optDepth target
decreasing_by exact optDepth_field_lt left key

def listCollection (object : Members) (key : String) : Except String Members := do
  let indexed ← context ((Members.field object key).bind Value.asObject) "pipeline merge collection missing"
  return Members.insert key (.array (indexed.map (·.2))) object

def mergeDefinitions (base target source : Value) (resolutions : Resolutions) : Except String MergePreview := do
  let base ← normalize base
  let target ← normalize target
  let source ← normalize source
  ensure (resolutions.size ≤ 256) "pipeline resolution limit exceeded"
  let (definition, conflicts) ← mergeDefinitionValue resolutions "" (some base) (some target) (some source) 0
  let definition ← context definition "pipeline merge removed definition"
  let object ← context definition.asObject "pipeline merge not object"
  let object ← ["sources", "pipeline"].foldlM listCollection object
  return ⟨.object object, conflicts⟩

end Galadril.Registry.Pipeline
