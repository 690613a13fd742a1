import Galadril.Registry.Ontology

namespace Galadril.Registry.Pipeline

open Json Lib.Checked Identity Ontology

abbrev Names := Std.ExtTreeSet String

structure PipelineBinding where
  blockId : String
  ontologyId : String

def stepTypes : List String :=
  ["inference", "resolve", "sink", "dbt", "causal", "algorithm", "route", "pipeline", "forward", "filter"]

def scheduled (step : Value) : Bool :=
  ((step.pointer "params" "trigger").bind Value.asStr).any fun trigger => trigger == "cron" || trigger == "on_demand"

/-- What one pass over the blocks of a pipeline collects. -/
structure Scan where
  nodes : Names
  sources : Names
  dependencies : Std.ExtTreeMap String (List String)
  required : Std.ExtTreeMap String String
  issues : List String

def Scan.addNode (scan : Scan) (id : String) : Scan :=
  if scan.nodes.contains id then { scan with issues := scan.issues ++ [s!"duplicate_pipeline_node:{id}"] }
  else { scan with nodes := scan.nodes.insert id }

def scanSource (scan : Scan) (source : Value) : Except String Scan := do
  let id ← requiredString source "id" "source"
  let scan := scan.addNode id
  return { scan with sources := scan.sources.insert id }

def stepIssues (step : Value) (id kind : String) : List String :=
  (if stepTypes.contains kind then [] else [s!"invalid_step_type:{id}:{kind}"]) ++
    if kind == "inference" && (step.getStr "model").isNone && (step.getStr "capability_id").isNone then
      [s!"missing_inference_model:{id}"]
    else []

def namedOntology (step : Value) : Option String :=
  (((step.get "params").bind Value.asObject).bind fun params => Members.field params "ontology_id").bind Value.asStr

def scanStep (scan : Scan) (step : Value) : Except String Scan := do
  let id ← requiredString step "step" "pipeline step"
  let scan := scan.addNode id
  let kind ← requiredString step "type" "pipeline step"
  let inputs ← context (step.getArray "input_from") "pipeline_input_from_missing"
  let dependencies ← inputs.mapM fun input => context input.asStr "pipeline dependency must be a string"
  return {
    scan with
    issues := scan.issues ++ stepIssues step id kind
    dependencies := scan.dependencies.insert id dependencies
    required := ((namedOntology step).map (scan.required.insert id)).getD scan.required }

def scanPipeline (sources steps : List Value) : Except String Scan := do
  let scan ← sources.foldlM scanSource ⟨∅, ∅, ∅, ∅, []⟩
  steps.foldlM scanStep scan

def danglingDependencies (scan : Scan) : List String :=
  scan.dependencies.toList.flatMap fun entry =>
    (entry.2.filter fun dependency => !scan.nodes.contains dependency).map fun dependency =>
      s!"dangling_pipeline_dependency:{entry.1}:{dependency}"

def missingBindings (steps : List Value) (bound : Std.ExtTreeMap String String) : Except String (List String) := do
  let issues ← steps.mapM fun step =>
    if (step.get "ontology_required").bind Value.asBool = some true then do
      let id ← requiredString step "step" "pipeline step"
      return if bound.contains id then [] else [s!"missing_ontology_binding:{id}"]
    else return []
  return issues.flatten

def missingOntologies (scan : Scan) (bound : Std.ExtTreeMap String String) : List String :=
  (scan.required.toList.filter fun entry => bound[entry.1]? ≠ some entry.2).map fun entry =>
    s!"missing_ontology_binding:{entry.1}:{entry.2}"

def bindingIssues (requireBindings : Bool) (scan : Scan) (steps : List Value) (bindings : List PipelineBinding) :
    Except String (List String) :=
  if requireBindings then do
    let bound := Std.ExtTreeMap.ofList (bindings.map fun binding => (binding.blockId, binding.ontologyId))
    let unbound ← missingBindings steps bound
    return unbound ++ missingOntologies scan bound
  else .ok []

def branchTargets (entry : String × Value) : Except String (List String) := do
  ensure (!blank entry.1 && entry.1.utf8ByteSize ≤ 128) "Invalid branch label"
  let targets ← context entry.2.asArray "Invalid branch destinations"
  ensure (!targets.isEmpty) "Empty branch destinations"
  targets.foldlM (fun unique target => do
    let name ← context target.asStr "Invalid branch destination"
    ensure (!unique.contains name) "Repeated branch destination"
    return unique ++ [name]) []

def consumers (steps : List Value) (id : String) : List String :=
  (steps.filter fun child => !scheduled child &&
    (child.getArray "input_from").any fun inputs => inputs.any fun input => input.asStr = some id).filterMap
    (·.getStr "step")

def validateRoute (steps : List Value) (step : Value) : Except String Unit := do
  let id ← requiredString step "step" "pipeline step"
  let branches := (step.get "branches").bind Value.asObject
  if step.getStr "type" ≠ some "route" then
    ensure (branches.all List.isEmpty) "Only routing blocks declare branches"
  else
    ensure ((step.getStr "routing").any ["regex", "slm", "metadata"].contains) "Unknown native routing strategy"
    ensure ((step.get "capability_id").all Value.isNull) "Routing cannot select plugin code"
    let branches ← context branches "Routing branches missing"
    ensure (!branches.isEmpty && branches.length ≤ 32) "Invalid routing branches"
    let destinations ← branches.mapM branchTargets
    ensure (Std.ExtTreeSet.ofList destinations.flatten == Std.ExtTreeSet.ofList (consumers steps id))
      "Branches must cover exactly their immediate consumers"

def validateBranchRoutes (steps : List Value) : Except String Unit :=
  steps.forM (validateRoute steps)

variable (downstream : Std.ExtTreeMap String (List String))

def release (acc : Std.ExtTreeMap String Nat × List String) (child : String) :
    Std.ExtTreeMap String Nat × List String :=
  match acc.1[child]? with
  | none => acc
  | some degree => (acc.1.insert child (degree - 1), if degree - 1 = 0 then acc.2 ++ [child] else acc.2)

/-- Serve ready nodes, oldest first. The first argument bounds their number. -/
def serve : Nat → Std.ExtTreeMap String Nat → List String → List String
  | 0, _, _ => []
  | _, _, [] => []
  | n + 1, indegree, node :: ready =>
      let next := (downstream.getD node []).foldl release (indegree, ready)
      node :: serve n next.1 next.2

def inputPairs (dependencies : Std.ExtTreeMap String (List String)) : List (String × String) :=
  dependencies.toList.flatMap fun entry => entry.2.map fun input => (input, entry.1)

def topologicalOrder (sources : Names) (dependencies : Std.ExtTreeMap String (List String)) :
    Option (List String) :=
  let pairs := inputPairs dependencies
  let nodes := Std.ExtTreeSet.ofList (sources.toList ++ dependencies.keys)
  let indegree := Std.ExtTreeMap.ofList (nodes.toList.map fun node => (node, pairs.countP fun p => p.2 == node))
  let downstream := pairs.foldl (fun (m : Std.ExtTreeMap String (List String)) p =>
    m.insert p.1 (m.getD p.1 [] ++ [p.2])) ∅
  let ready := (indegree.toList.filter fun p => p.2 = 0).map (·.1)
  let order := serve downstream (nodes.size + pairs.length + 1) indegree ready
  if order.length = indegree.size then some order else none

def validatePipelineInternal (definition : Value) (bindings : List PipelineBinding) (requireBindings : Bool) :
    Except String (List String) := do
  let object ← context definition.asObject "pipeline_definition_not_object"
  let sources ← context ((Members.field object "sources").bind Value.asArray) "pipeline_sources_missing"
  let steps ← context ((Members.field object "pipeline").bind Value.asArray) "pipeline_steps_missing"
  let scan ← scanPipeline sources steps
  let unbound ← bindingIssues requireBindings scan steps bindings
  validateBranchRoutes steps
  let order := topologicalOrder scan.sources scan.dependencies
  let issues := scan.issues ++ danglingDependencies scan ++ unbound ++
    if order.isNone then ["pipeline_cycle"] else []
  ensure issues.isEmpty ("; ".intercalate issues)
  context order "pipeline_cycle"

def validatePipeline (definition : Value) (bindings : List PipelineBinding) : Except String (List String) :=
  validatePipelineInternal definition bindings true

def validatePipelineStructure (definition : Value) : Except String (List String) :=
  validatePipelineInternal definition [] false

end Galadril.Registry.Pipeline
