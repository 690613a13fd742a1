import Galadril.Registry.Domain

namespace Galadril.Registry

open Json Lib.Checked Lib.Revisions Lib.Programs Identity Ontology Pipeline

inductive AuthoringCommand
  | deleteBranch (branch : String)
  | saveDraft (branch : String)
  | bindOntology (blockId ontologyId : String)
  | createBranch (branch fromBranch : String)
  | proposeMerge (sourceBranch : String)
  | merge (proposalId : String) (resolutions : Resolutions)
  | approve
  | publish
  | deploy

def AuthoringCommand.savesMain : AuthoringCommand → Bool
  | .saveDraft branch => branch == "main"
  | _ => false

/-- The two objects a command may change before the single commit. -/
structure Workspace where
  record : PipelineRecord
  bindings : Keyed OntologyBindingRecord

def controlFlow (step : Value) : Bool :=
  match step.getStr "type" with
  | some kind => ["forward", "filter", "pipeline"].contains kind
  | none => true

def requireOntology (blockId : String) : List Value → Except String (List Value)
  | [] => .error "pipeline block unavailable"
  | step :: rest =>
      if step.getStr "step" = some blockId then do
        ensure (!controlFlow step) "control-flow block cannot bind ontology"
        let members ← context step.asObject "invalid pipeline block"
        return .object (Members.insert "ontology_required" (.bool true) members) :: rest
      else do
        let rest ← requireOntology blockId rest
        return step :: rest

def requireOntologyOf (blockId : String) (definition : Value) : Except String Value := do
  let steps ← context (definition.getArray "pipeline") "pipeline block unavailable"
  let steps ← requireOntology blockId steps
  let members ← context definition.asObject "pipeline block unavailable"
  return .object (Members.insert "pipeline" (.array steps) members)

def explicitSelection (now : Int) (pipelineId blockId ontologyId : String) : OntologyBindingRecord where
  pipelineId := pipelineId
  blockId := blockId
  ontologyId := ontologyId
  resourceIds := []
  resourceKinds := ["object_type", "event_type", "property", "link_type"]
  includeDependencies := true
  metadata := .object [("source", .string "explicit_tenant_selection")]
  updatedAtMs := now

def bindOntologyDraft (tenantId : String) (now : Int) (state : TenantState) (record : PipelineRecord)
    (blockId ontologyId : String) : Op Workspace := do
  let binding := explicitSelection now record.pipelineId blockId ontologyId
  validatePublishedBinding tenantId state binding
  let definition ← reported .pipelineService (requireOntologyOf blockId record.definition)
  reported .authoring (validateDraft definition)
  return {
    record := { record with definition, authoring := { record.authoring with approval := none } }
    bindings := state.bindings.insert (bindingKey record.pipelineId blockId) binding }

variable (tenantId : String) (input : PutPipeline) (now : Int) (revisionId : String) (record : PipelineRecord)

def saveBranchDraft (branch : String) : Op PipelineRecord := do
  let selected ← require .pipelineService record.authoring.branches[branch]? "pipeline branch unavailable"
  let selected := { selected with definition := input.definition, authorId := input.author, updatedAtMs := now }
  return { record with
    authoring := { record.authoring with branches := record.authoring.branches.insert branch selected } }

def saveMainDraft : PipelineRecord :=
  { record with
    definition := input.definition
    name := input.name
    authoring := { record.authoring with approval := none } }

def saveDraft (branch : String) : Op PipelineRecord := do
  reported .authoring (validateDraft input.definition)
  check .pipelineService (input.definition.getStr "name" == some input.name) "pipeline name mismatch"
  if branch = "main" then pure (saveMainDraft input record) else saveBranchDraft input now record branch

def deleteBranch (branch : String) : Op PipelineRecord := do
  check .pipelineService (validBranch branch && branch != "main") "invalid pipeline branch"
  check .pipelineService record.authoring.branches[branch]?.isSome "pipeline branch unavailable"
  check .pipelineService (!record.authoring.branches.values.any fun child => child.parentBranch == some branch)
    "pipeline branch has children"
  check .pipelineService (!record.authoring.proposals.values.any fun p => p.sourceBranch == branch)
    "pipeline branch has an open proposal"
  return { record with
    authoring := { record.authoring with branches := record.authoring.branches.erase branch } }

def forkOf (fromBranch : String) : Op (Value × Value × String) :=
  if fromBranch = "main" then pure (record.definition, record.definition, revisionId)
  else do
    let parent ← require .pipelineService record.authoring.branches[fromBranch]? "pipeline branch unavailable"
    return (parent.definition, parent.baseDefinition, parent.baseRevisionId)

def createBranch (branch fromBranch : String) : Op PipelineRecord := do
  check .pipelineService (validBranch branch && branch != "main") "invalid pipeline branch"
  check .pipelineService (record.authoring.branches.size < 32 && record.authoring.branches[branch]?.isNone)
    "pipeline branch exists or limit reached"
  let (definition, baseDefinition, baseRevisionId) ← forkOf revisionId record fromBranch
  let fork : Branch := {
    parentBranch := some fromBranch
    definition
    baseDefinition
    baseRevisionId
    authorId := input.author
    updatedAtMs := now }
  return { record with
    authoring := { record.authoring with branches := record.authoring.branches.insert branch fork } }

def proposeMerge (sourceBranch : String) : Op PipelineRecord := do
  let source ← require .pipelineService record.authoring.branches[sourceBranch]? "pipeline source branch unavailable"
  check .pipelineService
    (record.authoring.proposals.size < 32 || record.authoring.proposals[sourceBranch]?.isSome)
    "pipeline proposal limit exceeded"
  let proposal : MergeProposal := {
    sourceBranch
    sourceHash := definitionHash source.definition
    targetHash := definitionHash record.definition
    authorId := input.author
    createdAtMs := now }
  return { record with
    authoring := { record.authoring with proposals := record.authoring.proposals.insert sourceBranch proposal } }

def mergeProposal (proposalId : String) (resolutions : Resolutions) : Op PipelineRecord := do
  let proposal ← require .pipelineService record.authoring.proposals[proposalId]? "pipeline proposal unavailable"
  let source ← require .pipelineService record.authoring.branches[proposal.sourceBranch]? "pipeline branch unavailable"
  check .pipelineService (proposal.sourceHash == definitionHash source.definition &&
    proposal.targetHash == definitionHash record.definition) "pipeline proposal changed; refresh proposal"
  let preview ← reported .authoring
    (mergeDefinitions source.baseDefinition record.definition source.definition resolutions)
  check .pipelineService preview.conflicts.isEmpty "pipeline merge conflicts unresolved"
  reported .authoring (validateDraft preview.definition)
  let name ← require .pipelineService (preview.definition.getStr "name") "pipeline name missing"
  let merged ← require .pipelineService record.authoring.branches[proposalId]? "pipeline branch unavailable"
  let merged := {
    merged with
    baseDefinition := preview.definition
    definition := preview.definition
    baseRevisionId := revisionId }
  return { record with
    name
    definition := preview.definition
    authoring := {
      record.authoring with
      approval := none
      proposals := record.authoring.proposals.erase proposalId
      branches := record.authoring.branches.insert proposalId merged } }

def approve : Op PipelineRecord := do
  reported .authoring (validateExecutable record.definition)
  check .pipelineService ((record.definition.getArray "sources").any fun sources => !sources.isEmpty)
    "pipeline requires a source"
  let _ ← compileComposition input.pipelineId revisionId record.definition false
  let review : ContentReview := ⟨definitionHash record.definition, input.author, now⟩
  return { record with authoring := { record.authoring with approval := some review } }

def publish : Op PipelineRecord := do
  let review ← require .pipelineService record.authoring.approval "pipeline approval required"
  check .pipelineService (review.definitionHash == definitionHash record.definition) "pipeline approval stale"
  let _ ← compileComposition input.pipelineId revisionId record.definition true
  let release : PipelineRelease := ⟨revisionId, review.definitionHash, input.author, now⟩
  return { record with authoring := { record.authoring with release := some release } }

/-- The checks that a published pin passes before the runtime pointer moves. -/
def admitRelease (pipelineId : String) (release : PipelineRelease) : Op Unit := do
  let pinned ← pipelineRevision tenantId pipelineId release.revisionId
  check .pipelineService (release.definitionHash == definitionHash pinned.record.definition)
    "pipeline publication invalid"
  let _ ← compileComposition pipelineId release.revisionId pinned.record.definition true
  let _ ← runtimePipeline tenantId pipelineId release.revisionId

def deploy : Op PipelineRecord := do
  let release ← require .pipelineService record.authoring.release "pipeline publication required"
  admitRelease tenantId input.pipelineId release
  return { record with publishedRevisionId := some release.revisionId }

section Service

variable (clock : Nat → Int) (tenantId : String)

def keepBindings (state : TenantState) (edited : Op PipelineRecord) : Op Workspace := do
  let record ← edited
  return ⟨record, state.bindings⟩

def applyCommand (input : PutPipeline) (snapshot : Snapshot String TenantState) (record : PipelineRecord) :
    AuthoringCommand → Op Workspace
  | .bindOntology blockId ontologyId => do
      check .pipelineService (input.definition == record.definition)
        "binding cannot replace the pipeline definition"
      bindOntologyDraft tenantId (clock 1) snapshot.state record blockId ontologyId
  | .saveDraft branch => keepBindings snapshot.state (saveDraft input (clock 0) record branch)
  | .deleteBranch branch => keepBindings snapshot.state (deleteBranch record branch)
  | .createBranch branch fromBranch =>
      keepBindings snapshot.state (createBranch input (clock 0) snapshot.revisionId record branch fromBranch)
  | .proposeMerge sourceBranch => keepBindings snapshot.state (proposeMerge input (clock 0) record sourceBranch)
  | .merge proposalId resolutions =>
      keepBindings snapshot.state (mergeProposal snapshot.revisionId record proposalId resolutions)
  | .approve => keepBindings snapshot.state (approve input (clock 0) snapshot.revisionId record)
  | .publish => keepBindings snapshot.state (publish input (clock 0) snapshot.revisionId record)
  | .deploy => keepBindings snapshot.state (deploy tenantId input record)

/-- The workspace a command starts from. Every command takes the pipeline into
managed authoring. -/
def managedRecord (input : PutPipeline) (now : Int) : Option PipelineRecord → PipelineRecord
  | some record => { record with authoring := { record.authoring with enabled := true } }
  | none => {
      authoring := { enabled := true }
      previousRevisionId := none
      pipelineId := input.pipelineId
      name := input.name
      ownerId := input.ownerId
      publishedRevisionId := none
      definition := .null
      authorId := input.author
      message := input.message
      createdAtMs := now
      updatedAtMs := now
      deletedAtMs := none }

def stamped (input : PutPipeline) (revisionId : String) (now : Int) (record : PipelineRecord) : PipelineRecord :=
  { record with
    previousRevisionId := if input.createOnly then none else some revisionId
    authorId := input.author
    message := input.message
    updatedAtMs := now }

def prepareCreation (command : AuthoringCommand) : Op Unit := do
  check .pipelineService command.savesMain "only a main draft can create a pipeline"
  Prog.prepared

def authorPipeline (input : PutPipeline) (command : AuthoringCommand) : Op PipelineView := do
  check .pipelineService (validTenant tenantId && validBranch input.pipelineId) "invalid pipeline identity"
  check .pipelineService (input.author != "" && input.ownerId != "") "pipeline principal required"
  check .pipelineService (!blank input.name && input.name.utf8ByteSize ≤ 256) "pipeline name required"
  check .pipelineService (input.message != "" && input.message.utf8ByteSize ≤ 1024) "pipeline message required"
  whenever input.createOnly (prepareCreation command)
  let snapshot ← Prog.head
  check .pipelineService (input.createOnly || input.expectedRevisionId == some snapshot.revisionId)
    "pipeline head changed"
  let previous := snapshot.state.pipelines[input.pipelineId]?
  check .pipelineService (!input.createOnly || previous.isNone) "pipeline already exists"
  check .pipelineService (input.createOnly || previous.any fun record => record.deletedAtMs.isNone)
    "pipeline unavailable"
  let edited ← applyCommand clock tenantId input snapshot (managedRecord input (clock 0) previous) command
  let record := stamped input snapshot.revisionId (clock 0) edited.record
  check .pipelineService (record.toJson.toVec.length ≤ 3 * 1024 * 1024) "pipeline workspace size limit exceeded"
  let state := { snapshot.state with bindings := edited.bindings }.withPipeline input.pipelineId record
  let head ← Prog.commits snapshot.revisionId state input.author input.message
  let record ← require .pipelineService state.pipelines[input.pipelineId]? "committed pipeline missing"
  return ⟨head, record⟩

end Service

end Galadril.Registry
