import Galadril.Registry.State

namespace Galadril.Registry

open Json Lib.Checked Lib.Revisions Lib.Programs Identity Ontology Pipeline

inductive Origin
  | storage
  | semantics
  | composition
  | authoring
  | domain
  | pipelineService
  | ontologyService
  deriving DecidableEq

structure Failure where
  origin : Origin
  text : String
  deriving DecidableEq

abbrev Op := Prog String TenantState Failure

variable {α : Type} (origin : Origin)

def check (b : Bool) (text : String) : Op Unit := Prog.lift (ensure b ⟨origin, text⟩)

def require (o : Option α) (text : String) : Op α := Prog.lift (context o ⟨origin, text⟩)

def reported (x : Except String α) : Op α := Prog.lift (x.mapError fun text => ⟨origin, text⟩)

def whenever (b : Bool) (p : Op Unit) : Op Unit := if b then p else pure ()

structure PipelineView where
  headRevisionId : String
  record : PipelineRecord

structure OntologyView where
  revisionId : String
  record : OntologyRecord

structure OntologySliceView where
  publication : OntologyPublicationRecord
  binding : OntologyBindingRecord
  ontology : Value

structure PutPipeline where
  pipelineId : String
  name : String
  ownerId : String
  definition : Value
  author : String
  message : String
  expectedRevisionId : Option String
  createOnly : Bool

structure PutOntology where
  ontologyId : String
  displayName : String
  ontology : Value
  author : String
  message : String
  expectedRevisionId : Option String
  createOnly : Bool

def validateIdentity (tenantId resourceId : String) : Op Unit := do
  check .domain (validTenant tenantId) "invalid tenant ID"
  check .domain (validIdentity resourceId) "invalid resource ID"

def liveAt (state : TenantState) (pipelineId : String) : Option PipelineRecord :=
  state.pipelines[pipelineId]?.filter fun record => record.deletedAtMs.isNone

def bindingRecordsFor (state : TenantState) (pipelineId : String) : List OntologyBindingRecord :=
  state.bindings.values.filter fun binding => binding.pipelineId = pipelineId

def bindingsFor (state : TenantState) (pipelineId : String) : List PipelineBinding :=
  (bindingRecordsFor state pipelineId).map fun binding => ⟨binding.blockId, binding.ontologyId⟩

def production (state : TenantState) (ontologyId : String) : Option OntologyPublicationRecord :=
  (state.ontologies[ontologyId]?.bind (·.productionPublication)).filter fun p => p.lifecycle = "production"

def validatePipelineOntologyDependencies (state : TenantState) (pipelineId : String) : Op Unit := do
  let pipeline ← require .domain state.pipelines[pipelineId]? "pipeline unavailable"
  let _ ← reported .semantics (validatePipeline pipeline.definition (bindingsFor state pipelineId))
  check .domain ((bindingRecordsFor state pipelineId).all fun b => (production state b.ontologyId).isSome)
    "unpublished ontology dependency"

variable (tenantId : String)

/-- Loads every pinned dependency once. The first argument is the number of
definitions that may still be loaded. -/
def loadDefinitions (requireOntologies : Bool) : Nat → List PipelineReference → Definitions → Op Definitions
  | budget, pending, definitions =>
      match pending.dropWhile fun r => (definitions.lookup r.key).isSome with
      | [] => pure definitions
      | reference :: rest =>
          match budget with
          | 0 => reported .domain (.error "Composition exceeds three pipeline transfers")
          | budget + 1 => do
              let snapshot ← Prog.pinned reference.revisionId
              whenever requireOntologies (validatePipelineOntologyDependencies snapshot.state reference.pipelineId)
              let child ← require .domain (liveAt snapshot.state reference.pipelineId) "Referenced pipeline unavailable"
              let more ← reported .composition (references child.definition)
              loadDefinitions requireOntologies budget (more.reverse ++ rest)
                ((reference.key, child.definition) :: definitions)

def compileComposition (pipelineId revisionId : String) (definition : Value) (requireOntologies : Bool) :
    Op Value := do
  let pending ← reported .composition (references definition)
  let definitions ← loadDefinitions requireOntologies maxTransfers pending.reverse []
  reported .composition (compile pipelineId revisionId definition definitions)

def currentPipeline (pipelineId : String) : Op PipelineView := do
  validateIdentity tenantId pipelineId
  let snapshot ← Prog.head
  let record ← require .domain (liveAt snapshot.state pipelineId) "pipeline unavailable"
  return ⟨snapshot.revisionId, record⟩

def listPipelines (limit : Nat) : Op (List PipelineView) := do
  check .domain (validTenant tenantId) "invalid tenant ID"
  let snapshot ← Prog.head
  let live := snapshot.state.pipelines.values.filter fun record => record.deletedAtMs.isNone
  return (live.take (min limit 100)).map fun record => ⟨snapshot.revisionId, record⟩

def pipelineRevision (pipelineId revisionId : String) : Op PipelineView := do
  validateIdentity tenantId pipelineId
  check .domain (validRevision revisionId) "invalid revision ID"
  let snapshot ← Prog.pinned revisionId
  let record ← require .domain (liveAt snapshot.state pipelineId) "pipeline unavailable"
  return ⟨snapshot.revisionId, record⟩

def runtimePipeline (pipelineId revisionId : String) : Op PipelineRecord := do
  validateIdentity tenantId pipelineId
  check .domain (validRevision revisionId) "invalid revision ID"
  let snapshot ← Prog.pinned revisionId
  validatePipelineOntologyDependencies snapshot.state pipelineId
  let record ← require .domain (liveAt snapshot.state pipelineId) "pipeline unavailable at revision"
  let definition ← compileComposition pipelineId revisionId record.definition true
  return { record with definition }

def listPublishedPipelines (limit : Nat) : Op (List PipelineView) := do
  check .domain (validTenant tenantId) "invalid tenant ID"
  let current ← Prog.head
  let published := (current.state.pipelines.values.filterMap fun pipeline =>
    pipeline.publishedRevisionId.map fun revision => (pipeline.pipelineId, revision)).take (min limit 100)
  published.mapM fun entry => do
    let record ← runtimePipeline tenantId entry.1 entry.2
    return ⟨entry.2, record⟩

def ontologyAt (ontologyId revisionId : String) : Op OntologyView := do
  validateIdentity tenantId ontologyId
  check .domain (validRevision revisionId) "invalid revision ID"
  let snapshot ← Prog.pinned revisionId
  let record ← require .domain snapshot.state.ontologies[ontologyId]? "ontology unavailable at revision"
  reported .semantics (validateOntology record.ontology)
  return ⟨snapshot.revisionId, record⟩

def validatePublishedBinding (state : TenantState) (binding : OntologyBindingRecord) : Op Unit := do
  check .domain (validIdentity binding.ontologyId) "invalid ontology ID"
  let publication ← require .domain (production state binding.ontologyId) "ontology is not published"
  let published ← ontologyAt tenantId binding.ontologyId publication.revisionId
  reported .semantics
    (validateOntologySelector published.record.ontology binding.resourceIds binding.resourceKinds)

def ontologySlice (pipelineId pipelineRevisionId blockId : String) : Op OntologySliceView := do
  validateIdentity tenantId pipelineId
  check .domain (validIdentity blockId) "invalid block ID"
  let snapshot ← Prog.pinned pipelineRevisionId
  check .domain snapshot.state.pipelines[pipelineId]?.isSome "pipeline unavailable at revision"
  let binding ← require .domain snapshot.state.bindings[bindingKey pipelineId blockId]?
    "ontology binding unavailable at revision"
  let publication ← require .domain (production snapshot.state binding.ontologyId)
    "ontology publication unavailable at revision"
  let published ← ontologyAt tenantId binding.ontologyId publication.revisionId
  let sliced ← reported .semantics (sliceOntology published.record.ontology binding.resourceIds binding.resourceKinds
    binding.includeDependencies)
  return ⟨publication, binding, sliced⟩

section Writes

variable (clock : Nat → Int) (tenantId : String)

/-- The optimistic lock shared by creations and replacements. -/
def expectHead (expected : Option String) (createOnly : Bool) (head text : String) : Op Unit :=
  match expected with
  | some expected => check .domain (head == expected) text
  | none => check .domain createOnly "expected revision ID is required"

def replacedPipeline (now : Int) (revisionId : String) (input : PutPipeline) (existing : Option PipelineRecord) :
    PipelineRecord where
  authoring := {}
  previousRevisionId := existing.map fun _ => revisionId
  pipelineId := input.pipelineId
  name := input.name
  ownerId := input.ownerId
  publishedRevisionId := existing.bind (·.publishedRevisionId)
  definition := input.definition
  authorId := input.author
  message := input.message
  createdAtMs := (existing.map PipelineRecord.createdAtMs).getD now
  updatedAtMs := now
  deletedAtMs := none

def putPipeline (input : PutPipeline) : Op PipelineView := do
  validateIdentity tenantId input.pipelineId
  check .domain (input.name != "") "pipeline name is required"
  check .domain (input.ownerId != "") "pipeline owner is required"
  check .domain (input.author != "") "pipeline author is required"
  check .domain (input.message != "") "pipeline message is required"
  Prog.prepared
  let snapshot ← Prog.head
  let existing := snapshot.state.pipelines[input.pipelineId]?
  check .domain (!input.createOnly || existing.isNone) "pipeline already exists"
  check .domain (input.createOnly || existing.isSome) "pipeline unavailable"
  check .domain (input.expectedRevisionId.all validRevision) "invalid expected revision ID"
  expectHead input.expectedRevisionId input.createOnly snapshot.revisionId "pipeline head changed"
  check .domain (!existing.any fun record => record.authoring.enabled)
    "managed pipeline requires explicit authoring commands"
  let _ ← reported .semantics (validatePipelineStructure input.definition)
  let _ ← compileComposition input.pipelineId snapshot.revisionId input.definition false
  let record := replacedPipeline (clock 0) snapshot.revisionId input existing
  let state := snapshot.state.withPipeline input.pipelineId record
  let revision ← Prog.commits snapshot.revisionId state input.author input.message
  let record ← require .domain state.pipelines[input.pipelineId]? "committed pipeline missing from state"
  return ⟨revision, record⟩

/-- Publication pins the head it was checked against. -/
def PipelineRecord.published (record : PipelineRecord) (revisionId : String) (now : Int) : PipelineRecord :=
  { record with
    publishedRevisionId := some revisionId
    previousRevisionId := some revisionId
    updatedAtMs := now }

def publishPipeline (pipelineId revisionId : String) : Op PipelineView := do
  validateIdentity tenantId pipelineId
  check .domain (validRevision revisionId) "invalid revision ID"
  let pinned ← Prog.pinned revisionId
  let candidate ← require .domain (liveAt pinned.state pipelineId) "pipeline unavailable at revision"
  check .domain (!candidate.authoring.enabled) "managed pipeline requires explicit approval and deployment"
  let _ ← reported .semantics (validatePipeline candidate.definition (bindingsFor pinned.state pipelineId))
  validatePipelineOntologyDependencies pinned.state pipelineId
  let _ ← compileComposition pipelineId revisionId candidate.definition true
  let current ← Prog.head
  check .domain (current.revisionId == revisionId) "pipeline head changed"
  let pipeline ← require .domain current.state.pipelines[pipelineId]? "pipeline unavailable"
  let record := pipeline.published revisionId (clock 0)
  let state := current.state.withPipeline pipelineId record
  let head ← Prog.commits revisionId state record.authorId "Publish pipeline"
  let record ← require .domain state.pipelines[pipelineId]? "committed pipeline missing from state"
  return ⟨head, record⟩

def PipelineRecord.deleted (record : PipelineRecord) (now : Int) : PipelineRecord :=
  { record with deletedAtMs := some now, publishedRevisionId := none }

def deletePipeline (pipelineId expectedRevisionId : String) : Op String := do
  validateIdentity tenantId pipelineId
  let snapshot ← Prog.head
  check .domain (snapshot.revisionId == expectedRevisionId) "pipeline head changed"
  let pipeline ← require .domain snapshot.state.pipelines[pipelineId]? "pipeline unavailable"
  let record := pipeline.deleted (clock 0)
  Prog.commits expectedRevisionId (snapshot.state.withPipeline pipelineId record) "registry" "Delete pipeline"

def OntologyAuthoringState.touch (state : OntologyAuthoringState) (previous : Option String)
    (branch operation author : String) (now : Int) : OntologyAuthoringState :=
  { state with
    previousRevisionId := previous
    lastBranch := branch
    lastOperation := operation
    lastAuthor := author
    updatedAtMs := now }

def OntologyRecord.validateWorkspaceSize (record : OntologyRecord) : Op Unit :=
  check .ontologyService (record.toJson.toVec.length ≤ 2 * 1024 * 1024) "ontology workspace size limit exceeded"

def replaceable (input : PutOntology) (existing : OntologyRecord) : Op Unit := do
  check .domain existing.authoring.deletedAtMs.isNone "ontology is deleted"
  check .domain ((existing.ontology.get "plugin_origin").all fun origin =>
    input.ontology.get "plugin_origin" == some origin) "ontology plugin provenance is immutable"

def replaceableIfAny (input : PutOntology) : Option OntologyRecord → Op Unit
  | none => pure ()
  | some existing => replaceable input existing

def replacedOntology (revisionId : String) (input : PutOntology) (existing : Option OntologyRecord) :
    OntologyRecord where
  authoring := ((existing.map OntologyRecord.authoring).getD {}).touch
    (if input.createOnly then none else some revisionId) "main" "save_draft" input.author (clock 1)
  ontologyId := input.ontologyId
  displayName := input.displayName
  ontology := input.ontology
  author := input.author
  message := input.message
  createdAtMs := (existing.map OntologyRecord.createdAtMs).getD (clock 0)
  productionPublication := existing.bind (·.productionPublication)

def putOntology (input : PutOntology) : Op OntologyView := do
  validateIdentity tenantId input.ontologyId
  check .domain (input.displayName != "") "ontology display name is required"
  check .domain (input.author != "") "ontology author is required"
  check .domain (input.message != "") "ontology message is required"
  reported .semantics (validateOntology input.ontology)
  Prog.prepared
  let snapshot ← Prog.head
  let existing := snapshot.state.ontologies[input.ontologyId]?
  check .domain (!input.createOnly || existing.isNone) "ontology already exists"
  check .domain (input.createOnly || existing.isSome) "ontology unavailable"
  expectHead input.expectedRevisionId input.createOnly snapshot.revisionId "ontology head changed"
  replaceableIfAny input existing
  let record := replacedOntology clock snapshot.revisionId input existing
  record.validateWorkspaceSize
  let state := snapshot.state.withOntology input.ontologyId record
  let revision ← Prog.commits snapshot.revisionId state input.author input.message
  let record ← require .domain state.ontologies[input.ontologyId]? "committed ontology missing from state"
  return ⟨revision, record⟩

/-- Hash of the serialized model; its members are stored in the order in which
they were written. -/
def contentHash (value : Value) : String := Lib.Sha256.sha256 value.toVec

structure PublishOntology where
  ontologyId : String
  displayName : String
  publicationId : String
  revisionId : String
  metadata : Value
  createOnly : Bool

def publicationOf (input : PublishOntology) (pinned : OntologyRecord) (version : String) (now : Int) :
    OntologyPublicationRecord where
  publicationId := input.publicationId
  revisionId := input.revisionId
  lifecycle := "production"
  metadata := input.metadata
  baseVersion := version
  baseHash := contentHash pinned.ontology
  effectiveHash := contentHash pinned.ontology
  author := pinned.author
  message := pinned.message
  publishedAtMs := now
  retiredAtMs := none

def OntologyRecord.publishedAs (record : OntologyRecord) (revisionId displayName : String)
    (publication : OntologyPublicationRecord) (now : Int) : OntologyRecord :=
  { record with
    displayName
    productionPublication := some publication
    message := "Publish ontology"
    authoring := record.authoring.touch (some revisionId) "main" "publish" "registry" now }

def publishOntology (input : PublishOntology) : Op OntologyPublicationRecord := do
  validateIdentity tenantId input.ontologyId
  check .domain (validIdentity input.publicationId) "invalid publication ID"
  let pinned ← ontologyAt tenantId input.ontologyId input.revisionId
  let current ← Prog.head
  let existing ← require .domain current.state.ontologies[input.ontologyId]? "ontology unavailable"
  check .domain (!input.createOnly || existing.productionPublication.isNone) "ontology already published"
  let version ← require .domain (pinned.record.ontology.getStr "version") "ontology version missing"
  let publication := publicationOf input pinned.record version (clock 0)
  check .domain (existing.authoring.deletedAtMs.isNone && pinned.record.authoring.deletedAtMs.isNone)
    "ontology is deleted"
  let record := existing.publishedAs current.revisionId input.displayName publication (clock 1)
  let state := current.state.withOntology input.ontologyId record
  let _ ← Prog.commits current.revisionId state "registry" "Publish ontology"
  require .domain (state.ontologies[input.ontologyId]?.bind (·.productionPublication))
    "committed ontology publication missing from state"

def OntologyRecord.retired (record : OntologyRecord) (revisionId : String)
    (publication : OntologyPublicationRecord) (retiredAt now : Int) : OntologyRecord :=
  { record with
    productionPublication := some { publication with lifecycle := "retired", retiredAtMs := some retiredAt }
    message := "Retire ontology"
    authoring := record.authoring.touch (some revisionId) "main" "retire" "registry" now }

def retireOntology (ontologyId publicationId revisionId : String) : Op String := do
  validateIdentity tenantId ontologyId
  let snapshot ← Prog.head
  let existing ← require .domain snapshot.state.ontologies[ontologyId]? "ontology unavailable"
  let publication ← require .domain existing.productionPublication "ontology publication unavailable"
  check .domain (publication.publicationId == publicationId && publication.revisionId == revisionId &&
    publication.lifecycle == "production") "ontology publication changed"
  let record := existing.retired snapshot.revisionId publication (clock 0) (clock 1)
  Prog.commits snapshot.revisionId (snapshot.state.withOntology ontologyId record) "registry" "Retire ontology"

def hasBlock (definition : Value) (blockId : String) : Bool :=
  (definition.getArray "pipeline").any fun steps => steps.any fun step => step.getStr "step" = some blockId

def putBinding (expectedRevisionId : String) (binding : OntologyBindingRecord) :
    Op (OntologyBindingRecord × String) := do
  validateIdentity tenantId binding.pipelineId
  check .domain (validIdentity binding.blockId) "invalid block ID"
  check .domain (validIdentity binding.ontologyId) "invalid ontology ID"
  Prog.prepared
  let snapshot ← Prog.head
  check .domain (snapshot.revisionId == expectedRevisionId) "registry revision changed"
  let pipeline ← require .domain snapshot.state.pipelines[binding.pipelineId]? "pipeline unavailable"
  check .domain (hasBlock pipeline.definition binding.blockId) "pipeline block unavailable"
  validatePublishedBinding tenantId snapshot.state binding
  let key := bindingKey binding.pipelineId binding.blockId
  let state := snapshot.state.withBinding key binding
  let revision ← Prog.commits expectedRevisionId state "registry" "Update ontology binding"
  let binding ← require .domain state.bindings[key]? "committed binding missing from state"
  return (binding, revision)

structure MergeRevisions where
  ontologyId : String
  baseRevisionId : String
  leftRevisionId : String
  rightRevisionId : String
  expectedRevisionId : String
  author : String
  message : String

def mergeOntologyRevisions (input : MergeRevisions) : Op (MergeResult × Option OntologyView) := do
  Prog.prepared
  let base ← ontologyAt tenantId input.ontologyId input.baseRevisionId
  let left ← ontologyAt tenantId input.ontologyId input.leftRevisionId
  let right ← ontologyAt tenantId input.ontologyId input.rightRevisionId
  let result ← reported .semantics (mergeOntology base.record.ontology left.record.ontology right.record.ontology)
  match result.ontology with
  | none => return (result, none)
  | some ontology =>
      let view ← putOntology clock tenantId {
        ontologyId := input.ontologyId
        displayName := left.record.displayName
        ontology
        author := input.author
        message := input.message
        expectedRevisionId := some input.expectedRevisionId
        createOnly := false }
      return (result, some view)

end Writes

end Galadril.Registry
