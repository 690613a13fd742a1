import Galadril.Lib.Programs
import Galadril.Registry.Effects

namespace Galadril.Registry

open Json Lib.Checked Lib.Revisions Lib.Programs Identity Ontology Pipeline

/-- Errors worded outside the authoring service for pipelines. -/
def Foreign (e : Failure) : Prop := e.origin ≠ .pipelineService

variable {α β : Type} {E : Failure → Prop} {fresh text : String} {o : Origin} {s : Branchline}

@[simp] theorem blames_check {b : Bool} :
    Blames backend fresh E (check o b text) s ↔ (b = false → E ⟨o, text⟩) := by
  rw [check, blames_lift]
  cases b <;> simp [ensure, eq_comm]

@[simp] theorem blames_require {x : Option α} :
    Blames backend fresh E (require o x text) s ↔ (x = none → E ⟨o, text⟩) := by
  rw [require, blames_lift]
  cases x <;> simp [context, eq_comm]

@[simp] theorem blames_reported {x : Except String α} :
    Blames backend fresh E (reported o x) s ↔ ∀ text, x = .error text → E ⟨o, text⟩ := by
  rw [reported, blames_lift]
  cases x <;> simp [Except.mapError]

@[simp] theorem blames_whenever {b : Bool} {p : Op Unit} :
    Blames backend fresh E (whenever b p) s ↔ (b = true → Blames backend fresh E p s) := by
  cases b <;> simp [whenever]

/-- The rule for everything that precedes the commit. -/
theorem blames_step {p : Op α} {f : α → Op β} (hp : Pinned p) :
    Blames backend fresh E (p >>= f) s ↔
      Blames backend fresh E p s ∧ ∀ a, p.query backend s = .ok a → Blames backend fresh E (f a) s :=
  blames_bind hp.readOnly

@[simp] theorem blames_map {f : α → β} {p : Op α} :
    Blames backend fresh E (f <$> p) s ↔ Blames backend fresh E p s := by
  unfold Blames
  rw [map_eq_pure_bind, Prog.run_bind]
  cases p.run backend fresh s with
  | mk x t => cases x <;> simp

@[simp] theorem foreign_mk : Foreign ⟨o, text⟩ ↔ o ≠ .pipelineService := Iff.rfl

@[simp] theorem foreign_missing : Foreign backend.missing := by simp [backend]

theorem foreign_stale : Foreign backend.stale := by simp [backend]

section Domain

variable {fresh tenantId : String} {s : Branchline} {clock : Nat → Int}

attribute [local simp] blames_step

@[simp] theorem foreign_validateIdentity (resourceId : String) :
    Blames backend fresh Foreign (validateIdentity tenantId resourceId) s := by
  simp [validateIdentity]

@[simp] theorem foreign_validatePipelineOntologyDependencies (state : TenantState) (pipelineId : String) :
    Blames backend fresh Foreign (validatePipelineOntologyDependencies state pipelineId) s := by
  simp [validatePipelineOntologyDependencies]

@[simp] theorem foreign_loadDefinitions (requireOntologies : Bool) (budget : Nat) (pending : List PipelineReference)
    (definitions : Definitions) :
    Blames backend fresh Foreign (loadDefinitions requireOntologies budget pending definitions) s := by
  induction budget generalizing pending definitions with
  | zero =>
      unfold loadDefinitions
      split <;> simp
  | succ budget ih =>
      unfold loadDefinitions
      split
      · simp
      · simp [pinned_whenever, ih]

@[simp] theorem foreign_compileComposition (pipelineId revisionId : String) (definition : Value) (strict : Bool) :
    Blames backend fresh Foreign (compileComposition pipelineId revisionId definition strict) s := by
  simp [compileComposition]

@[simp] theorem foreign_pipelineRevision (pipelineId revisionId : String) :
    Blames backend fresh Foreign (pipelineRevision tenantId pipelineId revisionId) s := by
  simp [pipelineRevision]

@[simp] theorem foreign_runtimePipeline (pipelineId revisionId : String) :
    Blames backend fresh Foreign (runtimePipeline tenantId pipelineId revisionId) s := by
  simp [runtimePipeline]

@[simp] theorem foreign_ontologyAt (ontologyId revisionId : String) :
    Blames backend fresh Foreign (ontologyAt tenantId ontologyId revisionId) s := by
  simp [ontologyAt]

@[simp] theorem foreign_validatePublishedBinding (state : TenantState) (binding : OntologyBindingRecord) :
    Blames backend fresh Foreign (validatePublishedBinding tenantId state binding) s := by
  simp [validatePublishedBinding]

@[simp] theorem foreign_expectHead (expected : Option String) (createOnly : Bool) (head text : String) :
    Blames backend fresh Foreign (expectHead expected createOnly head text) s := by
  cases expected <;> simp [expectHead]

@[simp] theorem foreign_replaceableIfAny (input : PutOntology) (existing : Option OntologyRecord) :
    Blames backend fresh Foreign (replaceableIfAny input existing) s := by
  cases existing <;> simp [replaceableIfAny, replaceable]

@[simp] theorem foreign_validateWorkspaceSize (record : OntologyRecord) :
    Blames backend fresh Foreign record.validateWorkspaceSize s := by
  simp [OntologyRecord.validateWorkspaceSize]

@[simp] theorem foreign_commits {expected : String} {state : TenantState} {author message : String} :
    Blames backend fresh Foreign (Prog.commits expected state author message) s := blames_commits foreign_stale

end Domain

section OntologyCommands

variable {fresh tenantId expected author : String} {s : Branchline} {now : Int} {record : OntologyRecord}

attribute [local simp] blames_step

@[simp] theorem foreign_tip (branch : String) : Blames backend fresh Foreign (tip record branch) s := by
  unfold tip
  split <;> simp

@[simp] theorem foreign_saveInto (input : PutOntology) (branch : String) :
    Blames backend fresh Foreign (saveInto record now input branch) s := by
  unfold saveInto
  split <;> simp

@[simp] theorem foreign_mergeInto (parent : String) (merged : Value) (name : String) :
    Blames backend fresh Foreign (mergeInto record author now parent merged name) s := by
  unfold mergeInto
  split <;> simp

@[simp] theorem foreign_applyOntologyCommand {input : PutOntology} {state : TenantState} (command : OntologyCommand) :
    Blames backend fresh Foreign (applyOntologyCommand record expected now input state command) s := by
  cases command with
  | createBranch branch fromBranch => simp [applyOntologyCommand, fork]
  | saveDraft branch => simp [applyOntologyCommand, saveBranch]
  | merge branch => simp [applyOntologyCommand, mergeBranch, pinned_tip]
  | deleteBranch branch => simp [applyOntologyCommand, removeBranch]
  | delete => simp [applyOntologyCommand, deleteOntology]
  | restore => simp [applyOntologyCommand, restoreOntology]

end OntologyCommands

section Operations

variable {fresh tenantId : String} {s : Branchline} {clock : Nat → Int}

attribute [local simp] blames_step require_some

theorem foreign_putOntology (input : PutOntology) :
    Blames backend fresh Foreign (putOntology clock tenantId input) s := by
  simp [putOntology]

theorem foreign_mergeOntologyRevisions (input : MergeRevisions) :
    Blames backend fresh Foreign (mergeOntologyRevisions clock tenantId input) s := by
  simp only [mergeOntologyRevisions, blames_prepared_bind, blames_step, pinned_ontologyAt, pinned_reported]
  refine ⟨by simp, fun _ _ => ⟨by simp, fun _ _ => ⟨by simp, fun _ _ => ⟨by simp, fun result _ => ?_⟩⟩⟩⟩
  cases result.ontology with
  | none => simp
  | some ontology => simp [foreign_putOntology]

/-- No other operation words its errors as the pipeline authoring service does. -/
theorem foreign_program {op : Operation} (h : ∀ input command, op ≠ .authorPipeline input command) :
    Blames backend fresh Foreign (program clock tenantId op) s := by
  cases op with
  | putPipeline input => simp [program, answered, putPipeline]
  | publishPipeline pipelineId revisionId => simp [program, answered, publishPipeline]
  | deletePipeline pipelineId expected => simp [program, answered, deletePipeline]
  | putOntology input => simp [program, answered, foreign_putOntology]
  | publishOntology input => simp [program, answered, publishOntology, OntologyRecord.publishedAs]
  | retireOntology ontologyId publicationId revisionId => simp [program, answered, retireOntology]
  | putBinding expected binding => simp [program, answered, putBinding]
  | mergeOntology input => simp [program, answered, foreign_mergeOntologyRevisions]
  | authorPipeline input command => exact absurd rfl (h input command)
  | authorOntology input command => simp [program, answered, authorOntology]

end Operations

end Galadril.Registry
