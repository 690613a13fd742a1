import Galadril.Registry.AuthoringService
import Galadril.Registry.OntologyAuthoring

namespace Galadril.Registry

open Json Lib.Checked Lib.Revisions Lib.Programs Identity Ontology Pipeline

abbrev Branchline := Store String TenantState

/-- Every revision identity that the storage boundary issues is validated
before it is handed out. -/
def backend : Backend String Failure where
  admissible := validRevision
  missing := ⟨.storage, "revision unavailable"⟩
  stale := ⟨.storage, "registry revision changed"⟩

variable {α β : Type} {o : Origin} {b : Bool} {text : String} {s : Branchline}

@[simp] theorem query_check {u : Unit} : (check o b text).query backend s = .ok u ↔ b = true := by
  simp [check]

@[simp] theorem query_require {x : Option α} {a : α} :
    (require o x text).query backend s = .ok a ↔ x = some a := by
  simp [require]

@[simp] theorem query_reported {x : Except String α} {a : α} :
    (reported o x).query backend s = .ok a ↔ x = .ok a := by
  cases x <;> simp [reported, Except.mapError]

@[simp] theorem query_whenever {p : Op Unit} {u : Unit} :
    (whenever b p).query backend s = .ok u ↔ (b = true → p.query backend s = .ok ()) := by
  cases b <;> simp [whenever]

theorem query_validateIdentity {tenantId resourceId : String} {u : Unit} :
    (validateIdentity tenantId resourceId).query backend s = .ok u ↔
      validTenant tenantId = true ∧ validIdentity resourceId = true := by
  simp [validateIdentity]

variable {tenantId : String}

@[simp] theorem pinned_check (b : Bool) : Pinned (check o b text) := trivial

@[simp] theorem pinned_require {α : Type} (x : Option α) : Pinned (require o x text) := trivial

@[simp] theorem pinned_reported {α : Type} (x : Except String α) : Pinned (reported o x) := trivial

theorem pinned_whenever {b : Bool} {p : Op Unit} (h : Pinned p) : Pinned (whenever b p) := by
  cases b
  · exact pinned_pure ()
  · exact h

@[simp] theorem pinned_validateIdentity (resourceId : String) : Pinned (validateIdentity tenantId resourceId) :=
  (pinned_check _).bind fun _ => pinned_check _

@[simp] theorem pinned_validatePipelineOntologyDependencies (state : TenantState) (pipelineId : String) :
    Pinned (validatePipelineOntologyDependencies state pipelineId) :=
  (pinned_require _).bind fun _ => (pinned_reported _).bind fun _ => pinned_check _

@[simp] theorem pinned_loadDefinitions (requireOntologies : Bool) (budget : Nat) (pending : List PipelineReference)
    (definitions : Definitions) : Pinned (loadDefinitions requireOntologies budget pending definitions) := by
  induction budget generalizing pending definitions with
  | zero =>
      unfold loadDefinitions
      split
      · exact pinned_pure _
      · exact pinned_reported _
  | succ budget ih =>
      unfold loadDefinitions
      split
      · exact pinned_pure _
      · refine (pinned_pinned _).bind fun snapshot => ?_
        refine (pinned_whenever (pinned_validatePipelineOntologyDependencies _ _)).bind fun _ => ?_
        refine (pinned_require _).bind fun child => (pinned_reported _).bind fun more => ih _ _

@[simp] theorem pinned_compileComposition (pipelineId revisionId : String) (definition : Value) (strict : Bool) :
    Pinned (compileComposition pipelineId revisionId definition strict) :=
  (pinned_reported _).bind fun _ => (pinned_loadDefinitions _ _ _ _).bind fun _ => pinned_reported _

@[simp] theorem pinned_pipelineRevision (pipelineId revisionId : String) :
    Pinned (pipelineRevision tenantId pipelineId revisionId) :=
  (pinned_validateIdentity _).bind fun _ => (pinned_check _).bind fun _ =>
    (pinned_pinned _).bind fun _ => (pinned_require _).bind fun _ => pinned_pure _

@[simp] theorem pinned_runtimePipeline (pipelineId revisionId : String) :
    Pinned (runtimePipeline tenantId pipelineId revisionId) :=
  (pinned_validateIdentity _).bind fun _ => (pinned_check _).bind fun _ => (pinned_pinned _).bind fun _ =>
    (pinned_validatePipelineOntologyDependencies _ _).bind fun _ => (pinned_require _).bind fun _ =>
      (pinned_compileComposition _ _ _ _).bind fun _ => pinned_pure _

@[simp] theorem pinned_ontologyAt (ontologyId revisionId : String) :
    Pinned (ontologyAt tenantId ontologyId revisionId) :=
  (pinned_validateIdentity _).bind fun _ => (pinned_check _).bind fun _ => (pinned_pinned _).bind fun _ =>
    (pinned_require _).bind fun _ => (pinned_reported _).bind fun _ => pinned_pure _

@[simp] theorem pinned_validatePublishedBinding (state : TenantState) (binding : OntologyBindingRecord) :
    Pinned (validatePublishedBinding tenantId state binding) :=
  (pinned_check _).bind fun _ => (pinned_require _).bind fun _ => (pinned_ontologyAt _ _).bind fun _ =>
    pinned_reported _

theorem pinned_ontologySlice (pipelineId revisionId blockId : String) :
    Pinned (ontologySlice tenantId pipelineId revisionId blockId) :=
  (pinned_validateIdentity _).bind fun _ => (pinned_check _).bind fun _ => (pinned_pinned _).bind fun _ =>
    (pinned_check _).bind fun _ => (pinned_require _).bind fun _ => (pinned_require _).bind fun _ =>
      (pinned_ontologyAt _ _).bind fun _ => (pinned_reported _).bind fun _ => pinned_pure _

variable {input : PutPipeline} {now : Int} {revisionId : String} {record : PipelineRecord}

theorem pinned_bindOntologyDraft (state : TenantState) (blockId ontologyId : String) :
    Pinned (bindOntologyDraft tenantId now state record blockId ontologyId) :=
  (pinned_validatePublishedBinding _ _).bind fun _ => (pinned_reported _).bind fun _ =>
    (pinned_reported _).bind fun _ => pinned_pure _

theorem pinned_saveDraft (branch : String) : Pinned (saveDraft input now record branch) := by
  refine (pinned_reported _).bind fun _ => (pinned_check _).bind fun _ => ?_
  split
  · exact pinned_pure _
  · exact (pinned_require _).bind fun _ => pinned_pure _

theorem pinned_deleteBranch (branch : String) : Pinned (deleteBranch record branch) :=
  (pinned_check _).bind fun _ => (pinned_check _).bind fun _ => (pinned_check _).bind fun _ =>
    (pinned_check _).bind fun _ => pinned_pure _

theorem pinned_forkOf (fromBranch : String) : Pinned (forkOf revisionId record fromBranch) := by
  unfold forkOf
  split
  · exact pinned_pure _
  · exact (pinned_require _).bind fun _ => pinned_pure _

theorem pinned_createBranch (branch fromBranch : String) :
    Pinned (createBranch input now revisionId record branch fromBranch) :=
  (pinned_check _).bind fun _ => (pinned_check _).bind fun _ => (pinned_forkOf _).bind fun _ => pinned_pure _

theorem pinned_proposeMerge (sourceBranch : String) : Pinned (proposeMerge input now record sourceBranch) :=
  (pinned_require _).bind fun _ => (pinned_check _).bind fun _ => pinned_pure _

theorem pinned_mergeProposal (proposalId : String) (resolutions : Resolutions) :
    Pinned (mergeProposal revisionId record proposalId resolutions) :=
  (pinned_require _).bind fun _ => (pinned_require _).bind fun _ => (pinned_check _).bind fun _ =>
    (pinned_reported _).bind fun _ => (pinned_check _).bind fun _ => (pinned_reported _).bind fun _ =>
      (pinned_require _).bind fun _ => (pinned_require _).bind fun _ => pinned_pure _

theorem pinned_approve : Pinned (approve input now revisionId record) :=
  (pinned_reported _).bind fun _ => (pinned_check _).bind fun _ => (pinned_compileComposition _ _ _ _).bind fun _ =>
    pinned_pure _

theorem pinned_publish : Pinned (publish input now revisionId record) :=
  (pinned_require _).bind fun _ => (pinned_check _).bind fun _ => (pinned_compileComposition _ _ _ _).bind fun _ =>
    pinned_pure _

@[simp] theorem pinned_admitRelease (pipelineId : String) (release : PipelineRelease) :
    Pinned (admitRelease tenantId pipelineId release) :=
  (pinned_pipelineRevision _ _).bind fun _ => (pinned_check _).bind fun _ =>
    (pinned_compileComposition _ _ _ _).bind fun _ => (pinned_runtimePipeline _ _).bind fun _ => pinned_pure _

theorem pinned_deploy : Pinned (deploy tenantId input record) :=
  (pinned_require _).bind fun _ => (pinned_admitRelease _ _).bind fun _ => pinned_pure _

theorem pinned_keepBindings {state : TenantState} {edited : Op PipelineRecord} (h : Pinned edited) :
    Pinned (keepBindings state edited) := h.bind fun _ => pinned_pure _

/-- A command reads pinned revisions only; the head was read before it. -/
@[simp] theorem pinned_applyCommand {clock : Nat → Int} {snapshot : Snapshot String TenantState}
    (command : AuthoringCommand) : Pinned (applyCommand clock tenantId input snapshot record command) := by
  cases command with
  | deleteBranch branch => exact pinned_keepBindings (pinned_deleteBranch branch)
  | saveDraft branch => exact pinned_keepBindings (pinned_saveDraft branch)
  | bindOntology blockId ontologyId => exact (pinned_check _).bind fun _ => pinned_bindOntologyDraft _ _ _
  | createBranch branch fromBranch => exact pinned_keepBindings (pinned_createBranch branch fromBranch)
  | proposeMerge sourceBranch => exact pinned_keepBindings (pinned_proposeMerge sourceBranch)
  | merge proposalId resolutions => exact pinned_keepBindings (pinned_mergeProposal proposalId resolutions)
  | approve => exact pinned_keepBindings pinned_approve
  | publish => exact pinned_keepBindings pinned_publish
  | deploy => exact pinned_keepBindings pinned_deploy

@[simp] theorem pinned_prepareCreation (b : Bool) (command : AuthoringCommand) :
    Pinned (whenever b (prepareCreation command)) :=
  pinned_whenever ((pinned_check _).bind fun _ => pinned_prepared)

@[simp] theorem query_prepareCreation {command : AuthoringCommand} {s : Branchline} {u : Unit} :
    (prepareCreation command).query backend s = .ok u ↔ command.savesMain = true := by
  simp [prepareCreation]

section OntologyCommands

variable {record : OntologyRecord} {expected author : String} {now : Int}

theorem pinned_tip (branch : String) : Pinned (tip record branch) := by
  unfold tip
  split
  · exact pinned_pure _
  · exact (pinned_require _).bind fun _ => pinned_pure _

theorem pinned_saveInto (input : PutOntology) (branch : String) : Pinned (saveInto record now input branch) := by
  unfold saveInto
  split
  · exact pinned_pure _
  · exact (pinned_require _).bind fun _ => pinned_pure _

theorem pinned_mergeInto (parent : String) (merged : Value) (name : String) :
    Pinned (mergeInto record author now parent merged name) := by
  unfold mergeInto
  split
  · exact pinned_pure _
  · exact (pinned_require _).bind fun _ => pinned_pure _

theorem pinned_mergeBranch (branch : String) : Pinned (mergeBranch record expected author now branch) :=
  (pinned_check _).bind fun _ => (pinned_require _).bind fun _ => (pinned_tip _).bind fun _ =>
    (pinned_check _).bind fun _ => (pinned_reported _).bind fun _ => (pinned_check _).bind fun _ =>
      (pinned_require _).bind fun _ => (pinned_mergeInto _ _ _).bind fun _ => pinned_pure _

@[simp] theorem pinned_applyOntologyCommand {input : PutOntology} {state : TenantState}
    (command : OntologyCommand) : Pinned (applyOntologyCommand record expected now input state command) := by
  cases command with
  | createBranch branch fromBranch =>
      exact (pinned_check _).bind fun _ => (pinned_check _).bind fun _ => (pinned_tip _).bind fun _ => pinned_pure _
  | saveDraft branch =>
      exact (pinned_check _).bind fun _ => (pinned_check _).bind fun _ => (pinned_reported _).bind fun _ =>
        (pinned_check _).bind fun _ => (pinned_saveInto _ _).bind fun _ => pinned_pure _
  | merge branch => exact pinned_mergeBranch branch
  | deleteBranch branch => exact (pinned_check _).bind fun _ => (pinned_check _).bind fun _ => pinned_pure _
  | delete =>
      exact (pinned_check _).bind fun _ => (pinned_check _).bind fun _ => (pinned_check _).bind fun _ => pinned_pure _
  | restore => exact (pinned_check _).bind fun _ => pinned_pure _

end OntologyCommands

end Galadril.Registry
