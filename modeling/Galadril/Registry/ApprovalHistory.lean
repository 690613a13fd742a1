import Galadril.Registry.Approvals
import Galadril.Registry.Rejections

namespace Galadril.Registry

open Json Lib.Checked Lib.Revisions Lib.Programs Identity Ontology Pipeline

variable {tenantId genesis : String}

def ApprovedBy (tenantId genesis : String) (calls : List Call) (id : String) (definition : Value) : Prop :=
  ∃ later call earlier input record, calls = later ++ call :: earlier ∧
    call.operation = .authorPipeline input .approve ∧ input.pipelineId = id ∧
    history tenantId genesis (call :: earlier) ≠ history tenantId genesis earlier ∧
    (history tenantId genesis (call :: earlier)).head.state.pipelines[id]? = some record ∧
    record.definition = definition ∧ record.authoring.approval.isSome = true

theorem ApprovedBy.cons {calls : List Call} {id : String} {definition : Value}
    (h : ApprovedBy tenantId genesis calls id definition) (call : Call) :
    ApprovedBy tenantId genesis (call :: calls) id definition := by
  obtain ⟨later, approving, earlier, input, record, rfl, h⟩ := h
  exact ⟨call :: later, approving, earlier, input, record, rfl, h⟩

/-- The pin of a release: the head of an earlier part of the run, which holds
approved content with the recorded hash. -/
def ReleasedFrom (tenantId genesis : String) (calls : List Call) (id : String) (release : PipelineRelease) : Prop :=
  ∃ later pinned record, calls = later ++ pinned ∧
    (history tenantId genesis pinned).head.revisionId = release.revisionId ∧
    (history tenantId genesis pinned).head.state.pipelines[id]? = some record ∧
    definitionHash record.definition = release.definitionHash ∧
    ApprovedBy tenantId genesis pinned id record.definition

theorem ReleasedFrom.cons {calls : List Call} {id : String} {release : PipelineRelease}
    (h : ReleasedFrom tenantId genesis calls id release) (call : Call) :
    ReleasedFrom tenantId genesis (call :: calls) id release := by
  obtain ⟨later, pinned, record, rfl, h⟩ := h
  exact ⟨call :: later, pinned, record, rfl, h⟩

/-- Approvals cover the current content and come from an approving call. -/
theorem history_approved (calls : List Call) {id : String} {record : PipelineRecord} {review : ContentReview}
    (hrecord : (history tenantId genesis calls).head.state.pipelines[id]? = some record)
    (hreview : record.authoring.approval = some review) :
    (review.definitionHash = definitionHash record.definition ∧ Accepts (validateExecutable record.definition)) ∧
      ApprovedBy tenantId genesis calls id record.definition := by
  induction calls generalizing record with
  | nil => simp [history, Store.init] at hrecord
  | cons call earlier ih =>
      rcases history_cons call earlier with h | ⟨-, state, heffect, hfresh, h⟩
      · rw [h] at hrecord
        obtain ⟨hcovers, hby⟩ := ih hrecord hreview
        exact ⟨hcovers, hby.cons call⟩
      · have hstored := hrecord
        rw [h] at hrecord
        rcases heffect.pipeline_cases hrecord with hkept | hrewritten
        · obtain ⟨hcovers, hby⟩ := ih hkept hreview
          exact ⟨hcovers, hby.cons call⟩
        · rcases hrewritten.approval_cases hreview with ⟨old, hold, hreview', hsame⟩ | ⟨input, hop, hid, hcovers⟩
          · obtain ⟨hcovers, hby⟩ := ih hold hreview'
            rw [hsame]
            exact ⟨hcovers, hby.cons call⟩
          · refine ⟨hcovers, [], call, earlier, input, record, rfl, hop, hid, ?_, hstored, rfl, by simp [hreview]⟩
            rw [h]
            exact Store.push_ne _ _ _ _

theorem history_released (calls : List Call) {id : String} {record : PipelineRecord} {release : PipelineRelease}
    (hrecord : (history tenantId genesis calls).head.state.pipelines[id]? = some record)
    (hrelease : record.authoring.release = some release) :
    ReleasedFrom tenantId genesis calls id release := by
  induction calls generalizing record with
  | nil => simp [history, Store.init] at hrecord
  | cons call earlier ih =>
      rcases history_cons call earlier with h | ⟨-, state, heffect, hfresh, h⟩
      · rw [h] at hrecord
        exact (ih hrecord hrelease).cons call
      · rw [h] at hrecord
        rcases heffect.pipeline_cases hrecord with hkept | hrewritten
        · exact (ih hkept hrelease).cons call
        · obtain ⟨old, hold, hrelease' | ⟨review, hreview, hrevision, hhash⟩⟩ := hrewritten.release_cases hrelease
          · exact (ih hold hrelease').cons call
          · exact ⟨[call], earlier, old, rfl, hrevision.symm, hold, hhash.symm, (history_approved earlier hold hreview).2⟩

/-- Every later store still resolves the pin of a release. -/
theorem ReleasedFrom.find {calls : List Call} {id : String} {release : PipelineRelease}
    (h : ReleasedFrom tenantId genesis calls id release) :
    ∃ later pinned record, calls = later ++ pinned ∧
      (history tenantId genesis calls).find release.revisionId = some (history tenantId genesis pinned).head ∧
      (history tenantId genesis pinned).head.state.pipelines[id]? = some record ∧
      definitionHash record.definition = release.definitionHash ∧
      ApprovedBy tenantId genesis pinned id record.definition := by
  obtain ⟨later, pinned, record, rfl, hrevision, hrest⟩ := h
  refine ⟨later, pinned, record, rfl, ?_, hrest⟩
  rw [← hrevision]
  exact (history_extends later pinned).find (Store.find_head _)

section Answers

variable {fresh : String} {s : Branchline} {clock : Nat → Int}

/-- Neither of the two errors that report a broken link between content,
approval and publication. -/
def Intact (e : Failure) : Prop :=
  e ≠ ⟨.pipelineService, "pipeline approval stale"⟩ ∧ e ≠ ⟨.pipelineService, "pipeline publication invalid"⟩

def bindingErrors : List String :=
  ["pipeline block unavailable", "control-flow block cannot bind ontology", "invalid pipeline block"]

theorem intact_of_foreign {e : Failure} (h : Foreign e) : Intact e := by
  constructor <;> rintro rfl <;> exact h rfl

theorem blames_intact {α : Type} {p : Op α} (h : Blames backend fresh Foreign p s) :
    Blames backend fresh Intact p s := fun e he => intact_of_foreign (h e he)

attribute [local simp] blames_step Intact blames_intact

theorem requireOntology_error {blockId text : String} {steps : List Value}
    (h : requireOntology blockId steps = .error text) : text ∈ bindingErrors := by
  induction steps with
  | nil =>
      obtain rfl := Except.error.inj h
      simp [bindingErrors]
  | cons step rest ih =>
      unfold requireOntology at h
      split at h
      · simp only [bind_eq_error, ensure_eq_error, context_eq_error] at h
        rcases h with ⟨-, rfl⟩ | ⟨_, -, ⟨-, rfl⟩ | ⟨_, -, h⟩⟩
        · simp [bindingErrors]
        · simp [bindingErrors]
        · cases h
      · simp only [bind_eq_error] at h
        rcases h with h | ⟨_, -, h⟩
        · exact ih h
        · cases h

theorem requireOntologyOf_error {blockId text : String} {definition : Value}
    (h : requireOntologyOf blockId definition = .error text) : text ∈ bindingErrors := by
  simp only [requireOntologyOf, bind_eq_error, context_eq_error] at h
  rcases h with ⟨-, rfl⟩ | ⟨steps, -, h | ⟨_, -, ⟨-, rfl⟩ | ⟨_, -, h⟩⟩⟩
  · simp [bindingErrors]
  · exact requireOntology_error h
  · simp [bindingErrors]
  · cases h

@[simp] theorem intact_prepareCreation (command : AuthoringCommand) :
    Blames backend fresh Intact (prepareCreation command) s := by
  simp [prepareCreation]

@[simp] theorem intact_commits {expected : String} {state : TenantState} {author message : String} :
    Blames backend fresh Intact (Prog.commits expected state author message) s :=
  blames_commits (intact_of_foreign foreign_stale)

/-- With intact links no command reports a broken one. -/
theorem intact_applyCommand {input : PutPipeline} {record : PipelineRecord} (command : AuthoringCommand)
    (happroval : ∀ review, record.authoring.approval = some review →
      review.definitionHash = definitionHash record.definition)
    (hrelease : ∀ release snap pinned, record.authoring.release = some release →
      s.find release.revisionId = some snap → snap.state.pipelines[input.pipelineId]? = some pinned →
        release.definitionHash = definitionHash pinned.definition) :
    Blames backend fresh Intact (applyCommand clock tenantId input s.head record command) s := by
  cases command with
  | deleteBranch branch => simp [applyCommand, keepBindings, deleteBranch]
  | saveDraft branch =>
      simp only [applyCommand, keepBindings, bind_pure_comp, blames_map, saveDraft, blames_step, pinned_reported,
        pinned_check]
      refine ⟨by simp, fun _ _ => ⟨by simp, fun _ _ => ?_⟩⟩
      split
      · simp
      · simp [saveBranchDraft]
  | bindOntology blockId ontologyId =>
      simp only [applyCommand, bindOntologyDraft, blames_step, pinned_check, pinned_validatePublishedBinding,
        pinned_reported]
      refine ⟨by simp, fun _ _ => ⟨by simp, fun _ _ => ⟨?_, by simp⟩⟩⟩
      rw [blames_reported]
      intro text h
      have htext := requireOntologyOf_error h
      simp only [bindingErrors, List.mem_cons, List.not_mem_nil, or_false] at htext
      rcases htext with rfl | rfl | rfl <;> simp
  | createBranch branch fromBranch =>
      simp only [applyCommand, keepBindings, bind_pure_comp, blames_map, createBranch, blames_step, pinned_check]
      refine ⟨by simp, fun _ _ => ⟨by simp, fun _ _ => ?_⟩⟩
      unfold forkOf
      split <;> simp
  | proposeMerge sourceBranch => simp [applyCommand, keepBindings, proposeMerge]
  | merge proposalId resolutions => simp [applyCommand, keepBindings, mergeProposal]
  | approve => simp [applyCommand, keepBindings, approve]
  | publish =>
      simp [applyCommand, keepBindings, publish]
      exact happroval
  | deploy =>
      simp [applyCommand, keepBindings, deploy, admitRelease]
      intro release hrel view hview
      simp [pipelineRevision, query_validateIdentity, liveAt_eq_some] at hview
      obtain ⟨-, -, snap, hsnap, pinned, ⟨hpinned, -⟩, rfl⟩ := hview
      exact hrelease release snap pinned hrel hsnap hpinned

theorem intact_authorPipeline {input : PutPipeline} {command : AuthoringCommand}
    (happroval : ∀ (record : PipelineRecord) review, s.head.state.pipelines[input.pipelineId]? = some record →
      record.authoring.approval = some review → review.definitionHash = definitionHash record.definition)
    (hrelease : ∀ (record : PipelineRecord) release snap (pinned : PipelineRecord),
      s.head.state.pipelines[input.pipelineId]? = some record → record.authoring.release = some release →
        s.find release.revisionId = some snap → snap.state.pipelines[input.pipelineId]? = some pinned →
          release.definitionHash = definitionHash pinned.definition) :
    Blames backend fresh Intact (authorPipeline clock tenantId input command) s := by
  have hcommand : Blames backend fresh Intact (applyCommand clock tenantId input s.head
      (managedRecord input (clock 0) s.head.state.pipelines[input.pipelineId]?) command) s := by
    refine intact_applyCommand command (fun review hreview => ?_) fun release snap pinned hrel hsnap hpinned => ?_
    · cases hold : s.head.state.pipelines[input.pipelineId]? with
      | none => simp [hold, managedRecord] at hreview
      | some old =>
          rw [hold] at hreview
          exact happroval old review hold hreview
    · cases hold : s.head.state.pipelines[input.pipelineId]? with
      | none => simp [hold, managedRecord] at hrel
      | some old =>
          rw [hold] at hrel
          exact hrelease old release snap pinned hold hrel hsnap hpinned
  simp [authorPipeline, require_some, hcommand]

end Answers

/-- The links between content, approval, release and production pointer of a
pipeline, for every run of the operations: (i) an approval covers the current
content, which is executable; (ii) a release pins approved content; (iii) no
call is answered with a broken link; (iv) a managed pointer moves by deployment
and deletion only. -/
theorem approval_lifecycle (tenantId genesis : String) (calls : List Call) :
    (∀ (id : String) (record : PipelineRecord) review,
      (history tenantId genesis calls).head.state.pipelines[id]? = some record →
      record.authoring.approval = some review →
        review.definitionHash = definitionHash record.definition ∧ Accepts (validateExecutable record.definition)) ∧
    (∀ (id : String) (record : PipelineRecord) release,
      (history tenantId genesis calls).head.state.pipelines[id]? = some record →
      record.authoring.release = some release →
        ∃ later pinned record, calls = later ++ pinned ∧
          (history tenantId genesis calls).find release.revisionId = some (history tenantId genesis pinned).head ∧
          (history tenantId genesis pinned).head.state.pipelines[id]? = some record ∧
          definitionHash record.definition = release.definitionHash ∧
          ApprovedBy tenantId genesis pinned id record.definition) ∧
    (∀ call : Call, Blames backend call.fresh Intact (call.program tenantId) (history tenantId genesis calls)) ∧
    (∀ (call : Call) (id : String) (old : PipelineRecord),
      (history tenantId genesis calls).head.state.pipelines[id]? = some old → old.authoring.enabled = true →
        ∃ new, (history tenantId genesis (call :: calls)).head.state.pipelines[id]? = some new ∧
          new.authoring.enabled = true ∧ PointerMoves id call.operation old new) := by
  refine ⟨fun id record review hrecord hreview => (history_approved calls hrecord hreview).1,
    fun id record release hrecord hrelease => (history_released calls hrecord hrelease).find,
    fun call => ?_, fun call id old hold hm => ?_⟩
  · by_cases hop : ∃ input command, call.operation = .authorPipeline input command
    · obtain ⟨input, command, hop⟩ := hop
      have hauthor : Blames backend call.fresh Intact (authorPipeline call.clock tenantId input command)
          (history tenantId genesis calls) := by
        refine intact_authorPipeline (fun record review hrecord hreview => ?_)
          fun record release snap pinned hrecord hrelease hsnap hpinned => ?_
        · exact (history_approved calls hrecord hreview).1.1
        · obtain ⟨_, _, record', -, hfind, hrecord', hhash, -⟩ := (history_released calls hrecord hrelease).find
          obtain rfl := Option.some.inj (hfind.symm.trans hsnap)
          obtain rfl := Option.some.inj (hrecord'.symm.trans hpinned)
          exact hhash.symm
      simpa [Call.program, hop, program, answered] using hauthor
    · exact blames_intact (foreign_program fun input command h => hop ⟨input, command, h⟩)
  · rcases history_cons call calls with h | ⟨-, state, heffect, hfresh, h⟩
    · rw [h]
      exact ⟨old, hold, hm, .inl rfl⟩
    · rw [h]
      obtain ⟨new, hnew⟩ := heffect.pipeline_present hold
      refine ⟨new, hnew, ?_⟩
      rcases heffect.pipeline_cases hnew with hkept | hrewritten
      · obtain rfl := Option.some.inj (hold.symm.trans hkept)
        exact ⟨hm, .inl rfl⟩
      · exact hrewritten.managed hold hm

theorem approval_lifecycle_mail :
    ∃ record review release new, (history "tenant" (revisionOf 0) (mailRelease [])).head.state.pipelines["mail"]? =
        some record ∧
      record.authoring.approval = some review ∧ record.authoring.release = some release ∧
      review.definitionHash = definitionHash record.definition ∧
      ((history "tenant" (revisionOf 0) (mailRelease [])).find release.revisionId).isSome = true ∧
      (history "tenant" (revisionOf 0) (mailDeploy [] :: mailRelease [])).head.state.pipelines["mail"]? = some new ∧
      PointerMoves "mail" (mailDeploy []).operation record new := by
  have h : ((history "tenant" (revisionOf 0) (mailRelease [])).head.state.pipelines["mail"]?.any fun record =>
      record.authoring.approval.isSome && record.authoring.release.isSome && record.authoring.enabled) = true := by
    decide +kernel
  obtain ⟨record, hrecord, h⟩ := (Option.any_eq_true _ _).mp h
  simp only [Bool.and_eq_true] at h
  obtain ⟨review, hreview⟩ := Option.isSome_iff_exists.mp h.1.1
  obtain ⟨release, hrelease⟩ := Option.isSome_iff_exists.mp h.1.2
  obtain ⟨happroved, hreleased, -, hmoves⟩ := approval_lifecycle "tenant" (revisionOf 0) (mailRelease [])
  obtain ⟨_, _, _, -, hfind, -⟩ := hreleased "mail" record release hrecord hrelease
  obtain ⟨new, hnew, -, hmoved⟩ := hmoves (mailDeploy []) "mail" record hrecord h.2
  exact ⟨record, review, release, new, hrecord, hreview, hrelease,
    (happroved "mail" record review hrecord hreview).1, by simp [hfind], hnew, hmoved⟩

end Galadril.Registry
