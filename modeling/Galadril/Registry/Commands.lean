import Galadril.Registry.Runs

namespace Galadril.Registry

open Json Lib.Checked Lib.Revisions Lib.Programs Identity Ontology Pipeline

structure Kept (before after : PipelineRecord) : Prop where
  pipelineId : after.pipelineId = before.pipelineId
  enabled : after.authoring.enabled = before.authoring.enabled
  deleted : after.deletedAtMs = before.deletedAtMs

structure KeptPins (before after : PipelineRecord) : Prop extends Kept before after where
  release : after.authoring.release = before.authoring.release
  published : after.publishedRevisionId = before.publishedRevisionId

/-- The content that only drafts, merges and bindings touch. -/
structure KeptContent (before after : PipelineRecord) : Prop extends Kept before after where
  definition : after.definition = before.definition
  approval : after.authoring.approval = before.authoring.approval

variable (tenantId : String) (s : Branchline) (input : PutPipeline) (now : Int) (revisionId : String)
  (bindings : Keyed OntologyBindingRecord) (record : PipelineRecord)

inductive Edit : AuthoringCommand → Workspace → Prop
  | revise {command : AuthoringCommand} {edited : PipelineRecord} (kept : KeptPins record edited)
      (cleared : edited.authoring.approval = none) : Edit command ⟨edited, bindings⟩
  | bind {blockId ontologyId : String} {time : Int} {edited : PipelineRecord} (kept : KeptPins record edited)
      (cleared : edited.authoring.approval = none) (hblock : validBranch blockId = true)
      (hpublished : (validatePublishedBinding tenantId s.head.state
        (explicitSelection time record.pipelineId blockId ontologyId)).query backend s = .ok ()) :
      Edit (.bindOntology blockId ontologyId) ⟨edited, bindings.insert (bindingKey record.pipelineId blockId)
        (explicitSelection time record.pipelineId blockId ontologyId)⟩
  | branch {command : AuthoringCommand} {edited : PipelineRecord} (kept : KeptPins record edited)
      (content : KeptContent record edited) : Edit command ⟨edited, bindings⟩
  | approve (valid : validateExecutable record.definition = .ok ()) :
      Edit .approve ⟨{ record with authoring := { record.authoring with
        approval := some ⟨definitionHash record.definition, input.author, now⟩ } }, bindings⟩
  | publish {review : ContentReview} (happroval : record.authoring.approval = some review)
      (hhash : review.definitionHash = definitionHash record.definition)
      (compiles : Accepts ((compileComposition input.pipelineId revisionId record.definition true).query backend s)) :
      Edit .publish ⟨{ record with authoring := { record.authoring with
        release := some ⟨revisionId, review.definitionHash, input.author, now⟩ } }, bindings⟩
  | deploy {release : PipelineRelease} (hrelease : record.authoring.release = some release)
      (admitted : (admitRelease tenantId input.pipelineId release).query backend s = .ok ()) :
      Edit .deploy ⟨{ record with publishedRevisionId := some release.revisionId }, bindings⟩

theorem draftNode_valid {key : String} {ids ids' : List String} {node : Value}
    (h : draftNode key ids node = .ok ids') : ∃ id, node.getStr key = some id ∧ validBranch id = true := by
  simp only [draftNode, bind_eq_ok, context_eq_ok, ensure_eq_ok, Bool.and_eq_true] at h
  obtain ⟨id, hid, _, ⟨⟨hvalid, -⟩, -⟩, -⟩ := h
  exact ⟨id, hid, hvalid⟩

theorem validateDraft_step {definition : Value} {u : Unit} (h : validateDraft definition = .ok u)
    {steps : List Value} (hsteps : definition.getArray "pipeline" = some steps) {step : Value} (hm : step ∈ steps) :
    ∃ id, step.getStr "step" = some id ∧ validBranch id = true := by
  simp only [validateDraft, bind_eq_ok, context_eq_ok, ensure_eq_ok] at h
  obtain ⟨object, hobject, -, -, -, -, sources, -, steps', hsteps', -, -, -, -, ids, -, ids', hfold, -⟩ := h
  obtain rfl : steps = steps' := by
    cases definition with
    | object members =>
        obtain rfl : members = object := by simpa [Value.asObject] using hobject
        exact Option.some.inj (hsteps.symm.trans hsteps')
    | _ => cases hobject
  obtain ⟨_, _, hnode⟩ := foldlM_eq_ok_mem hfold hm
  exact draftNode_valid hnode

/-- Marking a step keeps its identity. -/
theorem requireOntology_mem {blockId : String} {steps steps' : List Value}
    (h : requireOntology blockId steps = .ok steps') : ∃ step ∈ steps', step.getStr "step" = some blockId := by
  induction steps generalizing steps' with
  | nil => cases h
  | cons step rest ih =>
      unfold requireOntology at h
      split at h
      · next hstep =>
          simp only [bind_eq_ok, context_eq_ok, pure_eq_ok] at h
          obtain ⟨_, -, members, hmembers, rfl⟩ := h
          refine ⟨_, List.mem_cons_self, ?_⟩
          cases step with
          | object m =>
              obtain rfl : m = members := by simpa [Value.asObject] using hmembers
              simpa [Value.getStr, Value.get] using hstep
          | _ => cases hmembers
      · simp only [bind_eq_ok, pure_eq_ok] at h
        obtain ⟨rest', hrest, rfl⟩ := h
        obtain ⟨marked, hm, hid⟩ := ih hrest
        exact ⟨marked, List.mem_cons_of_mem _ hm, hid⟩

/-- A block can be bound only under an authored identity. -/
theorem requireOntologyOf_valid {blockId : String} {definition definition' : Value} {u : Unit}
    (h : requireOntologyOf blockId definition = .ok definition') (hdraft : validateDraft definition' = .ok u) :
    validBranch blockId = true := by
  simp only [requireOntologyOf, bind_eq_ok, context_eq_ok, pure_eq_ok] at h
  obtain ⟨steps, -, steps', hsteps, members, -, rfl⟩ := h
  obtain ⟨step, hm, hid⟩ := requireOntology_mem hsteps
  have hget : (Value.object (Members.insert "pipeline" (.array steps') members)).getArray "pipeline" = some steps' := by
    simp [Value.getArray, Value.get, Value.asArray]
  obtain ⟨id, hid', hvalid⟩ := validateDraft_step hdraft hget hm
  obtain rfl : blockId = id := Option.some.inj (hid.symm.trans hid')
  exact hvalid

section Commands

variable {clock : Nat → Int} {tenantId : String} {s : Branchline} {input : PutPipeline} {record : PipelineRecord}
  {edited : Workspace}

theorem query_keepBindings {state : TenantState} {p : Op PipelineRecord} :
    (keepBindings state p).query backend s = .ok edited ↔
      ∃ r, p.query backend s = .ok r ∧ edited = ⟨r, state.bindings⟩ := by
  simp only [keepBindings, Prog.query_bind, bind_eq_ok, Prog.query_pure, Except.ok.injEq]
  exact exists_congr fun r => and_congr_right fun _ => eq_comm

theorem applyCommand_edit {command : AuthoringCommand}
    (h : (applyCommand clock tenantId input s.head record command).query backend s = .ok edited) :
    Edit tenantId s input (clock 0) s.head.revisionId s.head.state.bindings record command edited := by
  cases command with
  | deleteBranch branch =>
      obtain ⟨r, hr, rfl⟩ := query_keepBindings.mp h
      simp [deleteBranch] at hr
      obtain ⟨-, -, -, -, rfl⟩ := hr
      exact .branch ⟨⟨rfl, rfl, rfl⟩, rfl, rfl⟩ ⟨⟨rfl, rfl, rfl⟩, rfl, rfl⟩
  | saveDraft branch =>
      obtain ⟨r, hr, rfl⟩ := query_keepBindings.mp h
      simp [saveDraft] at hr
      obtain ⟨-, -, hr⟩ := hr
      split at hr
      · obtain rfl := Except.ok.inj hr
        exact .revise ⟨⟨rfl, rfl, rfl⟩, rfl, rfl⟩ rfl
      · simp [saveBranchDraft] at hr
        obtain ⟨selected, -, rfl⟩ := hr
        exact .branch ⟨⟨rfl, rfl, rfl⟩, rfl, rfl⟩ ⟨⟨rfl, rfl, rfl⟩, rfl, rfl⟩
  | bindOntology blockId ontologyId =>
      simp [applyCommand, bindOntologyDraft] at h
      obtain ⟨-, ⟨_, hpublished⟩, definition, hmarked, ⟨_, hdraft⟩, rfl⟩ := h
      exact .bind ⟨⟨rfl, rfl, rfl⟩, rfl, rfl⟩ rfl (requireOntologyOf_valid hmarked hdraft) hpublished
  | createBranch branch fromBranch =>
      obtain ⟨r, hr, rfl⟩ := query_keepBindings.mp h
      simp [createBranch] at hr
      obtain ⟨-, -, _, _, _, -, rfl⟩ := hr
      exact .branch ⟨⟨rfl, rfl, rfl⟩, rfl, rfl⟩ ⟨⟨rfl, rfl, rfl⟩, rfl, rfl⟩
  | proposeMerge sourceBranch =>
      obtain ⟨r, hr, rfl⟩ := query_keepBindings.mp h
      simp [proposeMerge] at hr
      obtain ⟨_, -, -, rfl⟩ := hr
      exact .branch ⟨⟨rfl, rfl, rfl⟩, rfl, rfl⟩ ⟨⟨rfl, rfl, rfl⟩, rfl, rfl⟩
  | merge proposalId resolutions =>
      obtain ⟨r, hr, rfl⟩ := query_keepBindings.mp h
      simp [mergeProposal] at hr
      obtain ⟨_, -, _, -, -, preview, -, -, -, _, -, _, -, rfl⟩ := hr
      exact .revise ⟨⟨rfl, rfl, rfl⟩, rfl, rfl⟩ rfl
  | approve =>
      obtain ⟨r, hr, rfl⟩ := query_keepBindings.mp h
      simp [approve] at hr
      obtain ⟨⟨_, valid⟩, -, -, rfl⟩ := hr
      exact .approve valid
  | publish =>
      obtain ⟨r, hr, rfl⟩ := query_keepBindings.mp h
      simp [publish] at hr
      obtain ⟨review, happroval, hhash, compiles, rfl⟩ := hr
      exact .publish happroval hhash compiles
  | deploy =>
      obtain ⟨r, hr, rfl⟩ := query_keepBindings.mp h
      simp [deploy] at hr
      obtain ⟨release, hrelease, ⟨_, admitted⟩, rfl⟩ := hr
      exact .deploy hrelease admitted

end Commands

end Galadril.Registry
