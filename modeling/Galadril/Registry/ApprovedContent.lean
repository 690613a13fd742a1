import Galadril.Registry.Approvals
import Galadril.Registry.Bindings

namespace Galadril.Registry

open Json Lib.Checked Lib.Revisions Lib.Programs Lib.Replays Identity Ontology Pipeline

variable {clock : Nat → Int} {tenantId genesis : String} {s : Branchline} {op : Operation} {state : TenantState}

/-- What a pipeline executes: its main definition against its bindings. -/
abbrev Content := Value × List OntologyBindingRecord

def contentOf (state : TenantState) (id : String) (record : PipelineRecord) : Content :=
  (record.definition, bindingRecordsFor state id)

def Operation.approves (id : String) : Operation → Bool
  | .authorPipeline input .approve => input.pipelineId == id
  | _ => false

def approvedContent (tenantId genesis id : String) : List Call → Option Content
  | [] => none
  | call :: earlier =>
      let after := history tenantId genesis (call :: earlier)
      if call.operation.approves id ∧ after.head.revisionId ≠ (history tenantId genesis earlier).head.revisionId then
        after.head.state.pipelines[id]?.map (contentOf after.head.state id)
      else approvedContent tenantId genesis id earlier

def ApprovalsCover (tenantId genesis : String) (calls : List Call) : Prop :=
  ∀ (id : String) (record : PipelineRecord),
    (history tenantId genesis calls).head.state.pipelines[id]? = some record →
    record.authoring.enabled = true → record.authoring.approval.isSome = true →
      approvedContent tenantId genesis id calls =
        some (contentOf (history tenantId genesis calls).head.state id record)

def SparesApprovals (s : Branchline) : Operation → Prop
  | .putBinding _ binding =>
      (s.head.state.pipelines[binding.pipelineId]?.all fun record => record.authoring.approval.isNone) = true ∨
        s.head.state.bindings[bindingKey binding.pipelineId binding.blockId]? = some binding
  | _ => True

instance (s : Branchline) : (op : Operation) → Decidable (SparesApprovals s op)
  | .putBinding _ _ => inferInstanceAs (Decidable (_ ∨ _))
  | .putPipeline _ | .publishPipeline _ _ | .deletePipeline _ _ | .putOntology _ | .publishOntology _
  | .retireOntology _ _ _ | .mergeOntology _ | .authorPipeline _ _ | .authorOntology _ _ => isTrue trivial

/-- Nothing but a put binding changes the bindings under an approval. -/
theorem Effect.bindingRecordsFor_kept (h : Effect clock tenantId s op state) (hspares : SparesApprovals s op)
    (hkeyed : SelfKeyed s) (hbindings : BindingsKeyed s) {id : String} {old new : PipelineRecord}
    (hold : s.head.state.pipelines[id]? = some old) (hnew : state.pipelines[id]? = some new)
    (hbefore : old.authoring.approval.isSome = true) (hafter : new.authoring.approval.isSome = true) :
    bindingRecordsFor state id = bindingRecordsFor s.head.state id := by
  rcases h.bindings_cases with hkept | ⟨b, hb, hinsert, hclears⟩
  · rw [bindingRecordsFor, hkept, bindingRecordsFor]
  · by_cases hid : b.pipelineId = id
    · subst hid
      cases hb with
      | put hpipelineId hblock hpipeline hpublished =>
          rcases hspares with hnone | hstored
          · rw [hold, Option.all_some, Option.isNone_iff_eq_none] at hnone
            simp [hnone] at hbefore
          · have hsame : state.bindings = s.head.state.bindings := by
              rw [hinsert]
              refine Std.ExtTreeMap.ext_getElem? fun key => ?_
              rw [Keyed.getElem?_insert]
              split
              · next hk => rw [← hk, hstored]
              · rfl
            rw [bindingRecordsFor, hsame, bindingRecordsFor]
      | author hpipelineId hblock hrecord hpublished =>
          obtain ⟨record, hrecord', hcleared⟩ := hclears _ _ rfl
          subst hrecord
          change state.pipelines[(managedRecord _ _ _).pipelineId]? = _ at hnew
          rw [managedRecord_pipelineId hkeyed] at hnew
          obtain rfl := Option.some.inj (hnew.symm.trans hrecord')
          simp [hcleared] at hafter
    · obtain ⟨hvalid, hblock⟩ := hb.valid hkeyed
      exact bindingRecordsFor_insert (fun key old hold => (hbindings key old hold).1) hvalid hblock hid hinsert

/-- One operation either records an approval or keeps the content that an
existing approval covers. -/
theorem Effect.content_cases (h : Effect clock tenantId s op state) (hspares : SparesApprovals s op)
    (hkeyed : SelfKeyed s) (hbindings : BindingsKeyed s) {id : String} {record : PipelineRecord}
    (hrecord : state.pipelines[id]? = some record) (happroval : record.authoring.approval.isSome = true) :
    op.approves id = true ∨
      ∃ old, s.head.state.pipelines[id]? = some old ∧ old.authoring.approval.isSome = true ∧
        contentOf state id record = contentOf s.head.state id old := by
  obtain ⟨review, hreview⟩ := Option.isSome_iff_exists.mp happroval
  have hcases : op.approves id = true ∨ ∃ old, s.head.state.pipelines[id]? = some old ∧
      old.authoring.approval = some review ∧ record.definition = old.definition := by
    rcases h.pipeline_cases hrecord with hkept | hrewritten
    · exact .inr ⟨record, hkept, hreview, rfl⟩
    · rcases hrewritten.approval_cases hreview with hold | ⟨input, rfl, hid, -⟩
      · exact .inr hold
      · exact .inl (by simp [Operation.approves, hid])
  rcases hcases with hop | ⟨old, hold, hreview', hdefinition⟩
  · exact .inl hop
  · refine .inr ⟨old, hold, by simp [hreview'], ?_⟩
    rw [contentOf, contentOf, hdefinition,
      h.bindingRecordsFor_kept hspares hkeyed hbindings hold hrecord (by simp [hreview']) happroval]

/-- In every run whose committed put bindings spare approved pipelines, each
approval covers the content its pipeline executes. -/
theorem approvals_cover (tenantId genesis : String) (calls : List Call)
    (h : EachStep (fun earlier call => call.Moves tenantId genesis earlier →
      SparesApprovals (history tenantId genesis earlier) call.operation) calls) :
    ApprovalsCover tenantId genesis calls := by
  rintro id record hrecord - happroval
  induction calls generalizing record with
  | nil => simp [history, Store.init] at hrecord
  | cons call earlier ih =>
      obtain ⟨hspares, hearlier⟩ := h
      have ih' := ih hearlier
      rcases history_cons call earlier with hsame | ⟨-, state, heffect, hfresh, hpush⟩
      · rw [approvedContent, hsame]
        rw [hsame] at hrecord
        simpa using ih' record hrecord happroval
      · have hstate : (history tenantId genesis (call :: earlier)).head.state = state := by rw [hpush]; rfl
        have hmoved := moves_of_push hpush
        rw [approvedContent]
        by_cases hop : call.operation.approves id = true
        · rw [if_pos ⟨hop, hmoved⟩, hrecord]
          rfl
        · rw [if_neg fun hc => hop hc.1]
          rw [hstate] at hrecord ⊢
          rcases heffect.content_cases (hspares hmoved) (history_selfKeyed earlier) (history_bindingsKeyed earlier) hrecord
            happroval with happroves | ⟨old, hold, hbefore, hcontent⟩
          · exact absurd happroves hop
          · rw [hcontent]
            exact ih' old hold hbefore

def reboundCalls : List Call :=
  [callOf 5 (.putBinding (revisionOf 4) (bookBinding ["person"] true)),
    callOf 4 (.authorPipeline (mailInput [] (some (revisionOf 3))) .approve),
    callOf 3 (.authorPipeline (mailInput [] none) (.saveDraft "main"))] ++ bookCalls

theorem approvals_cover_unless_rebound : ¬ ApprovalsCover "tenant" (revisionOf 0) reboundCalls := by
  intro h
  have hrun : ((history "tenant" (revisionOf 0) reboundCalls).head.state.pipelines["mail"]?.any fun record =>
        record.authoring.enabled && record.authoring.approval.isSome) = true ∧
      (approvedContent "tenant" (revisionOf 0) "mail" reboundCalls).map (fun content => content.2.length) = some 0 ∧
      (bindingRecordsFor (history "tenant" (revisionOf 0) reboundCalls).head.state "mail").length = 1 := by
    decide +kernel
  obtain ⟨hrecord, hthen, hnow⟩ := hrun
  obtain ⟨record, hrecord, happroved⟩ := (Option.any_eq_true _ _).mp hrecord
  simp only [Bool.and_eq_true] at happroved
  have hcontent := congrArg (Option.map fun content => content.2.length)
    (h "mail" record hrecord happroved.1 happroved.2)
  rw [hthen] at hcontent
  simp [contentOf, hnow] at hcontent

def boundCalls : List Call :=
  [callOf 5 (.authorPipeline (mailInput [] (some (revisionOf 4))) .approve),
    callOf 4 (.putBinding (revisionOf 3) (bookBinding ["person"] true)),
    callOf 3 (.authorPipeline (mailInput [] none) (.saveDraft "main"))] ++ bookCalls

theorem approvals_cover_bound :
    ((history "tenant" (revisionOf 0) boundCalls).head.state.pipelines["mail"]?.any fun record =>
      record.authoring.approval.isSome) = true ∧ ApprovalsCover "tenant" (revisionOf 0) boundCalls := by
  have hrun : ((history "tenant" (revisionOf 0) boundCalls).head.state.pipelines["mail"]?.any fun record =>
        record.authoring.approval.isSome) = true ∧
      EachStep (fun earlier call =>
        SparesApprovals (history "tenant" (revisionOf 0) earlier) call.operation) boundCalls := by
    decide +kernel
  exact ⟨hrun.1, approvals_cover _ _ _ (hrun.2.of _)⟩

end Galadril.Registry
