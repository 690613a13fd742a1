import Galadril.Registry.Approvals

namespace Galadril.Registry

open Json Lib.Checked Lib.Revisions Lib.Programs Lib.Replays Identity Ontology Pipeline

variable {clock : Nat → Int} {tenantId genesis : String} {s : Branchline} {op : Operation} {state : TenantState}

def SparesDeleted (s : Branchline) : Operation → Prop
  | .putPipeline input => input.createOnly = true ∨
      (s.head.state.pipelines[input.pipelineId]?.all fun record =>
        record.deletedAtMs.isNone || record.authoring.enabled) = true
  | _ => True

instance (s : Branchline) : (op : Operation) → Decidable (SparesDeleted s op)
  | .putPipeline _ => inferInstanceAs (Decidable (_ ∨ _))
  | .putBinding _ _ | .publishPipeline _ _ | .deletePipeline _ _ | .putOntology _ | .publishOntology _
  | .retireOntology _ _ _ | .mergeOntology _ | .authorPipeline _ _ | .authorOntology _ _ => isTrue trivial

def Gone (tenantId id : String) (s : Branchline) : Prop :=
  ¬ Accepts ((currentPipeline tenantId id).query backend s) ∧
    (∀ limit views, (listPipelines tenantId limit).query backend s = .ok views →
      ∀ view ∈ views, view.record.pipelineId ≠ id) ∧
    ∀ record : PipelineRecord, s.head.state.pipelines[id]? = some record → record.publishedRevisionId = none

theorem gone_of_deleted (hkeyed : SelfKeyed s) (hservable : Servable tenantId s) {id : String}
    {record : PipelineRecord} (hrecord : s.head.state.pipelines[id]? = some record)
    (hdeleted : record.deletedAtMs.isSome = true) : Gone tenantId id s := by
  have hnone : record.deletedAtMs ≠ none := by
    intro h
    simp [h] at hdeleted
  refine ⟨?_, fun limit views hviews view hview hid => ?_, fun record' hrecord' => ?_⟩
  · rintro ⟨view, hview⟩
    simp only [currentPipeline, Prog.query_bind, bind_eq_ok, Prog.query_head, query_require, liveAt_eq_some,
      Except.ok.injEq] at hview
    obtain ⟨_, -, _, rfl, found, ⟨hfound, hlive⟩, -⟩ := hview
    obtain rfl := Option.some.inj (hrecord.symm.trans hfound)
    exact hnone hlive
  · simp only [listPipelines, Prog.query_bind, bind_eq_ok, Prog.query_head, Prog.query_pure, Except.ok.injEq] at hviews
    obtain ⟨_, -, _, rfl, rfl⟩ := hviews
    obtain ⟨found, hfound, rfl⟩ := List.mem_map.mp hview
    obtain ⟨hvalue, hlive⟩ := List.mem_filter.mp (List.mem_of_mem_take hfound)
    obtain ⟨key, hkey⟩ := Keyed.mem_values.mp hvalue
    obtain rfl : key = id := (hkeyed key found hkey).symm.trans hid
    obtain rfl := Option.some.inj (hrecord.symm.trans hkey)
    exact hnone (by simpa using hlive)
  · obtain rfl := Option.some.inj (hrecord.symm.trans hrecord')
    cases hpublished : record.publishedRevisionId with
    | none => rfl
    | some r => exact absurd (hservable id record r hrecord hpublished).1 hnone

/-- Any operation but such an update leaves a deleted record deleted. -/
theorem Effect.keeps_deleted (h : Effect clock tenantId s op state) (hspares : SparesDeleted s op) {id : String}
    {old new : PipelineRecord} (hold : s.head.state.pipelines[id]? = some old)
    (hdeleted : old.deletedAtMs.isSome = true) (hnew : state.pipelines[id]? = some new) :
    new.deletedAtMs.isSome = true := by
  rcases h.pipeline_cases hnew with hkept | hrewritten
  · obtain rfl := Option.some.inj (hold.symm.trans hkept)
    exact hdeleted
  · cases hrewritten with
    | put hid unmanaged creates =>
        subst hid
        rcases hspares with hcreates | hlive
        · simp [hold, hcreates] at creates
        · simp only [hold, Option.all_some, unmanaged old hold, Bool.or_false, Option.isNone_iff_eq_none] at hlive
          simp [hlive] at hdeleted
    | publish hold' live unmanaged runs =>
        obtain rfl := Option.some.inj (hold.symm.trans hold')
        simp [live] at hdeleted
    | delete hold' => rfl
    | @author input command edited hid creates edits hedited =>
        cases hc : input.createOnly with
        | true => simp [(creates hc).1] at hold
        | false =>
            obtain ⟨old', hold', live⟩ := edits hc
            obtain rfl := Option.some.inj (hold.symm.trans hold')
            simp [live] at hdeleted

theorem history_keeps_deleted {calls later : List Call} {id : String} {record : PipelineRecord}
    (hrecord : (history tenantId genesis calls).head.state.pipelines[id]? = some record)
    (hdeleted : record.deletedAtMs.isSome = true)
    (h : EachStep (fun earlier call => call.Moves tenantId genesis (earlier ++ calls) →
      SparesDeleted (history tenantId genesis (earlier ++ calls)) call.operation) later) :
    ∃ kept, (history tenantId genesis (later ++ calls)).head.state.pipelines[id]? = some kept ∧
      kept.deletedAtMs.isSome = true := by
  induction later with
  | nil => exact ⟨record, hrecord, hdeleted⟩
  | cons call earlier ih =>
      obtain ⟨hspares, hearlier⟩ := h
      obtain ⟨old, hold, hdeleted'⟩ := ih hearlier
      rcases history_cons call (earlier ++ calls) with hsame | ⟨-, state, heffect, hfresh, hpush⟩
      · rw [List.cons_append, hsame]
        exact ⟨old, hold, hdeleted'⟩
      · rw [List.cons_append, hpush]
        obtain ⟨new, hnew⟩ := heffect.pipeline_present hold
        exact ⟨new, hnew, heffect.keeps_deleted (hspares (moves_of_push hpush)) hold hdeleted' hnew⟩

/-- Once deleted, a pipeline stays out of reach in every run whose committed legacy
updates address no deleted pipeline. -/
theorem deletion_final (tenantId genesis : String) (calls later : List Call) (id : String) (record : PipelineRecord)
    (hrecord : (history tenantId genesis calls).head.state.pipelines[id]? = some record)
    (hdeleted : record.deletedAtMs.isSome = true)
    (h : EachStep (fun earlier call => call.Moves tenantId genesis (earlier ++ calls) →
      SparesDeleted (history tenantId genesis (earlier ++ calls)) call.operation) later) :
    Gone tenantId id (history tenantId genesis (later ++ calls)) := by
  obtain ⟨kept, hkept, hstill⟩ := history_keeps_deleted hrecord hdeleted h
  exact gone_of_deleted (history_selfKeyed _) (history_servable _) hkept hstill

def mailDeleted : List Call :=
  [callOf 2 (.deletePipeline "mail" (revisionOf 1)), callOf 1 (.putPipeline (mailInput [] none))]

theorem deletion_final_mail :
    ((history "tenant" (revisionOf 0) mailDeleted).head.state.pipelines["mail"]?.any fun record =>
      record.deletedAtMs.isSome) = true ∧
    Gone "tenant" "mail" (history "tenant" (revisionOf 0)
      ([callOf 3 (.authorPipeline (mailInput [] (some (revisionOf 2))) (.saveDraft "main"))] ++ mailDeleted)) := by
  have hdeleted : ((history "tenant" (revisionOf 0) mailDeleted).head.state.pipelines["mail"]?.any fun record =>
      record.deletedAtMs.isSome) = true := by
    decide +kernel
  obtain ⟨record, hrecord, hsome⟩ := (Option.any_eq_true _ _).mp hdeleted
  exact ⟨hdeleted, deletion_final _ _ _ _ _ record hrecord hsome ⟨fun _ => trivial, trivial⟩⟩

/-- A legacy update takes the deleted pipeline back into the current reads. -/
theorem deletion_undone :
    ((history "tenant" (revisionOf 0) mailDeleted).head.state.pipelines["mail"]?.any fun record =>
      record.deletedAtMs.isSome) = true ∧
    ¬ Gone "tenant" "mail" (history "tenant" (revisionOf 0)
      ([callOf 3 (.putPipeline (mailInput [] (some (revisionOf 2))))] ++ mailDeleted)) := by
  refine ⟨by decide +kernel, fun hgone => ?_⟩
  have haccepts : Accepts ((currentPipeline "tenant" "mail").query backend (history "tenant" (revisionOf 0)
      ([callOf 3 (.putPipeline (mailInput [] (some (revisionOf 2))))] ++ mailDeleted))) := by
    decide +kernel
  exact hgone.1 haccepts

end Galadril.Registry
