import Galadril.Registry.Commands

namespace Galadril.Registry

open Json Lib.Checked Lib.Revisions Lib.Programs Identity Ontology Pipeline

variable {clock : Nat → Int} {tenantId genesis : String} {s : Branchline} {op : Operation} {state : TenantState}

def SelfKeyed (s : Branchline) : Prop :=
  ∀ (id : String) (record : PipelineRecord), s.head.state.pipelines[id]? = some record → record.pipelineId = id

theorem Edit.kept {input : PutPipeline} {now : Int} {revisionId : String} {bindings : Keyed OntologyBindingRecord}
    {record : PipelineRecord} {command : AuthoringCommand} {edited : Workspace}
    (h : Edit tenantId s input now revisionId bindings record command edited) : Kept record edited.record := by
  cases h with
  | revise kept cleared => exact kept.toKept
  | bind kept cleared hblock hpublished => exact kept.toKept
  | branch kept content => exact kept.toKept
  | approve valid => exact ⟨rfl, rfl, rfl⟩
  | publish happroval hhash compiles => exact ⟨rfl, rfl, rfl⟩
  | deploy hrelease admitted => exact ⟨rfl, rfl, rfl⟩

theorem managedRecord_pipelineId {input : PutPipeline} {now : Int} (hs : SelfKeyed s) :
    (managedRecord input now s.head.state.pipelines[input.pipelineId]?).pipelineId = input.pipelineId := by
  cases hold : s.head.state.pipelines[input.pipelineId]? with
  | none => rfl
  | some old => exact hs _ old hold

theorem Rewrites.pipelineId {id : String} {record : PipelineRecord} (h : Rewrites clock tenantId s id op record)
    (hs : SelfKeyed s) : record.pipelineId = id := by
  cases h with
  | put hid unmanaged creates => exact hid
  | @publish revisionId old hold live unmanaged runs => exact hs id old hold
  | @delete expected old hold => exact hs id old hold
  | author hid creates edits hedited =>
      subst hid
      exact (applyCommand_edit hedited).kept.pipelineId.trans (managedRecord_pipelineId hs)

theorem SelfKeyed.step {fresh : String} {hfresh : fresh ∉ s.ids} (hs : SelfKeyed s)
    (heffect : Effect clock tenantId s op state) : SelfKeyed (s.push fresh state hfresh) := by
  intro id record hrecord
  rcases heffect.pipeline_cases hrecord with hkept | hrewritten
  · exact hs id record hkept
  · exact hrewritten.pipelineId hs

theorem selfKeyed_init : SelfKeyed (Store.init genesis {}) := by
  intro id record h
  simp [Store.init] at h

theorem history_selfKeyed (calls : List Call) : SelfKeyed (history tenantId genesis calls) :=
  history_invariant selfKeyed_init (fun _ _ _ _ _ hs heffect _ _ => hs.step heffect) calls

def Servable (tenantId : String) (s : Branchline) : Prop :=
  ∀ (id : String) (record : PipelineRecord) r, s.head.state.pipelines[id]? = some record →
    record.publishedRevisionId = some r →
      record.deletedAtMs = none ∧ Accepts ((runtimePipeline tenantId id r).query backend s)

theorem admitRelease_runs {pipelineId : String} {release : PipelineRelease}
    (h : (admitRelease tenantId pipelineId release).query backend s = .ok ()) :
    Accepts ((runtimePipeline tenantId pipelineId release.revisionId).query backend s) := by
  simp [admitRelease] at h
  obtain ⟨_, -, -, -, record, hrecord⟩ := h
  exact ⟨record, hrecord⟩

/-- A command either keeps the pointer or deploys a release the runtime admits. -/
theorem Edit.pointer {input : PutPipeline} {now : Int} {revisionId r : String}
    {bindings : Keyed OntologyBindingRecord} {record : PipelineRecord} {command : AuthoringCommand} {edited : Workspace}
    (h : Edit tenantId s input now revisionId bindings record command edited)
    (hr : edited.record.publishedRevisionId = some r) :
    record.publishedRevisionId = some r ∨
      Accepts ((runtimePipeline tenantId input.pipelineId r).query backend s) := by
  cases h with
  | revise kept cleared => exact .inl (kept.published.symm.trans hr)
  | bind kept cleared hblock hpublished => exact .inl (kept.published.symm.trans hr)
  | branch kept content => exact .inl (kept.published.symm.trans hr)
  | approve valid => exact .inl hr
  | publish happroval hhash compiles => exact .inl hr
  | deploy hrelease admitted =>
      obtain rfl := Option.some.inj hr
      exact .inr (admitRelease_runs admitted)

theorem Rewrites.servable {id r : String} {record : PipelineRecord} (h : Rewrites clock tenantId s id op record)
    (hs : Servable tenantId s) (hr : record.publishedRevisionId = some r) :
    record.deletedAtMs = none ∧ Accepts ((runtimePipeline tenantId id r).query backend s) := by
  cases h with
  | put hid unmanaged creates =>
      cases hold : s.head.state.pipelines[id]? with
      | none => simp [replacedPipeline, hold] at hr
      | some old =>
          rw [hold] at hr
          exact ⟨rfl, (hs id old r hold hr).2⟩
  | publish hold live unmanaged runs =>
      obtain rfl := Option.some.inj hr
      exact ⟨live, runs⟩
  | delete hold => cases hr
  | @author input command edited hid creates edits hedited =>
      subst hid
      have hedit := applyCommand_edit hedited
      cases hold : s.head.state.pipelines[input.pipelineId]? with
      | none =>
          rw [hold] at hedit
          refine ⟨hedit.kept.deleted, ?_⟩
          rcases hedit.pointer hr with hprevious | hruns
          · cases hprevious
          · exact hruns
      | some old =>
          have live : old.deletedAtMs = none := by
            cases hc : input.createOnly with
            | false =>
                obtain ⟨old', hold', live⟩ := edits hc
                obtain rfl := Option.some.inj (hold.symm.trans hold')
                exact live
            | true => exact absurd (creates hc).1 (by simp [hold])
          rw [hold] at hedit
          refine ⟨hedit.kept.deleted.trans live, ?_⟩
          rcases hedit.pointer hr with hprevious | hruns
          · exact (hs _ _ _ hold hprevious).2
          · exact hruns

theorem runtimePipeline_mono {id r : String} {t : Branchline} (hst : s.Extends t)
    (h : Accepts ((runtimePipeline tenantId id r).query backend s)) :
    Accepts ((runtimePipeline tenantId id r).query backend t) := by
  obtain ⟨record, hrecord⟩ := h
  exact ⟨record, (pinned_runtimePipeline id r).query_mono hst hrecord⟩

theorem history_servable (calls : List Call) : Servable tenantId (history tenantId genesis calls) := by
  refine history_invariant ?_ ?_ calls
  · intro id record r h
    simp [Store.init] at h
  · intro s clock op state fresh hs heffect _ hfresh id record r hrecord hr
    have hruns : record.deletedAtMs = none ∧ Accepts ((runtimePipeline tenantId id r).query backend s) := by
      rcases heffect.pipeline_cases hrecord with hkept | hrewritten
      · exact hs id record r hkept hr
      · exact hrewritten.servable hs hr
    exact ⟨hruns.1, runtimePipeline_mono (s.extends_push _ _ _) hruns.2⟩

theorem query_mapM_accepts {α β : Type} {f : α → Op β} {xs : List α}
    (h : ∀ x ∈ xs, Accepts ((f x).query backend s)) : Accepts ((xs.mapM f).query backend s) := by
  induction xs with
  | nil => exact ⟨[], rfl⟩
  | cons x xs ih =>
      obtain ⟨y, hy⟩ := h x List.mem_cons_self
      obtain ⟨ys, hys⟩ := ih fun z hz => h z (List.mem_cons_of_mem _ hz)
      refine ⟨y :: ys, ?_⟩
      rw [List.mapM_cons]
      simp [hy, hys]

/-- In every reachable state each production pointer belongs to a pipeline that
is not deleted and is admitted by the runtime; listing the production pipelines
of a tenant therefore never fails because of one of them. -/
theorem published_pipelines_run (tenantId genesis : String) (calls : List Call) :
    (∀ (id : String) (record : PipelineRecord) r,
      (history tenantId genesis calls).head.state.pipelines[id]? = some record →
      record.publishedRevisionId = some r →
        record.deletedAtMs = none ∧
          Accepts ((runtimePipeline tenantId record.pipelineId r).query backend (history tenantId genesis calls))) ∧
    (validTenant tenantId = true → ∀ limit,
      Accepts ((listPublishedPipelines tenantId limit).query backend (history tenantId genesis calls))) := by
  have hkeyed : SelfKeyed (history tenantId genesis calls) := history_selfKeyed calls
  have hservable : Servable tenantId (history tenantId genesis calls) := history_servable calls
  generalize history tenantId genesis calls = s at hkeyed hservable ⊢
  have hruns : ∀ (id : String) (record : PipelineRecord) r, s.head.state.pipelines[id]? = some record →
      record.publishedRevisionId = some r → record.deletedAtMs = none ∧
        Accepts ((runtimePipeline tenantId record.pipelineId r).query backend s) := by
    intro id record r hrecord hr
    rw [hkeyed id record hrecord]
    exact hservable id record r hrecord hr
  refine ⟨hruns, fun ht limit => ?_⟩
  simp only [listPublishedPipelines, Prog.query_bind, accepts_bind, query_check, Prog.query_head, Except.ok.injEq,
    exists_eq_left']
  refine ⟨(), ht, query_mapM_accepts fun entry hentry => ?_⟩
  obtain ⟨record, hrecord, hpublished⟩ := List.mem_filterMap.mp (List.mem_of_mem_take hentry)
  obtain ⟨id, hid⟩ := Keyed.mem_values.mp hrecord
  obtain ⟨r, hr, rfl⟩ := Option.map_eq_some_iff.mp hpublished
  obtain ⟨served, hserved⟩ := (hruns id record r hid hr).2
  exact ⟨⟨r, served⟩, by simp [hserved]⟩

theorem published_pipelines_run_mail :
    ((history "tenant" (revisionOf 0) [callOf 2 (.publishPipeline "mail" (revisionOf 1)),
      callOf 1 (.putPipeline (mailInput [] none))]).head.state.pipelines["mail"]?.bind
        (·.publishedRevisionId)) = some (revisionOf 1) ∧
    validTenant "tenant" = true ∧
    Accepts ((listPublishedPipelines "tenant" 10).query backend
      (history "tenant" (revisionOf 0) [callOf 2 (.publishPipeline "mail" (revisionOf 1)),
        callOf 1 (.putPipeline (mailInput [] none))])) :=
  ⟨by decide +kernel, by decide +kernel, (published_pipelines_run _ _ _).2 (by decide +kernel) 10⟩

end Galadril.Registry
