import Galadril.Compilation.Artifacts

namespace Galadril.Compilation

open Lib Lib.Checked Lib.Sha256 Lib.Transitions

variable {s : System}

/-- When a cleanup pass deletes an artifact, the row it listed has not been
replaced, and no submission of the job has stored its object without having
reached the queue. Leases are never drawn twice. -/
def Undisturbed (s : System) : Action → Prop
  | .cleaned p => ∀ job kind rest, s.passes[p]? = some (.artifact job kind :: rest) →
      (∀ r, s.queue.find job.id = some r → r = job) ∧ ∀ item ∈ s.submissions, item.id ≠ job.id
  | .claimed _ lease => ∀ x ∈ s.executions, x.job.lease ≠ lease
  | _ => True

theorem Kept.tick (h : Kept s) (elapsed : Nat) : Kept { s with clock := s.clock + elapsed } := by
  refine ⟨h.submitted, h.active, h.published, fun id r hr hc hy => ?_, fun pass hp q hq => ?_⟩
  · refine h.completed id r hr hc ?_
    have hy : ((s.clock + elapsed : Nat) : Int) < r.createdAt + retention := hy
    exact lt_of_le_of_lt (by omega) hy
  · obtain ⟨ht, he⟩ := h.listed pass hp q hq
    exact ⟨ht, he.trans (by simp)⟩

theorem Kept.fewerSubmissions (h : Kept s) {submissions : List NewJob} (hsub : submissions ⊆ s.submissions) :
    Kept { s with submissions := submissions } :=
  ⟨fun item hi => h.submitted item (hsub hi), h.active, h.published, h.completed, h.listed⟩

/-- Executions that already were in this state, or did not publish yet. -/
theorem Kept.otherExecutions (h : Kept s) {executions : List Execution}
    (hx : ∀ x ∈ executions, x.stage = .published → x ∈ s.executions) : Kept { s with executions := executions } :=
  ⟨h.submitted, h.active, fun x hmem hs => h.published x (hx x hmem hs) hs, h.completed, h.listed⟩

theorem Kept.otherPasses (h : Kept s) {passes : List (List Removal)}
    (hp : ∀ pass ∈ passes, ∀ q ∈ pass, q.job.status.terminal = true ∧ q.job.createdAt + retention ≤ s.clock) :
    Kept { s with passes := passes } :=
  ⟨h.submitted, h.active, h.published, h.completed, hp⟩

theorem Kept.submit (h : Kept s) (r : Request) : Kept (advance s (.submitted r)) := by
  simp only [advance]
  split
  · exact h
  · next objects hput =>
      obtain ⟨hgrow, b, hb, hd⟩ := putNew_eq_ok hput
      have hg := h.grow hgrow
      refine ⟨fun item hi => ?_, hg.active, hg.published, hg.completed, hg.listed⟩
      rcases List.mem_cons.mp hi with rfl | hi
      · exact ⟨b, hb, hd⟩
      · exact hg.submitted item hi

theorem Kept.publish (h : Kept s) (i : Nat) (pdf : List UInt8) : Kept (advance s (.published i pdf)) := by
  simp only [advance]
  split
  · exact h
  · next x hx =>
      split
      · split
        · exact h
        · next objects hput =>
            obtain ⟨hgrow, b, hb, -⟩ := putNew_eq_ok hput
            have hg := h.grow hgrow
            refine ⟨hg.submitted, hg.active, fun y hy hs r hr hh => ?_, hg.completed, hg.listed⟩
            rcases List.mem_or_eq_of_mem_set hy with hy | rfl
            · exact hg.published y hy hs r hr hh
            · have hkey : r.tenant = x.job.tenant ∧ r.id = x.job.id := by
                simp only [held, Bool.and_eq_true, beq_iff_eq] at hh
                exact ⟨hh.1.1.2, hh.1.1.1⟩
              rw [hkey.1, hkey.2]
              exact Option.isSome_iff_exists.mpr ⟨b, hb⟩
      · exact h

theorem Kept.report (h : Kept s) (i : Nat) (succeeded : Bool) : Kept (advance s (.reported i succeeded)) := by
  simp only [advance]
  split
  · exact h
  · next x hx =>
      have hmem : x ∈ s.executions := List.mem_of_getElem? hx
      have hrest : ∀ y ∈ s.executions.eraseIdx i, y.stage = .published → y ∈ s.executions :=
        fun y hy _ => List.eraseIdx_subset hy
      split
      · next hok =>
          have hs : x.stage = .published := by simpa using (Bool.and_eq_true_iff.mp hok).2
          have ho : Owed s (.finish x.job .completed "") := fun _ r hr hh => h.published x hmem hs r hr hh
          exact (h.queue_step ho).otherExecutions hrest
      · have ho : Owed s (.finish x.job .failed "compilation_failed") := fun hc => by cases hc
        exact (h.queue_step ho).otherExecutions hrest

theorem Kept.list (h : Kept s) (lag : Nat) (jobs : List Job) : Kept (advance s (.listed lag jobs)) := by
  simp only [advance]
  split
  · next hjobs =>
      refine h.otherPasses fun pass hp q hq => ?_
      rcases List.mem_cons.mp hp with rfl | hp
      · obtain ⟨job, hjob, hq⟩ := List.mem_flatMap.mp hq
        have hqjob : q.job = job := by
          simp only [removals, List.mem_cons, List.not_mem_nil, or_false] at hq
          rcases hq with rfl | rfl | rfl | rfl | rfl <;> rfl
        have hexpired := (hjobs.2 job hjob).2
        rw [expiredRow, Bool.and_eq_true] at hexpired
        have hcutoff : job.createdAt ≤ max (-2 ^ 63) (((s.clock - lag : Nat) : Int) - retention) :=
          of_decide_eq_true hexpired.2
        rw [hqjob]
        refine ⟨hexpired.1, ?_⟩
        rw [retention] at hcutoff ⊢
        omega
      · exact h.listed pass hp q hq
  · exact h

theorem Kept.clean (h : Kept s) {p : Nat} (hu : Undisturbed s (.cleaned p)) : Kept (advance s (.cleaned p)) := by
  simp only [advance]
  split
  · next r rest hp =>
      have hpass := h.listed _ (List.mem_of_getElem? hp)
      have hrest : ∀ pass ∈ s.passes.set p rest, ∀ q ∈ pass,
          q.job.status.terminal = true ∧ q.job.createdAt + retention ≤ s.clock := by
        intro pass hmem q hq
        rcases List.mem_or_eq_of_mem_set hmem with hmem | rfl
        · exact h.listed pass hmem q hq
        · exact hpass q (List.mem_cons_of_mem _ hq)
      cases r with
      | artifact job kind =>
          obtain ⟨ht, he⟩ := hpass _ List.mem_cons_self
          obtain ⟨hrow, hsub⟩ := hu job kind rest hp
          exact (h.remove_artifact kind ht he hrow hsub).otherPasses hrest
      | row job => exact (h.queue_step (e := .forget job) trivial).otherPasses hrest
  · exact h

theorem Kept.advance (h : Kept s) {a : Action} (hu : Undisturbed s a) : Kept (advance s a) := by
  cases a with
  | tick elapsed => exact h.tick elapsed
  | submitted r => exact h.submit r
  | enqueued i lag =>
      simp only [Compilation.advance]
      split
      · exact h
      · next item hi =>
          have ho : Owed s (.enqueue item (s.now lag)) := h.submitted item (List.mem_of_getElem? hi)
          exact (h.queue_step ho).fewerSubmissions List.eraseIdx_subset
  | submissionLost i => exact h.fewerSubmissions List.eraseIdx_subset
  | claimed lag lease =>
      have ho : Owed s (.claim (s.now lag) lease) := hu
      refine (h.queue_step ho).otherExecutions fun x hx hs => ?_
      rcases List.mem_append.mp hx with hx | hx
      · simp only [Option.mem_toList, Option.map_eq_some_iff] at hx
        obtain ⟨job, -, rfl⟩ := hx
        cases hs
      · exact hx
  | verified i =>
      simp only [Compilation.advance]
      split
      · exact h
      · next x hx =>
          split
          · refine h.otherExecutions fun y hy hs => ?_
            rcases List.mem_or_eq_of_mem_set hy with hy | rfl
            · exact hy
            · cases hs
          · exact h
  | published i pdf => exact h.publish i pdf
  | reported i succeeded => exact h.report i succeeded
  | executionLost i => exact h.otherExecutions fun x hx _ => List.eraseIdx_subset hx
  | cancelled tenant id => exact h.queue_step (e := .cancel tenant id) trivial
  | listed lag jobs => exact h.list lag jobs
  | cleaned p => exact h.clean hu
  | passLost p => exact h.otherPasses fun pass hp => h.listed pass (List.eraseIdx_subset hp)

theorem kept_initial (clock : Nat) : Kept (System.initial clock) := by
  refine ⟨?_, ?_, ?_, ?_, ?_⟩ <;> simp [System.initial]

def reached (clock : Nat) (actions : List Action) : System := run advance (System.initial clock) actions

theorem reached_concat (clock : Nat) (actions : List Action) (a : Action) :
    reached clock (actions ++ [a]) = advance (reached clock actions) a :=
  run_append advance _ actions [a]

theorem putNew_other {objects objects' : Objects} {key : ArtifactKey} {data : List UInt8}
    (h : putNew objects key data = .ok objects') (k : ArtifactKey) : objects' k = objects k ∨ objects k = none := by
  cases hk : objects k with
  | none => exact .inr rfl
  | some b => exact .inl ((putNew_eq_ok h).1 k b hk)

theorem advance_objects (s : System) (a : Action) (k : ArtifactKey) :
    (advance s a).objects k = s.objects k ∨ s.objects k = none ∨ (advance s a).objects k = none := by
  cases a with
  | submitted r =>
      simp only [advance]
      split
      · exact .inl rfl
      · next h => exact (putNew_other h k).imp_right .inl
  | published i pdf =>
      simp only [advance]
      split
      · exact .inl rfl
      · split
        · split
          · exact .inl rfl
          · next h => exact (putNew_other h k).imp_right .inl
        · exact .inl rfl
  | cleaned p =>
      simp only [advance]
      split
      · next r rest hp =>
          cases r with
          | row job => exact .inl rfl
          | artifact job kind =>
              by_cases hk : k = ⟨job.tenant, job.id, kind⟩
              · subst hk
                exact .inr (.inr (Function.update_self ..))
              · exact .inl (Function.update_of_ne hk ..)
      · exact .inl rfl
  | enqueued i lag =>
      simp only [advance]
      split <;> exact .inl rfl
  | verified i =>
      simp only [advance]
      split
      · exact .inl rfl
      · split <;> exact .inl rfl
  | reported i succeeded =>
      simp only [advance]
      split <;> exact .inl rfl
  | listed lag jobs =>
      simp only [advance]
      split <;> exact .inl rfl
  | tick | submissionLost | claimed | executionLost | cancelled | passLost => exact .inl rfl

def WrittenOnce (clock : Nat) (actions : List Action) (key : ArtifactKey) (b : List UInt8) : Prop :=
  ∃ past a rest, actions = past ++ a :: rest ∧ (reached clock past).objects key = none ∧
    ∀ mid, mid <+: rest → (reached clock (past ++ a :: mid)).objects key = some b

theorem written_once {clock : Nat} {actions : List Action} {key : ArtifactKey} {b : List UInt8}
    (h : (reached clock actions).objects key = some b) : WrittenOnce clock actions key b := by
  induction actions using List.reverseRecOn with
  | nil => cases h
  | append_singleton actions a ih =>
      have hstep := advance_objects (reached clock actions) a key
      rw [← reached_concat] at hstep
      rcases hstep with hsame | hnone | hnone
      · obtain ⟨past, first, rest, rfl, hbefore, hrest⟩ := ih (hsame ▸ h)
        refine ⟨past, first, rest ++ [a], by simp, hbefore, fun mid hm => ?_⟩
        rcases List.prefix_concat_iff.mp hm with rfl | hm
        · simpa using h
        · exact hrest mid hm
      · refine ⟨actions, a, [], rfl, hnone, fun mid hm => ?_⟩
        rw [List.prefix_nil.mp hm]
        exact h
      · rw [hnone] at h
        cases h

/-- Unless a cleanup pass meets a submission of the same job or a row that took
its job's place, live jobs keep their submissions and fresh results their
PDFs. -/
theorem live_artifacts_kept (clock : Nat) (actions : List Action)
    (h : Along advance Undisturbed (System.initial clock) actions) :
    (∀ id r, (reached clock actions).queue.find id = some r → r.status.active = true →
      Stored (reached clock actions) ⟨r.tenant, r.id, .json⟩ r.fingerprint) ∧
    ∀ id r, (reached clock actions).queue.find id = some r → r.status = .completed → Young (reached clock actions) r →
      ∃ pdf, (reached clock actions).objects ⟨r.tenant, r.id, .pdf⟩ = some pdf ∧
        WrittenOnce clock actions ⟨r.tenant, r.id, .pdf⟩ pdf := by
  have hkept : Kept (reached clock actions) := run_invariant (fun _ _ hs ho => hs.advance ho) (kept_initial clock) h
  refine ⟨hkept.active, fun id r hr hc hy => ?_⟩
  obtain ⟨pdf, hpdf⟩ := Option.isSome_iff_exists.mp (hkept.completed id r hr hc hy)
  exact ⟨pdf, hpdf, written_once hpdf⟩

def sampleRequest : Request where
  tenant := "acme"
  actor := "ada"
  generation := "g1"
  idempotencyKey := "7f1f0d6e-3c1b-4f6c-9d53-0f5d6d1a2b3c"
  capability := "cap"
  templateId := "t"
  templateVersion := "v"
  submission := (Json.Value.object [
    ("grant", .object [("tenant", .string "acme"), ("actor", .string "ada"), ("generation", .string "g1"),
      ("project", .null), ("temporary_session", .null)]),
    ("template_id", .string "t"), ("version", .string "v"),
    ("document", .object [("variables", .object []), ("source", .null)])]).toVec

def sampleCompilation : List Action :=
  [.submitted sampleRequest, .enqueued 0 0, .claimed 0 "lease", .verified 0, .published 0 (pdfHeader ++ [49]),
    .reported 0 true]

def withdrawnRequest : Request := { sampleRequest with idempotencyKey := "0b9f4c52-6a0d-4d6e-8a8f-6f2f5f7f4a11" }

def sampleBeforeCleanup : List Action :=
  [.submitted withdrawnRequest, .enqueued 0 0, .cancelled "acme" (jobId withdrawnRequest), .tick 604800000] ++ sampleCompilation

def sampleCleanup : List Action :=
  sampleBeforeCleanup ++ .listed 0 ((reached 0 sampleBeforeCleanup).queue.rows.filter (expiredRow 604800000)) ::
    List.replicate 5 (.cleaned 0)

def undisturbed (s : System) (p : Nat) : Bool :=
  match s.passes[p]? with
  | some (.artifact job _ :: _) => (s.queue.find job.id).all (· = job) && s.submissions.all fun item => item.id ≠ job.id
  | _ => true

theorem undisturbed_iff {s : System} {p : Nat} : undisturbed s p = true ↔ Undisturbed s (.cleaned p) := by
  rw [undisturbed, Undisturbed]
  split
  · next job kind rest hpass =>
      simp only [hpass, Option.some.injEq, List.cons.injEq, Removal.artifact.injEq, Bool.and_eq_true, Option.all_eq_true,
        List.all_eq_true, decide_eq_true_eq]
      constructor
      · rintro h _ _ _ ⟨⟨rfl, rfl⟩, rfl⟩
        exact h
      · exact fun h => h job kind rest ⟨⟨rfl, rfl⟩, rfl⟩
  · next hother => exact iff_of_true rfl fun job kind rest hpass => absurd hpass (hother job kind rest)

instance (s : System) : (a : Action) → Decidable (Undisturbed s a)
  | .cleaned p => decidable_of_iff (undisturbed s p = true) undisturbed_iff
  | .claimed _ _ => inferInstanceAs (Decidable (∀ x ∈ s.executions, _))
  | .tick _ | .submitted _ | .enqueued _ _ | .submissionLost _ | .verified _ | .published _ _ | .reported _ _
  | .executionLost _ | .cancelled _ _ | .listed _ _ | .passLost _ => isTrue trivial

theorem live_artifacts_kept_compilation :
    ((reached 0 sampleCleanup).queue.rows.map fun r => (r.id, r.status)) = [(jobId sampleRequest, .completed)] ∧
    (reached 0 sampleCleanup).objects ⟨"acme", jobId withdrawnRequest, .json⟩ = none ∧
    ∀ id r, (reached 0 sampleCleanup).queue.find id = some r → r.status = .completed →
      Young (reached 0 sampleCleanup) r →
      ∃ pdf, (reached 0 sampleCleanup).objects ⟨r.tenant, r.id, .pdf⟩ = some pdf ∧
        WrittenOnce 0 sampleCleanup ⟨r.tenant, r.id, .pdf⟩ pdf := by
  have hrun : Along advance Undisturbed (System.initial 0) sampleCleanup ∧
      ((reached 0 sampleCleanup).queue.rows.map fun r => (r.id, r.status)) = [(jobId sampleRequest, .completed)] ∧
      (reached 0 sampleCleanup).objects ⟨"acme", jobId withdrawnRequest, .json⟩ = none := by
    decide +kernel
  exact ⟨hrun.2.1, hrun.2.2, (live_artifacts_kept 0 sampleCleanup hrun.1).2⟩

def sampleExpired : List Action :=
  [.submitted sampleRequest, .enqueued 0 0, .cancelled "acme" (jobId sampleRequest), .tick 604800000]

def sampleResubmission : List Action :=
  sampleExpired ++ [.listed 0 (reached 0 sampleExpired).queue.rows, .submitted sampleRequest,
    .cleaned 0, .cleaned 0, .cleaned 0, .cleaned 0, .cleaned 0, .enqueued 0 0]

theorem resubmission_lost :
    (reached 0 sampleResubmission).queue.rows.map Job.status = [.queued] ∧
    (reached 0 sampleResubmission).objects ⟨"acme", jobId sampleRequest, .json⟩ = none ∧
    ¬ ∀ id r, (reached 0 sampleResubmission).queue.find id = some r → r.status.active = true →
      Stored (reached 0 sampleResubmission) ⟨r.tenant, r.id, .json⟩ r.fingerprint := by
  have hgone : (reached 0 sampleResubmission).objects ⟨"acme", jobId sampleRequest, .json⟩ = none := by decide +kernel
  refine ⟨by decide +kernel, hgone, fun h => ?_⟩
  have hrow : ((reached 0 sampleResubmission).queue.find (jobId sampleRequest)).map
      (fun r => (r.tenant, r.id, r.status)) = some ("acme", jobId sampleRequest, .queued) := by decide +kernel
  obtain ⟨r, hr, hfields⟩ := Option.map_eq_some_iff.mp hrow
  simp only [Prod.mk.injEq] at hfields
  obtain ⟨htenant, hid, hstatus⟩ := hfields
  obtain ⟨b, hb, -⟩ := h _ r hr (by simp [hstatus, Status.active])
  rw [htenant, hid, hgone] at hb
  cases hb

end Galadril.Compilation
