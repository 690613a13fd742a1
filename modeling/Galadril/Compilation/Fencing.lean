import Galadril.Compilation.Queue
import Galadril.Lib.Transitions

namespace Galadril.Compilation

open Lib Lib.Checked Lib.Transitions

variable {q : Queue} {id : String} {r : Job}

theorem step_final (e : Event) (hr : q.find id = some r) (ht : r.status.terminal = true) :
    (step q e).find id = some r ∨ (step q e).find id = none := by
  have hchange := @step_change q e id
  rw [hr] at hchange
  generalize (step q e).find id = new at hchange ⊢
  cases hchange with
  | kept => exact .inl rfl
  | claimed now lease _ he | exhausted now lease _ he =>
      cases hs : r.status <;> simp_all [eligible, Status.terminal, Status.active]
  | finished job status failure _ hh => simp_all [held, Status.terminal, Status.active]
  | cancelled tenant _ _ ha => simp_all [Status.terminal]
  | forgotten => exact .inr rfl

/-- A job that ended stays as it is for as long as its row exists. -/
theorem run_final {later : List Event} (hr : q.find id = some r) (ht : r.status.terminal = true)
    (hexists : ∀ mid, mid <+: later → (run step q mid).find id ≠ none) : (run step q later).find id = some r := by
  induction later generalizing q with
  | nil => exact hr
  | cons e later ih =>
      have hrow : (step q e).find id = some r := by
        refine (step_final e hr ht).resolve_right ?_
        exact hexists [e] (List.prefix_cons_inj e |>.mpr (List.nil_prefix))
      exact ih hrow fun mid hm => hexists (e :: mid) ((List.prefix_cons_inj e).mpr hm)

theorem step_attempts (e : Event) (h : ∀ id r, q.find id = some r → r.attempts ≤ 3) :
    ∀ id r, (step q e).find id = some r → r.attempts ≤ 3 := by
  intro id r hr
  have hchange := @step_change q e id
  rw [hr] at hchange
  generalize hold : q.find id = old at hchange
  cases hchange with
  | kept => exact h id r hold
  | enqueued => exact Nat.zero_le 3
  | claimed now lease s _ ha => exact ha
  | exhausted now lease s => exact h id s hold
  | finished job status failure s => exact h id s hold
  | cancelled tenant s => exact h id s hold

def activeIn (tag : String → Bool) (r : Job) : Bool := tag r.tenant && r.status.active

theorem count_active : q.count (·.status.active) = q.count (activeIn fun _ => true) := rfl

theorem count_ofTenant (tenant : String) : q.count (ofTenant tenant) = q.count (activeIn (· == tenant)) := rfl

theorem claim_count_le (tag : String → Bool) (now : Int) (lease : String) :
    (claim q now lease).2.count (activeIn tag) ≤ q.count (activeIn tag) := by
  cases hc : candidate q now with
  | none => simp [claim, hc]
  | some c =>
      have hactive : c.status.active = true := by
        have he := (candidate_mem hc).2
        cases hs : c.status <;> simp_all [eligible, Status.active]
      simp only [claim, hc]
      split
      · refine Table.count_update_le exhausted_id fun r _ _ hq => ?_
        simp [activeIn, exhausted, Status.active] at hq
      · split
        · exact Nat.le_refl _
        · refine Table.count_update_le (leased_id c.attempts now lease) fun r _ hp hq => ?_
          simp only [selected, Bool.and_eq_true, beq_iff_eq] at hp
          simp only [activeIn, leased, Bool.and_eq_true] at hq ⊢
          exact ⟨hq.1, hp.2 ▸ hactive⟩

/-- Only a new job makes more rows active. -/
theorem step_count (tag : String → Bool) (e : Event) :
    (step q e).count (activeIn tag) ≤ q.count (activeIn tag) ∨
      ∃ tenant, q.count (·.status.active) < 256 ∧ q.count (ofTenant tenant) < 32 ∧
        (step q e).count (activeIn tag) = q.count (activeIn tag) + if tag tenant then 1 else 0 := by
  cases e with
  | enqueue item now =>
      simp only [step]
      split
      · next job q' h =>
          rcases enqueue_eq_ok h with ⟨_, rfl⟩ | ⟨hnone, hall, htenant, _, rfl⟩
          · exact .inl (Nat.le_refl _)
          · refine .inr ⟨item.tenant, hall, htenant, ?_⟩
            rw [Table.count_insert hnone]
            simp [activeIn, queuedRow, Status.active]
      · exact .inl (Nat.le_refl _)
  | claim now lease => exact .inl (claim_count_le tag now lease)
  | finish job status failure =>
      simp only [step]
      split
      · next b q' h =>
          obtain ⟨hs, -, rfl⟩ := finish_eq_ok h
          refine .inl (Table.count_update_le (ended_id status failure) fun r _ _ hq => ?_)
          simp only [Status.terminal, Bool.not_eq_true'] at hs
          simp [activeIn, ended, hs] at hq
      · exact .inl (Nat.le_refl _)
  | cancel tenant id =>
      refine .inl (Table.count_update_le withdrawn_id fun r _ _ hq => ?_)
      simp [activeIn, withdrawn, Status.active] at hq
  | expired now => exact .inl (Nat.le_refl _)
  | forget job => exact .inl (Table.count_delete_le _ _ _)

structure Bounded (q : Queue) : Prop where
  total : q.count (·.status.active) ≤ 256
  tenant : ∀ tenant, q.count (ofTenant tenant) ≤ 32
  attempts : ∀ id r, q.find id = some r → r.attempts ≤ 3

theorem Bounded.step (h : Bounded q) (e : Event) : Bounded (step q e) := by
  refine ⟨?_, fun tenant => ?_, step_attempts e h.attempts⟩
  · rcases step_count (fun _ => true) e with hle | ⟨tenant, hall, _, heq⟩
    · exact Nat.le_trans hle h.total
    · rw [count_active, heq]
      exact hall
  · rcases step_count (· == tenant) e with hle | ⟨other, _, htenant, heq⟩
    · exact Nat.le_trans hle (h.tenant tenant)
    · rw [count_ofTenant, heq]
      by_cases ht : other = tenant
      · subst ht
        simpa [← count_ofTenant] using htenant
      · simpa [ht, ← count_ofTenant] using h.tenant tenant

theorem bounded_run (events : List Event) : Bounded (run step Table.empty events) :=
  run_invariant_always (fun _ e h => h.step e) ⟨by simp [Table.count, Table.empty], by simp [Table.count, Table.empty],
    fun id r hr => by simp at hr⟩ events

/-- The queue after the calls of all controllers, in the order in which they
took effect. -/
def after (events : List Event) : Queue := run step Table.empty events

theorem after_append (events later : List Event) : after (events ++ later) = run step (after events) later :=
  run_append step _ events later

theorem after_concat (events : List Event) (e : Event) : after (events ++ [e]) = step (after events) e :=
  after_append events [e]

def ClaimedSince (before : List Event) (r : Job) : Prop :=
  ∃ past now rest, before = past ++ .claim now r.lease :: rest ∧ (claim (after past) now r.lease).1 = some r ∧
    ∀ mid, mid <+: rest → (after (past ++ .claim now r.lease :: mid)).find r.id = some r

theorem ClaimedSince.concat {before : List Event} {r : Job} (h : ClaimedSince before r) {e : Event}
    (hr : (after (before ++ [e])).find r.id = some r) : ClaimedSince (before ++ [e]) r := by
  obtain ⟨past, now, rest, rfl, hclaim, hrest⟩ := h
  refine ⟨past, now, rest ++ [e], by simp, hclaim, fun mid hm => ?_⟩
  rcases List.prefix_concat_iff.mp hm with rfl | hm
  · simpa using hr
  · exact hrest mid hm

theorem running_claimed (before : List Event) {r : Job} (hr : (after before).find r.id = some r)
    (hs : r.status = .running) : ClaimedSince before r := by
  induction before using List.reverseRecOn generalizing r with
  | nil => simp [after] at hr
  | append_singleton before e ih =>
      have hchange := @step_change (after before) e r.id
      rw [← after_concat, hr] at hchange
      generalize hold : (after before).find r.id = old at hchange
      cases hchange with
      | kept => exact (ih hold hs).concat hr
      | enqueued => simp [queuedRow] at hs
      | claimed now lease s _ _ hc =>
          refine ⟨before, now, [], rfl, hc, fun mid hm => ?_⟩
          rw [List.prefix_nil.mp hm]
          exact hr
      | exhausted => simp [exhausted] at hs
      | finished job status failure s _ ht => simp_all [ended, Status.terminal, Status.active]
      | cancelled => simp [withdrawn] at hs

def finishes (q : Queue) (job : Job) (status : Status) (failure : String) : Prop :=
  ∃ q', finish q job status failure = .ok (true, q')

theorem finishes_held {q : Queue} {job : Job} {status : Status} {failure : String} (h : finishes q job status failure) :
    ∃ r, q.find job.id = some r ∧ r.tenant = job.tenant ∧ r.lease = job.lease ∧ r.status = .running ∧
      (step q (.finish job status failure)).find job.id = some (ended status failure r) ∧ status.terminal = true := by
  obtain ⟨q', h⟩ := h
  obtain ⟨hs, hcount, rfl⟩ := finish_eq_ok h
  obtain ⟨r, hr, hh⟩ : ∃ r ∈ q.rows, held job r = true := by
    apply List.countP_pos_iff.mp
    have hone : q.rows.countP (held job) = 1 := by simpa [Table.count] using hcount.symm
    omega
  have hfields := hh
  simp only [held, Bool.and_eq_true, beq_iff_eq] at hfields
  obtain ⟨⟨⟨hid, htenant⟩, hlease⟩, hrunning⟩ := hfields
  have hfind : q.find job.id = some r := Table.find_eq_some.mpr ⟨hr, hid⟩
  refine ⟨r, hfind, htenant, hlease, hrunning, ?_, hs⟩
  simp only [step, h]
  exact find_update_matching hfind hh

theorem claim_find {q : Queue} {now : Int} {lease : String} {j : Job} (h : (claim q now lease).1 = some j) :
    (claim q now lease).2.find j.id = some j ∧ j.lease = lease := by
  cases hc : candidate q now with
  | none => simp [claim, hc] at h
  | some c =>
      rcases Nat.lt_or_ge c.attempts 3 with ha | ha
      · obtain ⟨hresult, hfind⟩ := @claim_leased q now lease c hc ha
        rw [hresult] at h
        cases h
        exact ⟨by rw [hfind, leased_id, if_pos rfl], rfl⟩
      · simp [(claim_exhausted hc ha).1] at h

def drawn (events : List Event) : List String :=
  events.filterMap fun
    | .claim _ lease => some lease
    | _ => none

/-- The claim that a report belongs to: the last one of its job, which nobody
cancelled since. -/
def LatestClaim (before : List Event) (job : Job) : Prop :=
  ∃ past now rest j, before = past ++ .claim now job.lease :: rest ∧
    (claim (after past) now job.lease).1 = some j ∧ j.id = job.id ∧
    (∀ mid now' lease' more j', rest = mid ++ .claim now' lease' :: more →
      (claim (after (past ++ .claim now job.lease :: mid)) now' lease').1 = some j' → j'.id ≠ job.id) ∧
    .cancel job.tenant job.id ∉ rest

theorem finishes_latest {before : List Event} {job : Job} {status : Status} {failure : String}
    (hfresh : (drawn before).Nodup) (h : finishes (after before) job status failure) : LatestClaim before job := by
  obtain ⟨r, hr, htenant, hlease, hrunning, -, -⟩ := finishes_held h
  have hid := Table.key_of_find hr
  obtain ⟨past, now, rest, rfl, hclaim, hrest⟩ := running_claimed before (hid ▸ hr) hrunning
  rw [hid] at hrest
  rw [hlease] at hclaim hrest hfresh ⊢
  refine ⟨past, now, rest, r, rfl, hclaim, hid, ?_, ?_⟩
  · rintro mid now' lease' more j' rfl hj' hid'
    obtain ⟨hfind, hlease'⟩ := claim_find hj'
    have hkept := hrest (mid ++ [.claim now' lease']) ⟨more, by simp⟩
    rw [← List.cons_append, ← List.append_assoc, after_concat, step, ← hid', hfind] at hkept
    cases hkept
    simp [drawn, List.nodup_append, ← hlease', hlease] at hfresh
  · intro hmem
    obtain ⟨mid, more, rfl⟩ := List.append_of_mem hmem
    have hbefore := hrest mid ⟨_, rfl⟩
    have hkept := hrest (mid ++ [.cancel job.tenant job.id]) ⟨more, by simp⟩
    rw [← List.cons_append, ← List.append_assoc, after_concat, step] at hkept
    rw [cancel, find_update_matching hbefore (by simp [hid, htenant, hrunning, Status.active])] at hkept
    have hstatus := congrArg (Option.map Job.status) hkept
    simp [withdrawn, hrunning] at hstatus

/-- What the queue promises about the calls of any number of controllers. -/
structure Fenced (events : List Event) : Prop where
  final : ∀ before later id r, events = before ++ later → (after before).find id = some r → r.status.terminal = true →
    (∀ mid, mid <+: later → (after (before ++ mid)).find id ≠ none) → (after events).find id = some r
  latest : ∀ before job status failure later, events = before ++ .finish job status failure :: later →
    finishes (after before) job status failure → LatestClaim before job
  once : ∀ before first status failure middle second status' failure' later,
    events = before ++ .finish first status failure :: (middle ++ .finish second status' failure' :: later) →
    finishes (after before) first status failure →
    finishes (after (before ++ .finish first status failure :: middle)) second status' failure' → first.id = second.id →
    ∃ mid, mid <+: middle ∧ (after (before ++ .finish first status failure :: mid)).find first.id = none
  bounded : ∀ before, before <+: events → Bounded (after before)
  existing : ∀ before item now later r, events = before ++ .enqueue item now :: later →
    (after before).find item.id = some r → after (before ++ [.enqueue item now]) = after before ∧
      (enqueue (after before) item now = .ok (r, after before) ∨ ∃ e, enqueue (after before) item now = .error e)

theorem enqueue_existing {q : Queue} {item : NewJob} {r : Job} (hr : q.find item.id = some r) (now : Int) :
    step q (.enqueue item now) = q ∧ (enqueue q item now = .ok (r, q) ∨ ∃ e, enqueue q item now = .error e) := by
  simp only [step]
  cases h : enqueue q item now with
  | error e => exact ⟨rfl, .inr ⟨e, rfl⟩⟩
  | ok result =>
      rcases enqueue_eq_ok h with ⟨hfind, hq⟩ | ⟨hnone, _⟩
      · have hjob : result.1 = r := Option.some.inj (hfind.symm.trans hr)
        exact ⟨hq, .inl (by rw [← hjob, ← hq])⟩
      · simp [hr] at hnone

/-- The second of two accepted reports on one id is about another row. -/
theorem finishes_once {q : Queue} {first second : Job} {status status' : Status} {failure failure' : String}
    {middle : List Event} (hfirst : finishes q first status failure)
    (hsecond : finishes (run step (step q (.finish first status failure)) middle) second status' failure')
    (hid : first.id = second.id) :
    ∃ mid, mid <+: middle ∧ (run step (step q (.finish first status failure)) mid).find first.id = none := by
  by_contra hgone
  push Not at hgone
  obtain ⟨r, -, -, -, -, hended, hterminal⟩ := finishes_held hfirst
  obtain ⟨s, hs, -, -, hrunning, -, -⟩ := finishes_held hsecond
  have hkept := run_final hended hterminal hgone
  rw [hid, hs] at hkept
  cases hkept
  simp_all [ended, Status.terminal, Status.active]

/-- Whatever the controllers and their clocks do, leases that are never drawn
twice fence the queue. -/
theorem queue_fenced (events : List Event) (hfresh : (drawn events).Nodup) : Fenced events where
  final := by
    rintro before later id r rfl hr ht hexists
    rw [after_append]
    refine run_final hr ht fun mid hm => ?_
    rw [← after_append]
    exact hexists mid hm
  latest := by
    rintro before job status failure later rfl h
    have hpast : (drawn before).Nodup := by
      rw [drawn, List.filterMap_append] at hfresh
      exact hfresh.of_append_left
    exact finishes_latest hpast h
  once := by
    rintro before first status failure middle second status' failure' later - hfirst hsecond hid
    simp only [after_append, run_cons] at hsecond ⊢
    exact finishes_once hfirst hsecond hid
  bounded := fun before _ => bounded_run before
  existing := by
    rintro before item now later r - hr
    rw [after_concat]
    exact enqueue_existing hr now

def sampleItem : NewJob := ⟨"a", "tenant", "actor", "generation", "f", "c", "t", "v"⟩

def sampleCalls : List Event :=
  [.enqueue sampleItem 0, .claim 0 "first", .claim 100000 "second"]

def sampleCopy (lease : String) : Job := { queuedRow sampleItem 0 with lease := lease }

theorem queue_fenced_replacement :
    Fenced (sampleCalls ++ [.finish (sampleCopy "second") .completed ""]) ∧
      finishes (after sampleCalls) (sampleCopy "second") .completed "" ∧
      ¬ finishes (after sampleCalls) (sampleCopy "first") .completed "" := by
  refine ⟨queue_fenced _ (by decide), ⟨_, rfl⟩, ?_⟩
  rintro ⟨q', h⟩
  exact absurd (finish_eq_ok h).2.1 (by decide)

end Galadril.Compilation
