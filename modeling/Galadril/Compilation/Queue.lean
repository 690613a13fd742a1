import Galadril.Lib.Checked
import Galadril.Lib.Table

namespace Galadril.Compilation

open Lib Lib.Checked

inductive Status
  | queued
  | running
  | completed
  | failed
  | cancelled
  deriving DecidableEq, Repr

def Status.active : Status → Bool
  | .queued | .running => true
  | _ => false

def Status.terminal (s : Status) : Bool := !s.active

/-- A row of the queue, and every copy of it that a controller holds. -/
structure Job where
  id : String
  tenant : String
  actor : String
  generation : String
  fingerprint : String
  capability : String
  templateId : String
  templateVersion : String
  status : Status
  failure : String
  lease : String
  leaseUntil : Int
  attempts : Nat
  createdAt : Int
  deriving DecidableEq, Repr

structure NewJob where
  id : String
  tenant : String
  actor : String
  generation : String
  fingerprint : String
  capability : String
  templateId : String
  templateVersion : String

abbrev Queue := Table Job.id

/-- 64-bit clock arithmetic wraps in additions. -/
def wrapping (n : Int) : Int := n.bmod (2 ^ 64)

def retention : Int := 7 * 24 * 60 * 60 * 1000

def cutoff (now : Int) : Int := max (-2 ^ 63) (now - retention)

def expiredRow (now : Int) (r : Job) : Bool := r.status.terminal && decide (r.createdAt ≤ cutoff now)

/-- Which of the expired rows come first is up to the database; none of them is
changed. -/
def expired (q : Queue) (now : Int) : List Job := (q.rows.filter (expiredRow now)).take 32

def forget (q : Queue) (job : Job) : Queue :=
  q.delete fun r => r.id == job.id && r.tenant == job.tenant && r.lease == job.lease && r.status.terminal

def queuedRow (item : NewJob) (now : Int) : Job where
  id := item.id
  tenant := item.tenant
  actor := item.actor
  generation := item.generation
  fingerprint := item.fingerprint
  capability := item.capability
  templateId := item.templateId
  templateVersion := item.templateVersion
  status := .queued
  failure := ""
  lease := ""
  leaseUntil := 0
  attempts := 0
  createdAt := now

def ofTenant (tenant : String) (r : Job) : Bool := r.tenant == tenant && r.status.active

def enqueue (q : Queue) (item : NewJob) (now : Int) : Except String (Job × Queue) :=
  match q.find item.id with
  | some existing => do
      ensure (existing.tenant == item.tenant && existing.actor == item.actor &&
        existing.generation == item.generation && existing.fingerprint == item.fingerprint) "Idempotency conflict"
      return (existing, q)
  | none => do
      ensure (q.count (·.status.active) < 256 && q.count (ofTenant item.tenant) < 32) "Compilation queue is full"
      return (queuedRow item now, q.insert (queuedRow item now))

def get (q : Queue) (tenant id : String) : Except String Job :=
  context ((q.find id).filter (·.tenant == tenant)) "Record not found"

def eligible (now : Int) (r : Job) : Bool :=
  r.status == .queued || (r.status == .running && decide (r.leaseUntil < now))

def earlier (a b : Job) : Bool := decide (a.createdAt < b.createdAt ∨ a.createdAt = b.createdAt ∧ a.id ≤ b.id)

def candidate (q : Queue) (now : Int) : Option Job := Table.least earlier (q.rows.filter (eligible now))

def exhausted (r : Job) : Job := { r with status := .failed, failure := "retry_limit" }

@[simp] theorem exhausted_id (r : Job) : (exhausted r).id = r.id := rfl

def leased (attempts : Nat) (now : Int) (lease : String) (r : Job) : Job :=
  { r with status := .running, lease := lease, leaseUntil := wrapping (now + 90000), attempts := attempts + 1 }

@[simp] theorem leased_id (attempts : Nat) (now : Int) (lease : String) (r : Job) :
    (leased attempts now lease r).id = r.id := rfl

def selected (c r : Job) : Bool := r.id == c.id && r.lease == c.lease && r.status == c.status

def claim (q : Queue) (now : Int) (lease : String) : Option Job × Queue :=
  match candidate q now with
  | none => (none, q)
  | some c =>
      if 3 ≤ c.attempts then
        (none, q.update (fun r => r.id == c.id && r.lease == c.lease) exhausted exhausted_id)
      else
        let changed := q.update (selected c) (leased c.attempts now lease) (leased_id c.attempts now lease)
        if q.count (selected c) = 0 then (none, q)
        else (changed.find c.id, changed)

/-- The rows that a worker with this copy of a job may still finish. -/
def held (job : Job) (r : Job) : Bool :=
  r.id == job.id && r.tenant == job.tenant && r.lease == job.lease && r.status == .running

def ended (status : Status) (failure : String) (r : Job) : Job := { r with status := status, failure := failure }

@[simp] theorem ended_id (status : Status) (failure : String) (r : Job) : (ended status failure r).id = r.id := rfl

def finish (q : Queue) (job : Job) (status : Status) (failure : String) : Except String (Bool × Queue) := do
  ensure (status == .completed || status == .failed) "Invalid terminal state"
  return (q.count (held job) == 1, q.update (held job) (ended status failure) (ended_id status failure))

def withdrawn (r : Job) : Job := { r with status := .cancelled }

@[simp] theorem withdrawn_id (r : Job) : (withdrawn r).id = r.id := rfl

def cancel (q : Queue) (tenant id : String) : Except String Job × Queue :=
  let changed := q.update (fun r => r.id == id && r.tenant == tenant && r.status.active) withdrawn withdrawn_id
  (get changed tenant id, changed)

/-- One call by one of the controllers that share the queue. -/
inductive Event
  | enqueue (item : NewJob) (now : Int)
  | claim (now : Int) (lease : String)
  | finish (job : Job) (status : Status) (failure : String)
  | cancel (tenant id : String)
  | expired (now : Int)
  | forget (job : Job)

def step (q : Queue) : Event → Queue
  | .enqueue item now =>
      match enqueue q item now with
      | .ok (_, q') => q'
      | .error _ => q
  | .claim now lease => (claim q now lease).2
  | .finish job status failure =>
      match finish q job status failure with
      | .ok (_, q') => q'
      | .error _ => q
  | .cancel tenant id => (cancel q tenant id).2
  | .expired _ => q
  | .forget job => forget q job

inductive Change (q : Queue) (id : String) : Event → Option Job → Option Job → Prop
  | kept (e) (row) : Change q id e row row
  | enqueued (item : NewJob) (now) (h : item.id = id) : Change q id (.enqueue item now) none (some (queuedRow item now))
  | claimed (now) (lease) (r : Job) (he : eligible now r = true) (ha : r.attempts < 3)
      (hc : (claim q now lease).1 = some (leased r.attempts now lease r)) :
      Change q id (.claim now lease) (some r) (some (leased r.attempts now lease r))
  | exhausted (now) (lease) (r : Job) (he : eligible now r = true) :
      Change q id (.claim now lease) (some r) (some (exhausted r))
  | finished (job) (status) (failure) (r : Job) (hh : held job r = true) (hs : status.terminal = true) :
      Change q id (.finish job status failure) (some r) (some (ended status failure r))
  | cancelled (tenant) (r : Job) (ht : r.tenant = tenant) (ha : r.status.active = true) :
      Change q id (.cancel tenant id) (some r) (some (withdrawn r))
  | forgotten (job) (r : Job) (hs : r.status.terminal = true) : Change q id (.forget job) (some r) none

variable {q : Queue}

theorem candidate_mem {now : Int} {c : Job} (h : candidate q now = some c) : c ∈ q.rows ∧ eligible now c = true :=
  List.mem_filter.mp (Table.mem_of_least h)

theorem candidate_find {now : Int} {c : Job} (h : candidate q now = some c) : q.find c.id = some c :=
  Table.find_eq_some.mpr ⟨(candidate_mem h).1, rfl⟩

theorem find_update_other {p : Job → Bool} {f : Job → Job} {hf : ∀ r, (f r).id = r.id} {id : String}
    (h : ∀ r, q.find id = some r → p r = false) : (q.update p f hf).find id = q.find id := by
  rw [Table.find_update]
  cases hr : q.find id with
  | none => rfl
  | some r => simp [h r hr]

theorem find_update_matching {p : Job → Bool} {f : Job → Job} {hf : ∀ r, (f r).id = r.id} {id : String} {r : Job}
    (hr : q.find id = some r) (hp : p r = true) : (q.update p f hf).find id = some (f r) := by
  rw [Table.find_update, hr]
  simp [hp]

/-- A filtered update either leaves the row under an id alone or changes it. -/
theorem find_update_cases {p : Job → Bool} {f : Job → Job} {hf : ∀ r, (f r).id = r.id} (id : String) :
    (q.update p f hf).find id = q.find id ∨
      ∃ r, q.find id = some r ∧ p r = true ∧ (q.update p f hf).find id = some (f r) := by
  by_cases h : ∀ r, q.find id = some r → p r = false
  · exact .inl (find_update_other h)
  · push Not at h
    obtain ⟨r, hr, hp⟩ := h
    have hp : p r = true := by simpa using hp
    exact .inr ⟨r, hr, hp, find_update_matching hr hp⟩

theorem find_update_row {p : Job → Bool} {f : Job → Job} (hf : ∀ r, (f r).id = r.id) {c : Job} (hc : q.find c.id = some c)
    (hp : p c = true) (hid : ∀ r, p r = true → r.id = c.id) (id : String) :
    (q.update p f hf).find id = if c.id = id then some (f c) else q.find id := by
  by_cases h : c.id = id
  · subst h
    rw [if_pos rfl]
    exact find_update_matching hc hp
  · rw [if_neg h]
    refine find_update_other fun r hr => ?_
    by_contra hpr
    exact h ((hid r (by simpa using hpr)).symm.trans (Table.key_of_find hr))

theorem enqueue_eq_ok {item : NewJob} {now : Int} {job : Job} {q' : Queue} (h : enqueue q item now = .ok (job, q')) :
    (q.find item.id = some job ∧ q' = q) ∨
      (q.find item.id = none ∧ q.count (·.status.active) < 256 ∧ q.count (ofTenant item.tenant) < 32 ∧
        job = queuedRow item now ∧ q' = q.insert (queuedRow item now)) := by
  rw [enqueue] at h
  cases hf : q.find item.id with
  | some existing =>
      simp only [hf, bind_eq_ok, pure_eq_ok, Prod.mk.injEq] at h
      obtain ⟨_, _, rfl, rfl⟩ := h
      exact .inl ⟨rfl, rfl⟩
  | none =>
      simp only [hf, bind_eq_ok, pure_eq_ok, Prod.mk.injEq, ensure_eq_ok, Bool.and_eq_true, decide_eq_true_eq] at h
      obtain ⟨_, ⟨hall, htenant⟩, rfl, rfl⟩ := h
      exact .inr ⟨rfl, hall, htenant, rfl, rfl⟩

theorem finish_eq_ok {job : Job} {status : Status} {failure : String} {b : Bool} {q' : Queue}
    (h : finish q job status failure = .ok (b, q')) :
    status.terminal = true ∧ b = (q.count (held job) == 1) ∧
      q' = q.update (held job) (ended status failure) (ended_id status failure) := by
  simp only [finish, bind_eq_ok, ensure_eq_ok, pure_eq_ok, Prod.mk.injEq] at h
  obtain ⟨_, hs, rfl, rfl⟩ := h
  refine ⟨?_, rfl, rfl⟩
  cases status <;> simp_all [Status.terminal, Status.active]

theorem claim_exhausted {now : Int} {lease : String} {c : Job} (hc : candidate q now = some c) (ha : 3 ≤ c.attempts) :
    (claim q now lease).1 = none ∧
      ∀ id, (claim q now lease).2.find id = if c.id = id then some (exhausted c) else q.find id := by
  simp only [claim, hc, if_pos ha]
  refine ⟨trivial, find_update_row exhausted_id (candidate_find hc) (by simp) ?_⟩
  intro r hr
  simpa using (Bool.and_eq_true_iff.mp hr).1

/-- The update inside the transaction finds the row it selected. -/
theorem claim_leased {now : Int} {lease : String} {c : Job} (hc : candidate q now = some c) (ha : c.attempts < 3) :
    (claim q now lease).1 = some (leased c.attempts now lease c) ∧
      ∀ id, (claim q now lease).2.find id = if c.id = id then some (leased c.attempts now lease c) else q.find id := by
  have hself : selected c c = true := by simp [selected]
  have hid : ∀ r, selected c r = true → r.id = c.id := by
    intro r hr
    simp only [selected, Bool.and_eq_true, beq_iff_eq] at hr
    exact hr.1.1
  have hcount : q.count (selected c) ≠ 0 := by
    rw [Table.count, Ne, List.countP_eq_zero]
    intro h
    exact h c (candidate_mem hc).1 hself
  have hfind := find_update_row (leased_id c.attempts now lease) (candidate_find hc) hself hid
  simp only [claim, hc, if_neg (Nat.not_le.mpr ha), if_neg hcount]
  exact ⟨by rw [hfind, if_pos rfl], hfind⟩

theorem claim_change (now : Int) (lease : String) (id : String) :
    Change q id (.claim now lease) (q.find id) ((claim q now lease).2.find id) := by
  cases hc : candidate q now with
  | none =>
      simp only [claim, hc]
      exact .kept _ _
  | some c =>
      have he := (candidate_mem hc).2
      rcases Nat.lt_or_ge c.attempts 3 with ha | ha
      · rw [(claim_leased hc ha).2]
        split
        · next hid =>
            rw [← hid, candidate_find hc]
            exact .claimed now lease c he ha (claim_leased hc ha).1
        · exact .kept _ _
      · rw [(claim_exhausted hc ha).2]
        split
        · next hid =>
            rw [← hid, candidate_find hc]
            exact .exhausted now lease c he
        · exact .kept _ _

theorem step_change (e : Event) (id : String) : Change q id e (q.find id) ((step q e).find id) := by
  cases e with
  | enqueue item now =>
      simp only [step]
      split
      · next job q' h =>
          rcases enqueue_eq_ok h with ⟨_, rfl⟩ | ⟨hnone, _, _, rfl, rfl⟩
          · exact .kept _ _
          · rw [Table.find_insert hnone]
            split
            · next hid =>
                have hid : item.id = id := hid
                rw [← hid, hnone]
                exact .enqueued item now rfl
            · exact .kept _ _
      · exact .kept _ _
  | claim now lease => exact claim_change now lease id
  | finish job status failure =>
      simp only [step]
      split
      · next b q' h =>
          obtain ⟨hs, -, rfl⟩ := finish_eq_ok h
          rcases find_update_cases id with hsame | ⟨r, hr, hp, hnew⟩
          · exact hsame ▸ .kept _ _
          · rw [hnew, hr]
            exact .finished job status failure r hp hs
      · exact .kept _ _
  | cancel tenant id' =>
      simp only [step, cancel]
      rcases find_update_cases id with hsame | ⟨r, hr, hp, hnew⟩
      · exact hsame ▸ .kept _ _
      · rw [hnew, hr]
        simp only [Bool.and_eq_true, beq_iff_eq] at hp
        obtain rfl : id = id' := by rw [← Table.key_of_find hr, hp.1.1]
        exact .cancelled tenant r hp.1.2 hp.2
  | expired now => exact .kept _ _
  | forget job =>
      simp only [step, forget, Table.find_delete]
      cases hr : q.find id with
      | none => exact .kept _ _
      | some r =>
          by_cases hp : (r.id == job.id && r.tenant == job.tenant && r.lease == job.lease && r.status.terminal) = true
          · rw [Option.filter_some, hp]
            exact .forgotten job r (Bool.and_eq_true_iff.mp hp).2
          · rw [Option.filter_some, Bool.not_eq_true] at *
            rw [hp]
            exact .kept _ _

end Galadril.Compilation
