import Galadril.Documents.Index
import Galadril.Lib.Transitions

namespace Galadril.Documents

open Lib.Checked Lib.Transitions

variable {ν : Type} (env : Engine ν)

inductive Operation (ν : Type)
  | progress (stage : IndexStage) (percent : Nat)
  | renew
  | stage (source : String) (units : List Unit) (features : List (Feature ν)) (profile : Option String)
  | complete (units : List Unit)
  | checkpoint (warnings : List String)
  | publish (profile : Option String) (warnings : List String)
  | fail (code : String)

def perform (s : Index ν) (now : Int) (job : IndexJob) : Operation ν → Except String (Index ν)
  | .progress stage percent => progress s now job.lease stage percent
  | .renew => renew s now job.lease
  | .stage source units features profile => stage env s now source job units features profile
  | .complete units => complete s now job units
  | .checkpoint warnings => checkpoint s now job warnings
  | .publish profile warnings => publish s now job profile warnings
  | .fail code => fail s now job.lease code

/-- A transaction that fails rolls back. -/
def settle (s : Index ν) : Except String (Index ν) → Index ν
  | .ok s' => s'
  | .error _ => s

inductive Event (ν : Type)
  | enqueued (now : Int)
  | claimed (now : Int) (lease revision : String)
  | called (now : Int) (job : IndexJob) (operation : Operation ν)

def Index.step (s : Index ν) : Event ν → Index ν
  | .enqueued now => settle s (enqueue s now)
  | .claimed now lease revision => settle s ((claim s now lease revision).map Prod.fst)
  | .called now job operation => settle s (perform env s now job operation)

section Fencing

variable {ν : Type} {env : Engine ν} {s : Index ν} {now : Int}

def Stale (s : Index ν) (lease : String) : Prop := ∀ j, s.job = some j → j.lease ≠ some lease

theorem Stale.held {lease : String} (h : Stale s lease) : held s now lease = false := by
  cases hj : s.job with
  | none => simp [Documents.held, hj]
  | some j => simp [Documents.held, hj, h j hj]

theorem Stale.updateJob {lease : String} (h : Stale s lease) (f : JobRow → JobRow) : updateJob s lease f = s := by
  have hjob : s.job.map (fun j => if j.lease = some lease then f j else j) = s.job := by
    cases hj : s.job with
    | none => rfl
    | some j => simp [h j hj]
  simp [Documents.updateJob, hjob]

/-- Every call but the report of a failure is refused without the lease. -/
theorem Stale.refused {job : IndexJob} (h : Stale s job.lease) {op : Operation ν} (hop : ∀ code, op ≠ .fail code) :
    settle s (perform env s now job op) = s := by
  have hheld : Documents.held s now job.lease = false := h.held
  have herror : ∀ s', perform env s now job op ≠ .ok s' := by
    intro s' hok
    cases op with
    | progress stage percent =>
        simp only [perform, progress, bind_eq_ok, ensure_eq_ok, leased, hheld, Bool.false_and] at hok
        obtain ⟨_, -, _, hf, -⟩ := hok
        cases hf
    | renew =>
        simp only [perform, renew, bind_eq_ok, ensure_eq_ok, leased, hheld, Bool.false_and] at hok
        obtain ⟨_, hf, -⟩ := hok
        cases hf
    | stage source units features profile =>
        simp only [perform, stage, bind_eq_ok, ensure_eq_ok, hheld, Bool.false_and] at hok
        obtain ⟨_, -, _, -, _, hf, -⟩ := hok
        cases hf
    | complete units =>
        simp only [perform, complete, bind_eq_ok, ensure_eq_ok, hheld] at hok
        obtain ⟨_, hf, -⟩ := hok
        cases hf
    | checkpoint warnings =>
        simp only [perform, checkpoint, activateRevision, bind_eq_ok, ensure_eq_ok, hheld, Bool.false_and] at hok
        obtain ⟨_, hf, -⟩ := hok
        cases hf
    | publish profile warnings =>
        simp only [perform, publish, activateRevision, bind_eq_ok, ensure_eq_ok, hheld, Bool.false_and] at hok
        obtain ⟨_, ⟨_, hf, -⟩, -⟩ := hok
        cases hf
    | fail code => exact hop code rfl
  cases hp : perform env s now job op with
  | ok s' => exact absurd hp (herror s')
  | error e => rfl

def validCode (code : String) : Bool := code == "unsupported" || code == "unavailable" || code == "invalid"

theorem Stale.fail {job : IndexJob} (h : Stale s job.lease) (code : String) :
    settle s (perform env s now job (.fail code)) = if validCode code then { s with file := failedRecord s code } else s := by
  by_cases hcode : validCode code
  · have hcode' : (code == "unsupported" || code == "unavailable" || code == "invalid") = true := hcode
    simp only [perform, Documents.fail, h.updateJob, hcode', hcode, ensure_true, if_true]
    rfl
  · have hcode' : (code == "unsupported" || code == "unavailable" || code == "invalid") = false := by
      simpa [validCode] using hcode
    simp only [perform, Documents.fail, hcode', hcode]
    rfl

def retrievalOf (s : Index ν) : Option (Option Retrieval) := s.file.map File.retrieval

/-- The failure of an earlier attempt is reported while the last one runs, or
after it, and the record says something else so far. -/
def Overwrites (s : Index ν) (op : Operation ν) : Prop :=
  ∃ code, op = .fail code ∧ validCode code = true ∧ (∃ j, s.job = some j ∧ 8 ≤ j.attempts) ∧
    ∃ r, s.file = some r ∧ r.retrieval.any Retrieval.isReady = false ∧ r.retrieval ≠ some (.failed [code])

theorem retrievalOf_failedRecord (s : Index ν) (code : String) (hcode : validCode code = true) :
    retrievalOf { s with file := failedRecord s code } = retrievalOf s ↔ ¬ Overwrites s (.fail code) := by
  have hover : Overwrites s (.fail code) ↔ (∃ j, s.job = some j ∧ 8 ≤ j.attempts) ∧
      ∃ r, s.file = some r ∧ r.retrieval.any Retrieval.isReady = false ∧ r.retrieval ≠ some (.failed [code]) := by
    constructor
    · rintro ⟨_, ⟨⟩, -, hrest⟩
      exact hrest
    · rintro ⟨hj, hr⟩
      exact ⟨code, rfl, hcode, hj, hr⟩
  rw [hover]
  cases hf : s.file with
  | none => simp [retrievalOf, failedRecord, hf]
  | some r =>
      cases hj : s.job with
      | none => simp [retrievalOf, failedRecord, hf, hj]
      | some j =>
          by_cases hattempts : 8 ≤ j.attempts
          · by_cases hready : r.retrieval.any Retrieval.isReady = true
            · simp [retrievalOf, failedRecord, hf, hj, hready]
            · have hcond : failedRecord s code = some { r with retrieval := some (.failed [code]), revision :=
                r.revision + 1 } := by
                simp [failedRecord, hf, hj, hready, hattempts]
              have hready : r.retrieval.any Retrieval.isReady = false := by simpa using hready
              simp [retrievalOf, hcond, hf, hready, hattempts, eq_comm (a := some (Retrieval.failed [code]))]
          · simp [retrievalOf, failedRecord, hf, hj, hattempts]

/-- A call without the lease changes nothing, except that the report of a
failure reaches the record of a job that is on its last attempt. -/
theorem stale_calls_fenced (env : Engine ν) (start : Index ν) (events : List (Event ν)) (now : Int) (job : IndexJob)
    (op : Operation ν) (h : Stale (run (Index.step env) start events) job.lease) :
    ((run (Index.step env) start (events ++ [.called now job op])).job = (run (Index.step env) start events).job ∧
      (run (Index.step env) start (events ++ [.called now job op])).units = (run (Index.step env) start events).units ∧
      (run (Index.step env) start (events ++ [.called now job op])).features = (run (Index.step env) start events).features ∧
      retrievalOf (run (Index.step env) start (events ++ [.called now job op])) =
        retrievalOf (run (Index.step env) start events)) ↔
    ¬ Overwrites (run (Index.step env) start events) op := by
  rw [run_append]
  generalize run (Index.step env) start events = s at h ⊢
  simp only [run_cons, run_nil, Index.step]
  by_cases hop : ∃ code, op = .fail code
  · obtain ⟨code, rfl⟩ := hop
    rw [h.fail]
    by_cases hcode : validCode code = true
    · simp only [hcode, if_true, true_and]
      exact retrievalOf_failedRecord s code hcode
    · have hnone : ¬ Overwrites s (.fail code) := by
        rintro ⟨_, ⟨⟩, hvalid, -⟩
        exact hcode hvalid
      simp [hcode, hnone]
  · have hnone : ¬ Overwrites s op := fun ⟨code, hfail, _⟩ => hop ⟨code, hfail⟩
    rw [h.refused fun code hfail => hop ⟨code, hfail⟩]
    simp [hnone]

end Fencing

/-- Tables without check constraints, for vectors of no components. -/
def plainEngine : Engine PUnit := ⟨fun _ => true, fun _ => true, fun _ => 1, fun _ => true⟩

def upload : Index PUnit := ⟨some ⟨"sum", true, some 100000000, 1, none⟩, none, [], []⟩

/-- Eight workers in turn lose the lease of one job. -/
def claims : List (Event PUnit) :=
  .enqueued 0 :: (["a", "b", "c", "d", "e", "f", "g", "h"].zipIdx.map fun (lease, i) =>
    .claimed (300000 * i) lease "revision")

def worker (lease : String) : IndexJob := ⟨"sum", lease, "revision", [], none, none⟩

theorem stale_calls_fenced_renewal :
    retrievalOf (run (Index.step plainEngine) upload (claims ++ [.called 2100001 (worker "g") .renew])) =
      retrievalOf (run (Index.step plainEngine) upload claims) := by
  have hstale : Stale (run (Index.step plainEngine) upload claims) "g" := by
    rintro j ⟨⟩
    decide
  refine ((stale_calls_fenced plainEngine upload claims 2100001 (worker "g") .renew hstale).mpr ?_).2.2.2
  rintro ⟨code, ⟨⟩, -⟩

/-- The seventh worker reports its failure while the eighth is at work. -/
theorem stale_failure_reported :
    Stale (run (Index.step plainEngine) upload claims) "g" ∧
    retrievalOf (run (Index.step plainEngine) upload claims) = some none ∧
    retrievalOf (run (Index.step plainEngine) upload (claims ++ [.called 2100001 (worker "g") (.fail "unavailable")])) =
      some (some (.failed ["unavailable"])) := by
  refine ⟨?_, by decide, by decide⟩
  rintro j ⟨⟩
  decide

end Galadril.Documents
