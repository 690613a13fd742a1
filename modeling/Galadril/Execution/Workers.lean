import Galadril.Execution.Ledger

namespace Galadril.Execution

open Lib.Transitions

variable {ρ : Type}

/-- What the handler of one delivery does next. The statements of a claim are
separate requests. -/
inductive Phase (ρ : Type)
  | inserting (attempt : Nat)
  | acquiring (attempt : Nat)
  | reading
  | dispatching
  | completing (result : ρ)
  | publishing (result : ρ)
  | replaying (result : ρ)
  | failing (error : String)

/-- The row of one key, the handlers of its deliveries, and what they have said
and published. The holder is the handler of the last claim that was granted. -/
structure Ledger (ρ : Type) where
  row : Option (Row ρ)
  handlers : Nat → Option (Phase ρ)
  holder : Option Nat
  answers : List (Claim ρ)
  published : List ρ

inductive Event (ρ : Type)
  | delivered (handler attempt : Nat)
  | requested (handler : Nat) (now deadline : Int)
  | dispatched (handler : Nat) (outcome : Except String ρ)
  | published (handler : Nat)
  | interrupted (handler : Nat) (error : String)
  | stopped (handler : Nat)

variable (s : Ledger ρ)

def Ledger.set (handler : Nat) (phase : Option (Phase ρ)) : Ledger ρ :=
  { s with handlers := Function.update s.handlers handler phase }

def Ledger.grant (handler : Nat) (row : Row ρ) : Ledger ρ :=
  { s.set handler (some .dispatching) with
    row := some row
    holder := some handler
    answers := s.answers ++ [.acquired] }

def Ledger.request (handler : Nat) (now deadline : Int) : Phase ρ → Ledger ρ
  | .inserting attempt =>
      match s.row with
      | none => s.grant handler (.started attempt deadline)
      | some _ => s.set handler (some (.acquiring attempt))
  | .acquiring attempt =>
      match s.row with
      | some row =>
          if row.acquirable now then s.grant handler (row.resumed attempt deadline)
          else s.set handler (some .reading)
      | none => s.set handler (some .reading)
  | .reading =>
      match s.row with
      | some row =>
          { s.set handler (match row.answer with
              | .completed result => some (.replaying result)
              | _ => none) with answers := s.answers ++ [row.answer] }
      | none => s.set handler none
  | .completing result =>
      match complete s.row result with
      | .ok row => { s.set handler (some (.publishing result)) with row := row }
      | .error e => s.set handler (some (.failing e))
  | .failing error => { s.set handler none with row := fail s.row error }
  | _ => s

/-- An exception leaves the handler, unless it is one of the calls that are
followed by a release of the claim. -/
def Phase.interrupted (error : String) : Phase ρ → Option (Phase ρ)
  | .dispatching | .completing _ | .publishing _ => some (.failing error)
  | _ => none

def Ledger.step : Event ρ → Ledger ρ
  | .delivered handler attempt =>
      match s.handlers handler with
      | none => s.set handler (some (.inserting attempt))
      | some _ => s
  | .requested handler now deadline =>
      match s.handlers handler with
      | some phase => s.request handler now deadline phase
      | none => s
  | .dispatched handler outcome =>
      match s.handlers handler with
      | some .dispatching =>
          s.set handler (some (match outcome with
            | .ok result => .completing result
            | .error e => .failing e))
      | _ => s
  | .published handler =>
      match s.handlers handler with
      | some (.publishing result) | some (.replaying result) => { s with published := s.published ++ [result] }
      | _ => s
  | .interrupted handler error =>
      match s.handlers handler with
      | some phase => s.set handler (phase.interrupted error)
      | none => s
  | .stopped handler => s.set handler none

def Ledger.start : Ledger ρ := ⟨none, fun _ => none, none, [], []⟩

section Finality

variable {ρ : Type} {s : Ledger ρ}

def Completed (s : Ledger ρ) (result : ρ) : Prop :=
  ∃ row, s.row = some row ∧ row.status = .completed ∧ row.result = some result

def Phase.reports : Phase ρ → Bool
  | .completing _ | .failing _ => true
  | _ => false

def Reports (s : Ledger ρ) (handler : Nat) : Prop := (s.handlers handler).any Phase.reports = true

def reopens (s : Ledger ρ) (handler : Nat) (now : Int) : Bool :=
  match s.handlers handler with
  | some (.acquiring _) => s.row.any fun row => row.status = .completed && row.leaseExpires < now
  | _ => false

def overtakes (s : Ledger ρ) (handler : Nat) : Bool :=
  (s.handlers handler).any Phase.reports && s.holder != some handler && running s.row

def Undisturbed (s : Ledger ρ) : Event ρ → Prop
  | .requested handler now _ => reopens s handler now = false ∧ overtakes s handler = false
  | _ => True

instance (s : Ledger ρ) : (e : Event ρ) → Decidable (Undisturbed s e)
  | .requested _ _ _ => inferInstanceAs (Decidable (_ ∧ _))
  | .delivered _ _ | .dispatched _ _ | .published _ | .interrupted _ _ | .stopped _ => isTrue trivial

@[simp] theorem set_row (s : Ledger ρ) (handler : Nat) (phase : Option (Phase ρ)) : (s.set handler phase).row = s.row := rfl

@[simp] theorem set_answers (s : Ledger ρ) (handler : Nat) (phase : Option (Phase ρ)) :
    (s.set handler phase).answers = s.answers := rfl

@[simp] theorem set_published (s : Ledger ρ) (handler : Nat) (phase : Option (Phase ρ)) :
    (s.set handler phase).published = s.published := rfl

theorem Completed.unique {first second : ρ} (h : Completed s first) (h' : Completed s second) : first = second := by
  obtain ⟨row, hrow, -, hresult⟩ := h
  obtain ⟨row', hrow', -, hresult'⟩ := h'
  obtain rfl := Option.some.inj (hrow.symm.trans hrow')
  exact Option.some.inj (hresult.symm.trans hresult')

theorem Completed.not_running {result : ρ} (h : Completed s result) : running s.row = false := by
  obtain ⟨row, hrow, hstatus, -⟩ := h
  simp [running, hrow, hstatus]

def Delivers (s : Ledger ρ) (handler : Nat) (result : ρ) : Prop :=
  s.handlers handler = some (.publishing result) ∨ s.handlers handler = some (.replaying result)

def Continues (s s' : Ledger ρ) (result : ρ) : Prop :=
  Completed s' result ∧ ∃ answers, s'.answers = s.answers ++ answers ∧ ∀ a ∈ answers, a = .completed result

theorem Continues.same {s' : Ledger ρ} {result : ρ} (h : Completed s result) (hrow : s'.row = s.row)
    (hanswers : s'.answers = s.answers) : Continues s s' result := by
  refine ⟨?_, [], by rw [hanswers, List.append_nil], by simp⟩
  obtain ⟨row, hr, hrest⟩ := h
  exact ⟨row, hrow.trans hr, hrest⟩

theorem Continues.trans {s' s'' : Ledger ρ} {result : ρ} (h : Continues s s' result) (h' : Continues s' s'' result) :
    Continues s s'' result := by
  obtain ⟨-, first, hfirst, hall⟩ := h
  obtain ⟨hcompleted, second, hsecond, hall'⟩ := h'
  refine ⟨hcompleted, first ++ second, by rw [hsecond, hfirst, List.append_assoc], fun a ha => ?_⟩
  exact (List.mem_append.mp ha).elim (hall a) (hall' a)

/-- The next statement of a handler leaves a completed row alone. -/
theorem request_continues {handler : Nat} {phase : Phase ρ} {now deadline : Int} {result : ρ} (h : Completed s result)
    (hlease : ∀ attempt row, phase = .acquiring attempt → s.row = some row → row.status = .completed → now ≤ row.leaseExpires) :
    Continues s (s.request handler now deadline phase) result := by
  have hidle := h.not_running
  obtain ⟨row, hrow, hstatus, hresult⟩ := id h
  cases phase with
  | inserting attempt =>
      simp only [Ledger.request, hrow]
      exact .same h rfl rfl
  | acquiring attempt =>
      have hheld : row.acquirable now = false := by
        have := hlease attempt row rfl hrow hstatus
        simp [Row.acquirable, hstatus, this]
      simp only [Ledger.request, hrow, hheld]
      exact .same h rfl rfl
  | reading =>
      have hanswer : row.answer = .completed result := by simp [Row.answer, hstatus, hresult]
      simp only [Ledger.request, hrow, hanswer]
      exact ⟨⟨row, hrow, hstatus, hresult⟩, [.completed result], rfl, fun a ha => List.mem_singleton.mp ha⟩
  | completing other =>
      simp only [Ledger.request, complete, hidle]
      exact .same h rfl rfl
  | failing error =>
      simp only [Ledger.request, fail, hidle]
      exact .same h rfl rfl
  | dispatching | publishing other | replaying other => exact .same h rfl rfl

theorem step_continues {e : Event ρ} {result : ρ} (h : Completed s result) (he : Undisturbed s e) :
    Continues s (s.step e) result := by
  cases e with
  | requested handler now deadline =>
      rw [Ledger.step]
      split
      · next phase hphase =>
          refine request_continues h fun attempt row hacquiring hrow hstatus => ?_
          subst hacquiring
          simpa [reopens, hphase, hrow, hstatus] using he.1
      · exact .same h rfl rfl
  | delivered handler attempt | dispatched handler outcome | published handler | interrupted handler error =>
      simp only [Ledger.step]
      split <;> exact .same h rfl rfl
  | stopped handler => exact .same h rfl rfl

/-- A handler starts to deliver a result only once the row is completed with it. -/
theorem delivers_set {handler other : Nat} {phase : Option (Phase ρ)} {result : ρ}
    (h : Delivers (s.set handler phase) other result) :
    Delivers s other result ∨ (phase = some (.publishing result) ∨ phase = some (.replaying result)) := by
  by_cases heq : other = handler
  · subst heq
    simp only [Delivers, Ledger.set, Function.update_self] at h
    exact .inr h
  · simp only [Delivers, Ledger.set, Function.update_of_ne heq] at h
    exact .inl h

theorem request_delivers {handler other : Nat} {phase : Phase ρ} {now deadline : Int} {result : ρ}
    (h : Delivers (s.request handler now deadline phase) other result) :
    Delivers s other result ∨ Completed (s.request handler now deadline phase) result := by
  cases phase with
  | inserting attempt =>
      cases hrow : s.row with
      | none =>
          simp only [Ledger.request, hrow] at h
          exact .inl ((delivers_set h).resolve_right (by simp))
      | some row =>
          simp only [Ledger.request, hrow] at h
          exact .inl ((delivers_set h).resolve_right (by simp))
  | acquiring attempt =>
      cases hrow : s.row with
      | none =>
          simp only [Ledger.request, hrow] at h
          exact .inl ((delivers_set h).resolve_right (by simp))
      | some row =>
          simp only [Ledger.request, hrow] at h
          split at h <;> exact .inl ((delivers_set h).resolve_right (by simp))
  | reading =>
      cases hrow : s.row with
      | none =>
          simp only [Ledger.request, hrow] at h
          exact .inl ((delivers_set h).resolve_right (by simp))
      | some row =>
          simp only [Ledger.request, hrow] at h ⊢
          rcases delivers_set h with h | h
          · exact .inl h
          · right
            -- only an answer with a result starts a replay
            cases hstatus : row.status <;> cases hresult : row.result <;> simp [Row.answer, hstatus, hresult] at h
            exact ⟨row, hrow, hstatus, h ▸ hresult⟩
  | completing outcome =>
      cases hidle : running s.row with
      | false =>
          simp only [Ledger.request, complete, hidle] at h
          exact .inl ((delivers_set h).resolve_right (by simp))
      | true =>
          simp only [Ledger.request, complete, hidle] at h ⊢
          rcases delivers_set h with h | h
          · exact .inl h
          · right
            obtain ⟨row, hrow, -⟩ : ∃ row, s.row = some row ∧ row.status = .running := by
              simpa [running, Option.any_eq_true] using hidle
            simp only [Option.some.injEq, Phase.publishing.injEq, reduceCtorEq, or_false] at h
            subst h
            exact ⟨row.finished outcome, by simp [hrow], rfl, rfl⟩
  | failing error =>
      simp only [Ledger.request] at h
      exact .inl ((delivers_set h).resolve_right (by simp))
  | dispatching | publishing other | replaying other => exact .inl h

structure Settled (s : Ledger ρ) : Prop where
  delivers : ∀ handler result, Delivers s handler result → Completed s result
  published : ∀ result ∈ s.published, Completed s result

theorem step_delivers {e : Event ρ} {handler : Nat} {result : ρ} (h : Delivers (s.step e) handler result) :
    Delivers s handler result ∨ Completed (s.step e) result := by
  cases e with
  | requested other now deadline =>
      simp only [Ledger.step] at h ⊢
      split at h
      · exact request_delivers h
      · exact .inl h
  | delivered other attempt =>
      simp only [Ledger.step] at h
      split at h
      · exact .inl ((delivers_set h).resolve_right (by simp))
      · exact .inl h
  | dispatched other outcome =>
      simp only [Ledger.step] at h
      split at h
      · refine .inl ((delivers_set h).resolve_right ?_)
        cases outcome <;> simp
      · exact .inl h
  | published other =>
      simp only [Ledger.step] at h
      split at h <;> exact .inl h
  | interrupted other error =>
      simp only [Ledger.step] at h
      split at h
      · next phase _ =>
          refine .inl ((delivers_set h).resolve_right ?_)
          cases phase <;> simp [Phase.interrupted]
      · exact .inl h
  | stopped other => exact .inl ((delivers_set h).resolve_right (by simp))

theorem request_published {handler : Nat} {now deadline : Int} (phase : Phase ρ) :
    (s.request handler now deadline phase).published = s.published := by
  cases phase <;> simp only [Ledger.request, Ledger.grant] <;> (try split) <;> (try split) <;> rfl

theorem step_published {e : Event ρ} {result : ρ} (h : result ∈ (s.step e).published) :
    result ∈ s.published ∨ ∃ handler, Delivers s handler result := by
  cases e with
  | requested other now deadline =>
      simp only [Ledger.step] at h
      split at h
      · exact .inl (request_published (s := s) _ ▸ h)
      · exact .inl h
  | published other =>
      simp only [Ledger.step] at h
      split at h
      · next delivered hphase =>
          refine (List.mem_append.mp h).imp_right fun hnew => ?_
          obtain rfl := List.mem_singleton.mp hnew
          exact ⟨other, .inl hphase⟩
      · next delivered hphase =>
          refine (List.mem_append.mp h).imp_right fun hnew => ?_
          obtain rfl := List.mem_singleton.mp hnew
          exact ⟨other, .inr hphase⟩
      · exact .inl h
  | delivered other attempt | dispatched other outcome | interrupted other error =>
      simp only [Ledger.step] at h
      split at h <;> exact .inl h
  | stopped other => exact .inl h

theorem Settled.step (h : Settled s) {e : Event ρ} (he : Undisturbed s e) : Settled (s.step e) := by
  refine ⟨fun handler result hd => ?_, fun result hr => ?_⟩
  · rcases step_delivers hd with hd | hc
    · exact (step_continues (h.delivers handler result hd) he).1
    · exact hc
  · rcases step_published hr with hr | ⟨handler, hd⟩
    · exact (step_continues (h.published result hr) he).1
    · exact (step_continues (h.delivers handler result hd) he).1

theorem run_continues {events : List (Event ρ)} {result : ρ} (h : Completed s result)
    (hrun : Along Ledger.step Undisturbed s events) : Continues s (run Ledger.step s events) result := by
  induction events generalizing s with
  | nil => exact .same h rfl rfl
  | cons e events ih =>
      have hstep := step_continues h hrun.1
      exact hstep.trans (ih hstep.1 hrun.2)

theorem settled_start : Settled (Ledger.start : Ledger ρ) :=
  ⟨fun _ _ h => (by rcases h with h | h <;> cases h), fun _ h => (by cases h)⟩

/-- In a run without such claims and reports a completed row keeps its result
and answers every claim, a report of a handler whose claim was taken over
changes nothing, and one result alone is published. -/
theorem completion_final (events later : List (Event ρ)) (h : Along Ledger.step Undisturbed .start (events ++ later)) :
    let s : Ledger ρ := run Ledger.step .start events
    let s' : Ledger ρ := run Ledger.step .start (events ++ later)
    (∀ result, Completed s result → Completed s' result ∧
      ∃ answers, s'.answers = s.answers ++ answers ∧ ∀ a ∈ answers, a = .completed result) ∧
    (∀ handler now deadline, Undisturbed s' (.requested handler now deadline) → Reports s' handler →
      s'.holder ≠ some handler → (s'.step (.requested handler now deadline)).row = s'.row) ∧
    ∀ first ∈ s'.published, ∀ second ∈ s'.published, first = second := by
  intro s s'
  have hsettled : Settled s' :=
    run_invariant (fun _ _ hi he => hi.step he) settled_start h
  refine ⟨fun result hc => ?_, fun handler now deadline he hreports hholder => ?_, fun first hf second hs => ?_⟩
  · have hs' : s' = run Ledger.step s later := run_append Ledger.step _ _ _
    rw [hs']
    exact run_continues hc h.right
  · have hidle : running s'.row = false := by
      have hstale := he.2
      rw [overtakes, hreports] at hstale
      simpa [hholder] using hstale
    obtain ⟨phase, hphase, hends⟩ : ∃ phase, s'.handlers handler = some phase ∧ phase.reports = true := by
      simpa [Reports, Option.any_eq_true] using hreports
    cases phase with
    | completing result =>
        simp only [Ledger.step, hphase, Ledger.request, complete, hidle]
        rfl
    | failing error =>
        simp only [Ledger.step, hphase, Ledger.request, fail, hidle]
        rfl
    | inserting attempt | acquiring attempt | reading | dispatching | publishing result | replaying result => cases hends
  · exact (hsettled.published first hf).unique (hsettled.published second hs)

end Finality

/-- One handler claims and completes; another one claims again once the lease
has run out. -/
def reopened : List (Event Nat) :=
  [.delivered 1 0, .requested 1 0 900, .dispatched 1 (.ok 10), .requested 1 1 0, .published 1, .stopped 1,
    .delivered 2 0, .requested 2 1000 1900, .requested 2 1000 1900]

def overwritten : List (Event Nat) := reopened ++ [.dispatched 2 (.ok 20), .requested 2 1001 0, .published 2]

/-- A handler whose expired claim was taken over completes after all. -/
def overtaken : List (Event Nat) :=
  [.delivered 1 0, .requested 1 0 900, .delivered 2 0, .requested 2 1000 1900, .requested 2 1000 1900, .dispatched 1 (.ok 10)]

def repeated : List (Event Nat) :=
  [.delivered 2 0, .requested 2 800 1700, .requested 2 800 1700, .requested 2 800 1700, .published 2]

theorem completion_final_repeated : Completed (run Ledger.step .start (reopened.take 5 ++ repeated)) 10 :=
  ((completion_final (reopened.take 5) repeated (by decide)).1 10 ⟨_, rfl, rfl, rfl⟩).1

theorem completion_undone :
    (Completed (run Ledger.step .start (reopened.take 5)) 10 ∧
      (run Ledger.step .start reopened).row.map Row.status = some .running ∧
      Completed (run Ledger.step .start overwritten) 20 ∧ (run Ledger.step .start overwritten).published = [10, 20]) ∧
    (run Ledger.step .start overtaken).holder = some 2 ∧
    ((run Ledger.step .start overtaken).step (.requested 1 1001 0)).row ≠ (run Ledger.step .start overtaken).row := by
  refine ⟨⟨⟨_, rfl, rfl, rfl⟩, rfl, ⟨_, rfl, rfl, rfl⟩, rfl⟩, rfl, by decide⟩

end Galadril.Execution
