import Mathlib

namespace Galadril.Lib.Transitions

variable {σ ε : Type} (step : σ → ε → σ)

def run (s : σ) (events : List ε) : σ := events.foldl step s

@[simp] theorem run_nil (s : σ) : run step s [] = s := rfl

@[simp] theorem run_cons (s : σ) (e : ε) (events : List ε) : run step s (e :: events) = run step (step s e) events := rfl

theorem run_append (s : σ) (events later : List ε) : run step s (events ++ later) = run step (run step s events) later :=
  List.foldl_append

def Along (ok : σ → ε → Prop) : σ → List ε → Prop
  | _, [] => True
  | s, e :: events => ok s e ∧ Along ok (step s e) events

variable {step} {ok : σ → ε → Prop} {Inv : σ → Prop}

theorem Along.left {s : σ} {events later : List ε} (h : Along step ok s (events ++ later)) : Along step ok s events := by
  induction events generalizing s with
  | nil => trivial
  | cons e events ih => exact ⟨h.1, ih h.2⟩

theorem Along.right {s : σ} {events later : List ε} (h : Along step ok s (events ++ later)) :
    Along step ok (run step s events) later := by
  induction events generalizing s with
  | nil => exact h
  | cons e events ih => exact ih h.2

instance decidableAlong [∀ s e, Decidable (ok s e)] : (s : σ) → (events : List ε) → Decidable (Along step ok s events)
  | _, [] => isTrue trivial
  | s, e :: events => @instDecidableAnd _ _ inferInstance (decidableAlong (step s e) events)

theorem along_of_forall {P : ε → Prop} {s : σ} {events : List ε} (h : ∀ e ∈ events, P e) :
    Along step (fun _ e => P e) s events := by
  induction events generalizing s with
  | nil => trivial
  | cons e events ih => exact ⟨h e List.mem_cons_self, ih fun e he => h e (List.mem_cons_of_mem _ he)⟩

/-- What each allowed event keeps holds after every allowed run. -/
theorem run_invariant (hstep : ∀ s e, Inv s → ok s e → Inv (step s e)) {s : σ} (hs : Inv s) {events : List ε}
    (h : Along step ok s events) : Inv (run step s events) := by
  induction events generalizing s with
  | nil => exact hs
  | cons e events ih => exact ih (hstep s e hs h.1) h.2

theorem run_invariant_always (hstep : ∀ s e, Inv s → Inv (step s e)) {s : σ} (hs : Inv s) (events : List ε) :
    Inv (run step s events) := by
  induction events generalizing s with
  | nil => exact hs
  | cons e events ih => exact ih (hstep s e hs)

/-- A relation between states that every event keeps relates both ends of a
run. -/
theorem run_related {R : σ → σ → Prop} (hrefl : ∀ s, R s s) (htrans : ∀ a b c, R a b → R b c → R a c)
    (hstep : ∀ s e, Inv s → Inv (step s e) ∧ R s (step s e)) {s : σ} (hs : Inv s) (events : List ε) :
    R s (run step s events) := by
  induction events generalizing s with
  | nil => exact hrefl s
  | cons e events ih =>
      obtain ⟨hi, hr⟩ := hstep s e hs
      exact htrans _ _ _ hr (ih hi)

end Galadril.Lib.Transitions
