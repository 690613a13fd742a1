import Galadril.Lib.Programs

namespace Galadril.Lib.Replays

open Revisions Programs

variable {ι σ ε α κ : Type} [DecidableEq ι] (B : Backend ι ε)

theorem run_extends (p : Prog ι σ ε α) (fresh : ι) (s : Store ι σ) : s.Extends (p.run B fresh s).2 := by
  induction p generalizing s with
  | done x => exact .refl s
  | prepare next ih => exact ih s
  | load pin next ih =>
      cases pin with
      | none => exact ih s.head s
      | some r =>
          unfold Prog.run
          cases s.find r with
          | none => exact .refl s
          | some snap => exact ih snap s
  | commit expected state author message next ih =>
      unfold Prog.run
      split
      · exact (s.extends_push _ _ _).trans (ih fresh _)
      · exact .refl s

variable {B} in
/-- Later commits change the answer of a pinned program only where it asked for
a revision that did not exist yet. -/
theorem Pinned.query_stable {p : Prog ι σ ε α} (h : Pinned p) {s t : Store ι σ} (hst : s.Extends t)
    (hp : p.query B s ≠ .error B.missing) : p.query B t = p.query B s := by
  induction p with
  | done x => rfl
  | prepare next ih => exact ih h hp
  | load pin next ih =>
      cases pin with
      | none => exact h.elim
      | some r =>
          simp only [Prog.query] at hp ⊢
          cases hf : s.find r with
          | none => simp [hf] at hp
          | some snap =>
              rw [hf] at hp
              rw [hst.find hf]
              exact ih snap (h snap) hp
  | commit expected state author message next ih => exact h.elim

variable (program : κ → Prog ι σ ε Unit) (fresh : κ → ι) (genesis : Store ι σ)

/-- The store after a run of calls, the latest call first. Rejected calls are
part of the run and leave the store as it was. -/
def replay : List κ → Store ι σ
  | [] => genesis
  | call :: earlier => ((program call).run B (fresh call) (replay earlier)).2

variable {B program fresh genesis}

@[simp] theorem replay_nil : replay B program fresh genesis [] = genesis := rfl

theorem replay_cons (call : κ) (earlier : List κ) :
    replay B program fresh genesis (call :: earlier) = replay B program fresh genesis earlier ∨
      ∃ r, Writes B (fresh call) (program call) (replay B program fresh genesis earlier) r
        (replay B program fresh genesis (call :: earlier)) := by
  by_cases h : replay B program fresh genesis (call :: earlier) = replay B program fresh genesis earlier
  · exact .inl h
  · exact .inr ⟨_, rfl, h⟩

theorem replay_extends (later earlier : List κ) :
    (replay B program fresh genesis earlier).Extends (replay B program fresh genesis (later ++ earlier)) := by
  induction later with
  | nil => exact .refl _
  | cons call later ih => exact ih.trans (run_extends B _ _ _)

/-- A property of stores that holds at the start and survives every write
holds after every run. -/
theorem replay_invariant {P : Store ι σ → Prop} (start : P genesis)
    (step : ∀ call s r t, P s → Writes B (fresh call) (program call) s r t → P t) (calls : List κ) :
    P (replay B program fresh genesis calls) := by
  induction calls with
  | nil => exact start
  | cons call earlier ih =>
      have hcases : replay B program fresh genesis (call :: earlier) = _ ∨ _ := replay_cons call earlier
      rcases hcases with h | ⟨r, h⟩
      · rw [h]
        exact ih
      · exact step call _ r _ ih h

def EachStep (P : List κ → κ → Prop) : List κ → Prop
  | [] => True
  | call :: earlier => P earlier call ∧ EachStep P earlier

theorem EachStep.of {P : List κ → κ → Prop} (Q : List κ → κ → Prop) {calls : List κ} (h : EachStep P calls) :
    EachStep (fun earlier call => Q earlier call → P earlier call) calls := by
  induction calls with
  | nil => trivial
  | cons call earlier ih => exact ⟨fun _ => h.1, ih h.2⟩

instance decidableEachStep (P : List κ → κ → Prop) [∀ earlier call, Decidable (P earlier call)] :
    (calls : List κ) → Decidable (EachStep P calls)
  | [] => isTrue trivial
  | _ :: earlier => @instDecidableAnd _ _ inferInstance (decidableEachStep P earlier)

end Galadril.Lib.Replays
