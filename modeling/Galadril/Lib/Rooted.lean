import Mathlib

namespace Galadril.Lib.Rooted

variable {κ : Type} {root k p : κ} {parent : κ → Option κ}

inductive Reaches (root : κ) (parent : κ → Option κ) : κ → Prop
  | root : Reaches root parent root
  | step {k p : κ} (h : parent k = some p) (hp : Reaches root parent p) : Reaches root parent k

structure Forest (root : κ) (parent : κ → Option κ) : Prop where
  rootless : parent root = none
  reaches : ∀ k p, parent k = some p → Reaches root parent p

theorem forest_empty : Forest root (fun _ : κ => none) := ⟨rfl, fun _ _ h => by cases h⟩

theorem Forest.reaches_node (h : Forest root parent) (hk : parent k = some p) : Reaches root parent k :=
  .step hk (h.reaches k p hk)

theorem Forest.parent_known (h : Forest root parent) (hk : parent k = some p) :
    p = root ∨ (parent p).isSome = true := by
  cases h.reaches k p hk with
  | root => exact .inl rfl
  | step hp _ => exact .inr (by simp [hp])

variable [DecidableEq κ]

theorem Reaches.attach {j : κ} {q : Option κ} (h : Reaches root parent j) (hk : parent k = none) :
    Reaches root (Function.update parent k q) j := by
  induction h with
  | root => exact .root
  | @step j p hj _ ih =>
      have hne : j ≠ k := by
        rintro rfl
        simp [hk] at hj
      exact .step (by rwa [Function.update_of_ne hne]) ih

/-- A new node may hang below the root or below any node of the forest. -/
theorem Forest.attach (h : Forest root parent) (hk : parent k = none) (hne : k ≠ root)
    (hp : p = root ∨ (parent p).isSome = true) : Forest root (Function.update parent k (some p)) := by
  refine ⟨by rw [Function.update_of_ne hne.symm, h.rootless], fun j q hj => ?_⟩
  by_cases hjk : j = k
  · subst hjk
    rw [Function.update_self] at hj
    obtain rfl := Option.some.inj hj
    rcases hp with rfl | hp
    · exact .root
    · obtain ⟨r, hr⟩ := Option.isSome_iff_exists.mp hp
      exact (h.reaches_node hr).attach hk
  · rw [Function.update_of_ne hjk] at hj
    exact (h.reaches j q hj).attach hk

theorem Reaches.prune {j : κ} (h : Reaches root parent j) (hchildless : ∀ i, parent i ≠ some k) (hj : j ≠ k) :
    Reaches root (Function.update parent k none) j := by
  induction h with
  | root => exact .root
  | @step j p hparent _ ih =>
      refine .step (by rwa [Function.update_of_ne hj]) (ih ?_)
      rintro rfl
      exact hchildless j hparent

/-- A node without children can be removed. -/
theorem Forest.prune (h : Forest root parent) (hchildless : ∀ i, parent i ≠ some k) :
    Forest root (Function.update parent k none) := by
  refine ⟨?_, fun j q hj => ?_⟩
  · by_cases hk : root = k
    · rw [hk, Function.update_self]
    · rw [Function.update_of_ne hk, h.rootless]
  · by_cases hjk : j = k
    · subst hjk
      simp at hj
    · rw [Function.update_of_ne hjk] at hj
      refine (h.reaches j q hj).prune hchildless ?_
      rintro rfl
      exact hchildless j hj

end Galadril.Lib.Rooted
