import Mathlib

namespace Galadril.Lib.Levels

variable {V : Type} (G : SimpleGraph V) (s : V)

def level (d : Nat) : Set V := {v | G.edist s v = d}

noncomputable def between (first past : Nat) : Nat := ∑ d ∈ Finset.Ico first past, (level G s d).ncard

variable {G s}

@[simp] theorem mem_level {v : V} {d : Nat} : v ∈ level G s d ↔ G.edist s v = d := Iff.rfl

theorem mem_level_zero {v : V} : v ∈ level G s 0 ↔ v = s := by
  rw [mem_level, Nat.cast_zero, SimpleGraph.edist_eq_zero_iff]
  exact eq_comm

/-- A step leads at most one level further. -/
theorem edist_le_of_adj {u v : V} {d : Nat} (hu : G.edist s u ≤ d) (h : G.Adj u v) : G.edist s v ≤ (d + 1 : Nat) := by
  calc G.edist s v ≤ G.edist s u + G.edist u v := SimpleGraph.edist_triangle
    _ ≤ d + 1 := add_le_add hu (SimpleGraph.edist_eq_one_iff_adj.mpr h).le
    _ = (d + 1 : Nat) := by push_cast; rfl

/-- Every vertex of a later level is next to one of the level before. -/
theorem exists_adj_of_level {v : V} {d : Nat} (h : v ∈ level G s (d + 1)) : ∃ u ∈ level G s d, G.Adj u v := by
  obtain ⟨p, hp⟩ := SimpleGraph.exists_walk_of_edist_eq_coe h
  have hreverse := p.length_reverse
  cases hw : p.reverse with
  | nil =>
      rw [hw, hp] at hreverse
      cases hreverse
  | @cons _ u _ hadj q =>
      rw [hw, SimpleGraph.Walk.length_cons, hp, Nat.add_right_cancel_iff] at hreverse
      refine ⟨u, le_antisymm ?_ ?_, hadj.symm⟩
      · rw [SimpleGraph.edist_comm]
        exact hreverse ▸ SimpleGraph.edist_le q
      · by_contra hlt
        rw [not_le] at hlt
        have hfinite : G.edist s u ≠ ⊤ := ne_top_of_lt hlt
        obtain ⟨e, he⟩ := ENat.ne_top_iff_exists.mp hfinite
        have hstep := edist_le_of_adj he.symm.le hadj.symm
        rw [h] at hstep
        rw [← he] at hlt
        have hle : d + 1 ≤ e + 1 := by exact_mod_cast hstep
        have hlt' : e < d := by exact_mod_cast hlt
        omega

theorem level_empty_of_le {d e : Nat} (h : level G s d = ∅) (hle : d ≤ e) : level G s e = ∅ := by
  induction e, hle using Nat.le_induction with
  | base => exact h
  | succ e _ ih =>
      apply Set.eq_empty_of_forall_notMem
      intro v hv
      obtain ⟨u, hu, -⟩ := exists_adj_of_level hv
      rw [ih] at hu
      exact hu

theorem mem_level_succ {v : V} {d : Nat} : v ∈ level G s (d + 1) ↔ (∃ u ∈ level G s d, G.Adj u v) ∧ ¬ G.edist s v ≤ d := by
  constructor
  · intro h
    refine ⟨exists_adj_of_level h, ?_⟩
    rw [mem_level.mp h]
    intro hle
    have hle' : d + 1 ≤ d := by exact_mod_cast hle
    omega
  · rintro ⟨⟨u, hu, hadj⟩, hfar⟩
    refine le_antisymm (edist_le_of_adj hu.le hadj) ?_
    rw [not_le] at hfar
    exact_mod_cast Order.add_one_le_of_lt hfar

@[simp] theorem between_self (first : Nat) : between G s first first = 0 := by simp [between]

theorem between_of_le {first past : Nat} (h : past ≤ first) : between G s first past = 0 := by
  rw [between, Finset.Ico_eq_empty_of_le h, Finset.sum_empty]

theorem between_succ {first past : Nat} (h : first ≤ past) :
    between G s first (past + 1) = between G s first past + (level G s past).ncard :=
  Finset.sum_Ico_succ_top h _

theorem between_mono {first past past' : Nat} (h : past ≤ past') : between G s first past ≤ between G s first past' :=
  Finset.sum_le_sum_of_subset (Finset.Ico_subset_Ico_right h)

theorem ncard_le_between {first past d : Nat} (h : first ≤ d) (hd : d < past) : (level G s d).ncard ≤ between G s first past :=
  Finset.single_le_sum (f := fun d => (level G s d).ncard) (fun _ _ => Nat.zero_le _) (Finset.mem_Ico.mpr ⟨h, hd⟩)

/-- A list without repetitions counts the set of its elements. -/
theorem ncard_eq_length {A : Set V} {l : List V} (hnodup : l.Nodup) (h : ∀ v, v ∈ l ↔ v ∈ A) : A.ncard = l.length := by
  classical
  have hset : A = (l.toFinset : Set V) := by
    ext v
    rw [Finset.mem_coe, List.mem_toFinset, h]
  rw [hset, Set.ncard_coe_finset, List.toFinset_card_of_nodup hnodup]

end Galadril.Lib.Levels
