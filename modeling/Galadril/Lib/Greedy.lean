import Mathlib

namespace Galadril.Lib.Greedy

variable {α : Type} {keep : List α → Bool} {P : List α → Prop}

def offer (keep : List α → Bool) (acc : List α × List α) (x : α) : List α × List α :=
  if keep (acc.1 ++ [x]) then (acc.1 ++ [x], acc.2) else (acc.1, acc.2 ++ [x])

def select (keep : List α → Bool) (xs : List α) : List α × List α := xs.foldl (offer keep) ([], [])

/-- A choice to which nothing that was left out can be added. -/
structure Maximal (P : List α → Prop) (xs chosen refused : List α) : Prop where
  chosen_sublist : chosen.Sublist xs
  refused_sublist : refused.Sublist xs
  divided : (chosen ++ refused).Perm xs
  holds : chosen ≠ [] → P chosen
  full : ∀ x ∈ refused, ¬ P (chosen ++ [x])

variable {xs chosen refused : List α}

theorem Maximal.offer (hkeep : ∀ ys, keep ys = true ↔ P ys) (hmono : ∀ xs ys, List.Subperm xs ys → P ys → P xs)
    (h : Maximal P xs chosen refused) (x : α) :
    Maximal P (xs ++ [x]) (offer keep (chosen, refused) x).1 (offer keep (chosen, refused) x).2 := by
  unfold Greedy.offer
  split
  · next hkept =>
    refine ⟨h.chosen_sublist.append_right _, h.refused_sublist.trans (List.sublist_append_left _ _), ?_,
      fun _ => (hkeep _).mp hkept, fun y hy hP => ?_⟩
    · calc (chosen ++ [x] ++ refused).Perm (chosen ++ refused ++ [x]) := by
            rw [List.append_assoc, List.append_assoc]
            exact List.perm_append_comm.append_left _
        _ |>.Perm (xs ++ [x]) := h.divided.append_right _
    · exact h.full y hy (hmono _ _ ((List.sublist_append_left chosen [x]).append_right [y]).subperm hP)
  · next hrefused =>
    refine ⟨h.chosen_sublist.trans (List.sublist_append_left _ _), h.refused_sublist.append_right _, ?_, h.holds, fun y hy hP => ?_⟩
    · rw [← List.append_assoc]
      exact h.divided.append_right _
    · rcases List.mem_append.mp hy with hold | hnew
      · exact h.full y hold hP
      · rw [List.mem_singleton.mp hnew] at hP
        exact hrefused ((hkeep _).mpr hP)

/-- Offering elements one by one to a property that passes to parts gives a
maximal choice. -/
theorem select_maximal (hkeep : ∀ ys, keep ys = true ↔ P ys) (hmono : ∀ xs ys, List.Subperm xs ys → P ys → P xs) :
    Maximal P xs (select keep xs).1 (select keep xs).2 := by
  induction xs using List.reverseRecOn with
  | nil => exact ⟨List.Sublist.slnil, List.Sublist.slnil, List.Perm.nil, fun h => absurd rfl h, fun x hx => by cases hx⟩
  | append_singleton xs x ih =>
      rw [select, List.foldl_append]
      exact ih.offer hkeep hmono x

theorem Maximal.holds_iff (h : Maximal P xs chosen refused) (hmono : ∀ xs ys, List.Subperm xs ys → P ys → P xs) :
    P chosen ↔ P [] := by
  refine ⟨hmono _ _ (List.nil_subperm), fun hnil => ?_⟩
  by_cases hempty : chosen = []
  · rwa [hempty]
  · exact h.holds hempty

/-- Nothing is left out just if everything may be kept. -/
theorem Maximal.refused_eq_nil (h : Maximal P xs chosen refused) (hmono : ∀ xs ys, List.Subperm xs ys → P ys → P xs) :
    refused = [] ↔ P xs ∨ xs = [] := by
  constructor
  · rintro rfl
    have hall : chosen = xs := h.chosen_sublist.eq_of_length (by simpa using h.divided.length_eq)
    rw [← hall]
    by_cases hempty : chosen = []
    · exact .inr hempty
    · exact .inl (h.holds hempty)
  · rintro (hP | rfl)
    · refine List.eq_nil_iff_forall_not_mem.mpr fun x hx => h.full x hx (hmono _ _ ?_ hP)
      exact ((List.singleton_sublist.mpr hx).append_left chosen).subperm.trans h.divided.subperm
    · exact List.sublist_nil.mp h.refused_sublist

end Galadril.Lib.Greedy
