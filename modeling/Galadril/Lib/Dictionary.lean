import Mathlib

namespace Galadril.Lib.Dictionary

variable {κ β : Type} [DecidableEq κ]

/-- A dictionary keeps its entries in the order in which their keys first
came. -/
def get (k : κ) : List (κ × β) → Option β
  | [] => none
  | (x, v) :: entries => if x = k then some v else get k entries

def assign (k : κ) (v : β) : List (κ × β) → List (κ × β)
  | [] => [(k, v)]
  | (x, w) :: entries => if x = k then (x, v) :: entries else (x, w) :: assign k v entries

def drop (k : κ) (entries : List (κ × β)) : List (κ × β) := entries.filter fun entry => entry.1 ≠ k

@[simp] theorem get_nil (k : κ) : get k ([] : List (κ × β)) = none := rfl

@[simp] theorem get_assign_self (k : κ) (v : β) (entries : List (κ × β)) : get k (assign k v entries) = some v := by
  induction entries with
  | nil => simp [assign, get]
  | cons entry entries ih =>
      obtain ⟨x, w⟩ := entry
      by_cases hx : x = k
      · simp [assign, get, hx]
      · simp [assign, get, hx, ih]

theorem get_assign_ne {j k : κ} (h : j ≠ k) (v : β) (entries : List (κ × β)) : get j (assign k v entries) = get j entries := by
  induction entries with
  | nil => simp [assign, get, h.symm]
  | cons entry entries ih =>
      obtain ⟨x, w⟩ := entry
      by_cases hx : x = k
      · have hne : x ≠ j := fun he => h (he ▸ hx)
        simp [assign, get, hx, h.symm]
      · simp [assign, get, hx, ih]

theorem get_assign (j k : κ) (v : β) (entries : List (κ × β)) :
    get j (assign k v entries) = if j = k then some v else get j entries := by
  split
  next h => rw [h, get_assign_self]
  next h => exact get_assign_ne h v entries

theorem mem_of_get {k : κ} {v : β} {entries : List (κ × β)} (h : get k entries = some v) : (k, v) ∈ entries := by
  induction entries with
  | nil => cases h
  | cons entry entries ih =>
      obtain ⟨x, w⟩ := entry
      rw [get] at h
      split at h
      next hx =>
        obtain rfl := Option.some.inj h
        exact hx ▸ List.mem_cons_self
      next => exact List.mem_cons_of_mem _ (ih h)

theorem get_of_mem {k : κ} {v : β} {entries : List (κ × β)} (hnodup : (entries.map Prod.fst).Nodup) (h : (k, v) ∈ entries) :
    get k entries = some v := by
  induction entries with
  | nil => cases h
  | cons entry entries ih =>
      obtain ⟨x, w⟩ := entry
      obtain ⟨hfirst, hnodup⟩ := List.nodup_cons.mp hnodup
      rw [get]
      rcases List.mem_cons.mp h with he | hmem
      · obtain ⟨rfl, rfl⟩ := Prod.mk.inj he
        exact if_pos rfl
      · have hne : x ≠ k := by
          rintro rfl
          exact hfirst (List.mem_map.mpr ⟨_, hmem, rfl⟩)
        rw [if_neg hne]
        exact ih hnodup hmem

theorem keys_assign (k : κ) (v : β) (entries : List (κ × β)) (x : κ) :
    x ∈ (assign k v entries).map Prod.fst ↔ x = k ∨ x ∈ entries.map Prod.fst := by
  induction entries with
  | nil => simp [assign]
  | cons entry entries ih =>
      obtain ⟨y, w⟩ := entry
      by_cases hy : y = k
      · simp [assign, hy]
      · simp only [assign, if_neg hy, List.map_cons, List.mem_cons, ih]
        tauto

theorem nodup_assign (k : κ) (v : β) {entries : List (κ × β)} (h : (entries.map Prod.fst).Nodup) :
    ((assign k v entries).map Prod.fst).Nodup := by
  induction entries with
  | nil => exact List.nodup_singleton k
  | cons entry entries ih =>
      obtain ⟨y, w⟩ := entry
      obtain ⟨hfirst, hnodup⟩ := List.nodup_cons.mp h
      by_cases hy : y = k
      · rw [assign, if_pos hy]
        exact h
      · simp only [assign, if_neg hy, List.map_cons, List.nodup_cons, keys_assign, not_or]
        exact ⟨⟨hy, hfirst⟩, ih hnodup⟩

theorem get_drop (j k : κ) (entries : List (κ × β)) : get j (drop k entries) = if j = k then none else get j entries := by
  induction entries with
  | nil => simp [drop]
  | cons entry entries ih =>
      obtain ⟨x, w⟩ := entry
      unfold drop at ih ⊢
      by_cases hx : x = k
      · rw [List.filter_cons_of_neg (by simpa using hx), ih]
        split
        next => rfl
        next hj => simp [get, hx, Ne.symm hj]
      · rw [List.filter_cons_of_pos (by simpa using hx), get, ih, get]
        split
        next hj => simp [← hj, hx]
        next => rfl

end Galadril.Lib.Dictionary
