import Mathlib

namespace Galadril.Lib.Lookup

variable {α κ : Type} [DecidableEq κ] {key : α → κ} {l : List α}

/-- Lookup by a key that is unique in the list. -/
theorem find?_eq_some_iff_of_nodup (hnd : (l.map key).Nodup) {k : κ} {a : α} :
    l.find? (fun x => key x = k) = some a ↔ a ∈ l ∧ key a = k := by
  constructor
  · intro h
    exact ⟨List.mem_of_find?_eq_some h, by simpa using List.find?_some h⟩
  · rintro ⟨hm, rfl⟩
    induction l with
    | nil => simp at hm
    | cons x l ih =>
        rw [List.map_cons, List.nodup_cons] at hnd
        rcases List.mem_cons.mp hm with rfl | hm
        · simp
        · have hx : key x ≠ key a := fun he => hnd.1 (he ▸ List.mem_map_of_mem hm)
          simpa [hx] using ih hnd.2 hm

variable {β : Type} {values : List β}

/-- A list in which no value comes after itself. -/
theorem nodup_of_fresh (h : ∀ before x after, values = before ++ x :: after → x ∉ before) : values.Nodup := by
  induction values using List.reverseRecOn with
  | nil => exact List.nodup_nil
  | append_singleton values x ih =>
      rw [← List.concat_eq_append, List.nodup_concat]
      refine ⟨h values x [] rfl, ih fun before y after heq => ?_⟩
      exact h before y (after ++ [x]) (by rw [heq]; simp)

variable [DecidableEq β]

theorem nodup_eraseDups (values : List β) : values.eraseDups.Nodup := by
  induction hn : values.length using Nat.strong_induction_on generalizing values with
  | h n ih =>
      cases values with
      | nil => exact List.nodup_nil
      | cons v values =>
          rw [List.eraseDups_cons, List.nodup_cons]
          refine ⟨fun hmem => ?_, ih _ ?_ _ rfl⟩
          · simpa using (List.mem_filter.mp (List.mem_eraseDups.mp hmem)).2
          · rw [← hn, List.length_cons]
            exact Nat.lt_succ_of_le (List.length_filter_le _ _)

theorem eraseDups_of_nodup (h : values.Nodup) : values.eraseDups = values := by
  induction values with
  | nil => rfl
  | cons v values ih =>
      obtain ⟨hv, hrest⟩ := List.nodup_cons.mp h
      have hfilter : (values.filter fun b => !b == v) = values := by
        rw [List.filter_eq_self]
        rintro b hb
        have hne : b ≠ v := by
          rintro rfl
          exact hv hb
        simpa using hne
      rw [List.eraseDups_cons, hfilter, ih hrest]

end Galadril.Lib.Lookup
