import Galadril.Json.Path

namespace Galadril.Json

namespace Value

mutual

def keyed : Value → Bool
  | .array items => keyedItems items
  | .object members => decide (Members.keys members).Nodup && keyedMembers members
  | _ => true

def keyedItems : List Value → Bool
  | [] => true
  | v :: rest => keyed v && keyedItems rest

def keyedMembers : Members → Bool
  | [] => true
  | (_, v) :: rest => keyed v && keyedMembers rest

end

theorem keyed_of_mem {items : List Value} (h : (Value.array items).keyed = true) {v : Value} (hv : v ∈ items) :
    v.keyed = true := by
  rw [keyed] at h
  induction items with
  | nil => cases hv
  | cons w items ih =>
      rw [keyedItems, Bool.and_eq_true] at h
      rcases List.mem_cons.mp hv with rfl | hv
      · exact h.1
      · exact ih h.2 hv

theorem keyed_keys {m : Members} (h : (Value.object m).keyed = true) : (Members.keys m).Nodup := by
  rw [keyed, Bool.and_eq_true, decide_eq_true_eq] at h
  exact h.1

theorem keyed_get {v w : Value} {key : String} (h : v.keyed = true) (hw : v.get key = some w) : w.keyed = true := by
  cases v with
  | object m =>
      rw [keyed, Bool.and_eq_true] at h
      replace h := h.2
      rw [get] at hw
      induction m with
      | nil => cases hw
      | cons p m ih =>
          obtain ⟨k, x⟩ := p
          rw [keyedMembers, Bool.and_eq_true] at h
          rw [Members.field] at hw
          split at hw
          · obtain rfl := Option.some.inj hw
            exact h.1
          · exact ih hw h.2
  | null | bool | number | string | array => cases hw

end Value

abbrev Document := { v : Value // v.keyed = true }

namespace Members

theorem mem_of_field {m : Members} {key : String} {v : Value} (h : field m key = some v) : (key, v) ∈ m := by
  induction m with
  | nil => cases h
  | cons p m ih =>
      obtain ⟨l, w⟩ := p
      rw [field] at h
      split at h
      · next hl =>
          obtain rfl := Option.some.inj h
          exact hl ▸ List.mem_cons_self
      · exact List.mem_cons_of_mem _ (ih h)

theorem field_of_mem {m : Members} (hm : (keys m).Nodup) {key : String} {v : Value} (h : (key, v) ∈ m) :
    field m key = some v := by
  induction m with
  | nil => cases h
  | cons p m ih =>
      obtain ⟨l, w⟩ := p
      rw [keys, List.map_cons, List.nodup_cons] at hm
      rw [field]
      rcases List.mem_cons.mp h with he | h
      · cases he
        rw [if_pos rfl]
      · rw [if_neg, ih hm.2 h]
        intro hl
        exact hm.1 (hl ▸ List.mem_map.mpr ⟨_, h, rfl⟩)

theorem field_eq_some_iff {m : Members} (hm : (keys m).Nodup) {key : String} {v : Value} :
    field m key = some v ↔ (key, v) ∈ m := ⟨mem_of_field, field_of_mem hm⟩

/-- The order of members matters only where keys repeat. -/
theorem field_perm {m n : Members} (h : m.Perm n) (hm : (keys m).Nodup) (key : String) : field m key = field n key := by
  have hn : (keys n).Nodup := (h.map _).nodup_iff.mp hm
  refine Option.ext fun v => ?_
  rw [field_eq_some_iff hm, field_eq_some_iff hn, h.mem_iff]

theorem nodup_insert {m : Members} (hm : (keys m).Nodup) (key : String) (v : Value) : (keys (insert key v m)).Nodup := by
  have hmem : ∀ (m : Members) k, k ∈ keys (insert key v m) → k = key ∨ k ∈ keys m := by
    intro m
    induction m with
    | nil => simp [insert, keys]
    | cons p m ih =>
        obtain ⟨l, w⟩ := p
        intro k hk
        rw [insert] at hk
        split at hk
        next hl =>
          subst hl
          exact .inr (by simpa [keys] using hk)
        next hl =>
          rcases List.mem_cons.mp hk with rfl | hk
          · exact .inr List.mem_cons_self
          · exact (ih k hk).imp_right (List.mem_cons_of_mem _)
  induction m with
  | nil => simp [insert, keys]
  | cons p m ih =>
      obtain ⟨l, w⟩ := p
      rw [keys, List.map_cons, List.nodup_cons] at hm
      rw [insert]
      split
      next hl =>
        subst hl
        rw [keys, List.map_cons, List.nodup_cons]
        exact hm
      next hl =>
        rw [keys, List.map_cons, List.nodup_cons]
        refine ⟨fun hk => ?_, ih hm.2⟩
        rcases hmem m l hk with rfl | hk
        · exact hl rfl
        · exact hm.1 hk

/-- Removal takes away one member and keeps the others. -/
theorem swapRemove_perm {m : Members} {key : String} {v : Value} (h : field m key = some v) :
    ∃ rest, m.Perm ((key, v) :: rest) ∧ (swapRemove key m).Perm rest := by
  obtain ⟨before, after, rfl, hbefore⟩ : ∃ before after, m = before ++ (key, v) :: after ∧ key ∉ keys before := by
    induction m with
    | nil => cases h
    | cons p m ih =>
        obtain ⟨l, w⟩ := p
        rw [field] at h
        split at h
        next hl =>
          obtain rfl := Option.some.inj h
          exact ⟨[], m, by rw [hl]; rfl, by simp [keys]⟩
        next hl =>
          obtain ⟨before, after, rfl, hb⟩ := ih h
          refine ⟨(l, w) :: before, after, rfl, ?_⟩
          simpa [keys, Ne.symm hl] using hb
  have hidx : (before ++ (key, v) :: after).findIdx? (fun p => p.1 = key) = some before.length := by
    rw [List.findIdx?_append, List.findIdx?_eq_none_iff.mpr]
    · simp [List.findIdx?_cons]
    · intro p hp
      simp only [decide_eq_false_iff_not]
      rintro rfl
      exact hbefore (List.mem_map_of_mem hp)
  refine ⟨before ++ after, List.perm_middle, ?_⟩
  rcases after.eq_nil_or_concat' with rfl | ⟨after, last, rfl⟩
  · simp [swapRemove, hidx]
  · have hlast : (before ++ (key, v) :: (after ++ [last])).getLast? = some last := by
      rw [show before ++ (key, v) :: (after ++ [last]) = (before ++ (key, v) :: after) ++ [last] by simp]
      exact List.getLast?_concat
    rw [swapRemove, hidx, hlast]
    have hne : before.length + 1 ≠ (before ++ (key, v) :: (after ++ [last])).length := by simp
    simp only [hne, if_false, List.set_append_right, le_refl, Nat.sub_self, List.set_cons_zero]
    rw [show before ++ last :: (after ++ [last]) = (before ++ last :: after) ++ [last] by simp, List.dropLast_concat]
    refine List.Perm.append_left before ?_
    exact (List.perm_append_singleton last after).symm

theorem field_swapRemove {m : Members} (hm : (keys m).Nodup) {key : String} {v : Value} (h : field m key = some v)
    (k : String) : field (swapRemove key m) k = if k = key then none else field m k := by
  obtain ⟨rest, hperm, hremoved⟩ := swapRemove_perm h
  have hnd : (keys ((key, v) :: rest)).Nodup := (hperm.map _).nodup_iff.mp hm
  rw [keys, List.map_cons, List.nodup_cons] at hnd
  rw [field_perm hremoved ((hremoved.map _).nodup_iff.mpr hnd.2), field_perm hperm hm, field]
  by_cases hk : k = key
  · subst hk
    rw [if_pos rfl]
    cases hf : field rest k with
    | none => rfl
    | some w => exact absurd (List.mem_map_of_mem (mem_of_field hf)) hnd.1
  · rw [if_neg hk, if_neg (Ne.symm hk)]

end Members

end Galadril.Json
