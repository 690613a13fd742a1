import Galadril.Json.Path

namespace Galadril.Json.Value

theorem asStr_eq_some {v : Value} {s : String} : v.asStr = some s ↔ v = .string s := by
  cases v <;> simp [asStr]

theorem asObject_eq_some {v : Value} {m : Members} : v.asObject = some m ↔ v = .object m := by
  cases v <;> simp [asObject]

theorem asArray_eq_some {v : Value} {items : List Value} : v.asArray = some items ↔ v = .array items := by
  cases v <;> simp [asArray]

end Galadril.Json.Value

namespace Galadril.Json.Members

theorem insert_insert (m : Members) (key : String) (v w : Value) : insert key v (insert key w m) = insert key v m := by
  induction m with
  | nil => simp [insert]
  | cons p m ih =>
      obtain ⟨k, x⟩ := p
      by_cases hk : k = key
      · simp [insert, hk]
      · simp [insert, hk, ih]

theorem insert_field {m : Members} {key : String} {v : Value} (h : field m key = some v) : insert key v m = m := by
  induction m with
  | nil => cases h
  | cons p m ih =>
      obtain ⟨k, x⟩ := p
      rw [field] at h
      by_cases hk : k = key
      · rw [if_pos hk] at h
        obtain rfl := Option.some.inj h
        simp [insert, hk]
      · rw [if_neg hk] at h
        simp [insert, hk, ih h]

theorem insert_absent {m : Members} {key : String} (h : field m key = none) (v : Value) :
    insert key v m = m ++ [(key, v)] := by
  induction m with
  | nil => rfl
  | cons p m ih =>
      obtain ⟨k, x⟩ := p
      rw [field] at h
      by_cases hk : k = key
      · simp [hk] at h
      · rw [if_neg hk] at h
        simp [insert, hk, ih h]

theorem insert_new {m : Members} {key : String} (h : key ∉ keys m) (v : Value) : insert key v m = m ++ [(key, v)] := by
  refine insert_absent ?_ v
  rwa [← Option.isNone_iff_eq_none, ← Option.isSome_eq_false_iff, ← Bool.not_eq_true, field_isSome]

/-- Members that are already there can be replaced in any order. -/
theorem insert_comm {m : Members} {k l : String} (hne : k ≠ l) (hk : k ∈ keys m) (v w : Value) :
    insert k v (insert l w m) = insert l w (insert k v m) := by
  induction m with
  | nil => simp [keys] at hk
  | cons p m ih =>
      obtain ⟨x, y⟩ := p
      by_cases hxk : x = k
      · subst hxk
        simp [insert, hne]
      · by_cases hxl : x = l
        · subst hxl
          simp [insert, Ne.symm hne]
        · have hk' : k ∈ keys m := by
            simpa [keys, Ne.symm hxk] using hk
          simp [insert, hxk, hxl, ih hk']

end Galadril.Json.Members
