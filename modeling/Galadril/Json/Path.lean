import Galadril.Json.Equality

namespace Galadril.Json

namespace Value

mutual

def depth : Value → Nat
  | .object members => membersDepth members + 1
  | .null | .bool _ | .number _ | .string _ | .array _ => 0

def membersDepth : Members → Nat
  | [] => 0
  | (_, v) :: rest => max (depth v) (membersDepth rest)

end

end Value

def optDepth : Option Value → Nat
  | none => 0
  | some v => v.depth + 1

theorem optDepth_field_lt (m : Members) (key : String) :
    optDepth (Members.field m key) < optDepth (some (.object m)) := by
  have hle : optDepth (Members.field m key) ≤ Value.membersDepth m + 1 := by
    induction m with
    | nil => simp [Members.field, optDepth]
    | cons p m ih =>
        obtain ⟨k, v⟩ := p
        rw [Members.field]
        split
        · simp [optDepth, Value.membersDepth]
        · exact ih.trans (by simp [Value.membersDepth])
  simpa [optDepth, Value.depth, Nat.lt_succ_iff] using hle

theorem depth_lt_of_field {m : Members} {key : String} {v : Value} (h : Members.field m key = some v) :
    v.depth < (Value.object m).depth := by
  have := optDepth_field_lt m key
  rw [h] at this
  simpa [optDepth] using this

namespace Value

theorem getStr_eq_some {v : Value} {key s : String} : v.getStr key = some s ↔ v.get key = some (.string s) := by
  rw [getStr, Option.bind_eq_some_iff]
  constructor
  · rintro ⟨w, hw, hs⟩
    cases w <;> simp_all [asStr]
  · intro h
    exact ⟨_, h, rfl⟩

theorem getArray_eq_some {v : Value} {key : String} {items : List Value} :
    v.getArray key = some items ↔ v.get key = some (.array items) := by
  rw [getArray, Option.bind_eq_some_iff]
  constructor
  · rintro ⟨w, hw, hs⟩
    cases w <;> simp_all [asArray]
  · intro h
    exact ⟨_, h, rfl⟩

end Value

def descend : Option Value → List String → Option Value
  | v, [] => v
  | v, key :: path => descend (v.bind (·.get key)) path

@[simp] theorem descend_nil (v : Option Value) : descend v [] = v := rfl

@[simp] theorem descend_none (path : List String) : descend none path = none := by
  induction path with
  | nil => rfl
  | cons key path ih => simpa [descend] using ih

@[simp] theorem descend_object (m : Members) (key : String) (path : List String) :
    descend (some (.object m)) (key :: path) = descend (Members.field m key) path := rfl

theorem Same.bind_get {a b : Option Value} (h : Same a b) (key : String) :
    Same (a.bind (·.get key)) (b.bind (·.get key)) := by
  cases a with
  | none =>
      rw [same_none_left.mp h]
      exact Same.refl _
  | some a =>
      cases b with
      | none => simp at h
      | some b => exact Value.get_same (same_some.mp h) key

/-- Equal documents agree at every path. -/
theorem Same.descend {a b : Option Value} (h : Same a b) (path : List String) :
    Same (descend a path) (descend b path) := by
  induction path generalizing a b with
  | nil => exact h
  | cons key path ih => exact ih (h.bind_get key)

theorem same_string {a : Option Value} {s : String} : Same a (some (.string s)) ↔ a = some (.string s) := by
  constructor
  · intro h
    cases a with
    | none => simp at h
    | some v =>
        have hv := same_some.mp h
        cases v <;> simp_all [Value.canon]
  · rintro rfl
    exact .refl _

namespace Members

theorem field_isSome {m : Members} {key : String} : (field m key).isSome = true ↔ key ∈ keys m := by
  induction m with
  | nil => simp [field, keys]
  | cons p m ih =>
      obtain ⟨k, v⟩ := p
      simp only [keys] at ih
      simp only [field, keys, List.map_cons, List.mem_cons]
      by_cases hk : k = key
      · simp [hk]
      · simp [hk, Ne.symm hk, ih]

@[simp] theorem field_insert (m : Members) (key k : String) (v : Value) :
    field (insert key v m) k = if key = k then some v else field m k := by
  induction m with
  | nil => rfl
  | cons p m ih =>
      obtain ⟨l, w⟩ := p
      unfold insert
      split
      next hl => subst hl; simp only [field]; split <;> rfl
      next hl =>
        simp only [field, ih]
        by_cases hk : l = k
        · subst hk
          simp [Ne.symm hl]
        · simp [hk]

theorem field_filter_ne (m : Members) (key k : String) :
    field (m.filter fun p => p.1 ≠ key) k = if key = k then none else field m k := by
  induction m with
  | nil => simp [field]
  | cons p m ih =>
      obtain ⟨l, w⟩ := p
      by_cases hl : l = key
      · subst hl
        rw [List.filter_cons_of_neg (by simp), ih, field]
        by_cases hk : l = k <;> simp [hk]
      · rw [List.filter_cons_of_pos (by simpa using hl), field, field, ih]
        by_cases hk : l = k
        · subst hk
          simp [Ne.symm hl]
        · simp [hk]

def unionKeys (ms : List Members) : List String := (Std.ExtTreeSet.ofList (ms.flatMap keys)).toList

theorem mem_unionKeys {ms : List Members} {key : String} :
    key ∈ unionKeys ms ↔ ∃ m ∈ ms, (field m key).isSome = true := by
  simp [unionKeys, Std.ExtTreeSet.mem_toList, Std.ExtTreeSet.mem_ofList, field_isSome]

theorem sorted_unionKeys (ms : List Members) : (unionKeys ms).Pairwise (· < ·) :=
  Std.ExtTreeSet.ordered_toList.imp compare_lt_iff_lt.mp

theorem unionKeys_congr {ms ns : List Members} (h : ∀ m, m ∈ ms ↔ m ∈ ns) : unionKeys ms = unionKeys ns := by
  refine congrArg Std.ExtTreeSet.toList (Std.ExtTreeSet.ext_mem fun key => ?_)
  simp [Std.ExtTreeSet.mem_ofList, h]

def collect (ks : List String) (f : String → Option Value) : Members :=
  ks.filterMap fun key => (f key).map fun v => (key, v)

theorem field_collect (ks : List String) (f : String → Option Value) (key : String) :
    field (collect ks f) key = if key ∈ ks then f key else none := by
  induction ks with
  | nil => rfl
  | cons k ks ih =>
      unfold collect at ih ⊢
      cases hk : f k with
      | none =>
          rw [List.filterMap_cons_none (by simp [hk]), ih]
          by_cases he : key = k
          · subst he
            simp [hk]
          · simp [he]
      | some v =>
          rw [List.filterMap_cons_some (b := (k, v)) (by simp [hk]), field, ih]
          by_cases he : key = k
          · subst he
            simp [hk]
          · simp [he, Ne.symm he]

end Members

end Galadril.Json
