import Galadril.Json.Value

namespace Galadril.Json

def Number.canon : Number → Number
  | .float text => .float (if text = "-0.0" then "0.0" else text)
  | n => n

namespace Members

def insertSorted (key : String) (v : Value) : Members → Members
  | [] => [(key, v)]
  | (k, w) :: rest =>
      if key < k then (key, v) :: (k, w) :: rest
      else if key = k then (key, v) :: rest
      else (k, w) :: insertSorted key v rest

end Members

namespace Value

mutual

/-- The representative of a document under JSON equality: members sorted by
key at every level and one spelling for each number. -/
def canon : Value → Value
  | .number n => .number n.canon
  | .array items => .array (canonItems items)
  | .object members => .object (canonMembers members)
  | .null => .null
  | .bool b => .bool b
  | .string s => .string s

def canonItems : List Value → List Value
  | [] => []
  | v :: rest => canon v :: canonItems rest

def canonMembers : Members → Members
  | [] => []
  | (k, v) :: rest => Members.insertSorted k (canon v) (canonMembers rest)

end

/-- JSON equality: the order of members is irrelevant. -/
instance : Setoid Value where
  r a b := a.canon = b.canon
  iseqv := ⟨fun _ => rfl, Eq.symm, Eq.trans⟩

instance : BEq Value := ⟨fun a b => decide (a.canon = b.canon)⟩

instance (a b : Value) : Decidable (a ≈ b) := inferInstanceAs (Decidable (a.canon = b.canon))

theorem equiv_iff {a b : Value} : a ≈ b ↔ a.canon = b.canon := Iff.rfl

@[simp] theorem beq_iff {a b : Value} : (a == b) = true ↔ a ≈ b := by
  change decide (a.canon = b.canon) = true ↔ _
  simp

end Value

open Value

/-- JSON equality of possibly absent values. -/
def Same (a b : Option Value) : Prop := a.map canon = b.map canon

@[simp] theorem Same.refl (a : Option Value) : Same a a := rfl

theorem Same.symm {a b : Option Value} (h : Same a b) : Same b a := Eq.symm h

theorem Same.trans {a b c : Option Value} (h : Same a b) (h' : Same b c) : Same a c := Eq.trans h h'

instance (a b : Option Value) : Decidable (Same a b) := inferInstanceAs (Decidable (a.map canon = b.map canon))

@[simp] theorem same_some {a b : Value} : Same (some a) (some b) ↔ a ≈ b := by
  simp [Same]

@[simp] theorem same_none_left {a : Option Value} : Same none a ↔ a = none := by
  cases a <;> simp [Same]

@[simp] theorem same_none_right {a : Option Value} : Same a none ↔ a = none := by
  cases a <;> simp [Same]

@[simp] theorem option_beq_iff {a b : Option Value} : (a == b) = true ↔ Same a b := by
  cases a <;> cases b <;> simp

namespace Members

theorem field_insertSorted (key k : String) (v : Value) (m : Members) :
    field (insertSorted key v m) k = if key = k then some v else field m k := by
  induction m with
  | nil => rfl
  | cons p m ih =>
      obtain ⟨l, w⟩ := p
      unfold insertSorted
      split
      · rfl
      · split
        next hkl => subst hkl; simp only [field]; split <;> rfl
        next hkl =>
          simp only [field, ih]
          by_cases hl : l = k
          · subst hl
            simp [hkl]
          · simp [hl]

def Sorted (m : Members) : Prop := m.Pairwise (fun p q => p.1 < q.1)

theorem mem_insertSorted {key : String} {v : Value} {m : Members} {p : String × Value}
    (h : p ∈ insertSorted key v m) : p = (key, v) ∨ p ∈ m := by
  induction m with
  | nil => simpa [insertSorted] using h
  | cons q m ih =>
      obtain ⟨k, w⟩ := q
      unfold insertSorted at h
      split at h
      · simpa using h
      · split at h
        next hk => subst hk; simp only [List.mem_cons] at h ⊢; tauto
        next hk =>
          simp only [List.mem_cons] at h ⊢
          rcases h with h | h
          · exact .inr (.inl h)
          · have := ih h
            tauto

theorem sorted_insertSorted {key : String} {v : Value} {m : Members} (h : Sorted m) :
    Sorted (insertSorted key v m) := by
  induction m with
  | nil => simp [insertSorted, Sorted]
  | cons q m ih =>
      obtain ⟨k, w⟩ := q
      obtain ⟨hk, hm⟩ := List.pairwise_cons.mp h
      unfold insertSorted
      split
      next hlt =>
        refine List.pairwise_cons.mpr ⟨fun p hp => ?_, h⟩
        rcases List.mem_cons.mp hp with rfl | hp
        · exact hlt
        · exact hlt.trans (hk p hp)
      next hlt =>
        split
        next he => subst he; exact List.pairwise_cons.mpr ⟨hk, hm⟩
        next he =>
          refine List.pairwise_cons.mpr ⟨fun p hp => ?_, ih hm⟩
          rcases mem_insertSorted hp with rfl | hp
          · exact lt_of_le_of_ne (not_lt.mp hlt) (Ne.symm he)
          · exact hk p hp

theorem field_eq_none_of_lt {m : Members} {key : String} (h : ∀ p ∈ m, key < p.1) : field m key = none := by
  induction m with
  | nil => rfl
  | cons q m ih =>
      have hq : q.1 ≠ key := (h q List.mem_cons_self).ne'
      rw [field, if_neg hq]
      exact ih (fun p hp => h p (List.mem_cons_of_mem _ hp))

theorem Sorted.ext {m n : Members} (hm : Sorted m) (hn : Sorted n)
    (h : ∀ key, field m key = field n key) : m = n := by
  induction m generalizing n with
  | nil =>
      cases n with
      | nil => rfl
      | cons q n => simpa [field] using h q.1
  | cons p m ih =>
      cases n with
      | nil => simpa [field] using h p.1
      | cons q n =>
          obtain ⟨hp, hm'⟩ := List.pairwise_cons.mp hm
          obtain ⟨hq, hn'⟩ := List.pairwise_cons.mp hn
          have hpq : p.1 = q.1 := by
            by_contra hne
            rcases lt_or_gt_of_ne hne with hlt | hlt
            · have h1 := h p.1
              rw [field, if_pos rfl, field, if_neg (Ne.symm hne),
                field_eq_none_of_lt (fun a ha => hlt.trans (hq a ha))] at h1
              cases h1
            · have h1 := h q.1
              rw [field, if_neg hne, field_eq_none_of_lt (fun a ha => hlt.trans (hp a ha)),
                field, if_pos rfl] at h1
              cases h1
          have hv : p.2 = q.2 := by
            have h1 := h p.1
            rw [field, if_pos rfl, field, if_pos hpq.symm] at h1
            exact Option.some.inj h1
          obtain rfl : p = q := Prod.ext hpq hv
          congr 1
          refine ih hm' hn' fun key => ?_
          by_cases hk : p.1 = key
          · subst hk
            rw [field_eq_none_of_lt hp, field_eq_none_of_lt hq]
          · have h1 := h key
            rwa [field, field, if_neg hk, if_neg hk] at h1

end Members

namespace Value

theorem field_canonMembers (m : Members) (key : String) :
    Members.field (canonMembers m) key = (Members.field m key).map canon := by
  induction m with
  | nil => rfl
  | cons p m ih =>
      obtain ⟨k, v⟩ := p
      rw [canonMembers, Members.field_insertSorted, ih, Members.field]
      split <;> rfl

theorem sorted_canonMembers (m : Members) : Members.Sorted (canonMembers m) := by
  induction m with
  | nil => exact List.Pairwise.nil
  | cons p m ih => exact Members.sorted_insertSorted ih

theorem object_equiv {m n : Members} :
    Value.object m ≈ Value.object n ↔ ∀ key, Same (Members.field m key) (Members.field n key) := by
  rw [equiv_iff, canon, canon, Value.object.injEq]
  constructor
  · intro h key
    rw [Same, ← field_canonMembers, ← field_canonMembers, h]
  · intro h
    refine (sorted_canonMembers m).ext (sorted_canonMembers n) fun key => ?_
    rw [field_canonMembers, field_canonMembers]
    exact h key

theorem canonItems_eq_map (items : List Value) : canonItems items = items.map canon := by
  induction items with
  | nil => rfl
  | cons v items ih => rw [canonItems, ih, List.map_cons]

theorem array_equiv {a b : List Value} : Value.array a ≈ Value.array b ↔ List.Forall₂ (· ≈ ·) a b := by
  rw [equiv_iff, canon, canon, Value.array.injEq, canonItems_eq_map, canonItems_eq_map]
  induction a generalizing b with
  | nil => cases b <;> simp
  | cons x a ih =>
      cases b with
      | nil => simp
      | cons y b => simp [ih]

@[simp] theorem get_canon (v : Value) (key : String) : v.canon.get key = (v.get key).map canon := by
  cases v <;> simp [canon, get, field_canonMembers]

theorem get_same {a b : Value} (h : a ≈ b) (key : String) : Same (a.get key) (b.get key) := by
  rw [Same, ← get_canon, ← get_canon, equiv_iff.mp h]

@[simp] theorem asStr_canon (v : Value) : v.canon.asStr = v.asStr := by
  cases v <;> rfl

@[simp] theorem asBool_canon (v : Value) : v.canon.asBool = v.asBool := by
  cases v <;> rfl

@[simp] theorem isNull_canon (v : Value) : v.canon.isNull = v.isNull := by
  cases v <;> rfl

@[simp] theorem asArray_canon (v : Value) : v.canon.asArray = v.asArray.map (List.map canon) := by
  cases v <;> simp [canon, asArray, canonItems_eq_map]

@[simp] theorem asObject_canon (v : Value) : v.canon.asObject = v.asObject.map canonMembers := by
  cases v <;> simp [canon, asObject]

@[simp] theorem getStr_canon (v : Value) (key : String) : v.canon.getStr key = v.getStr key := by
  rw [getStr, getStr, get_canon]
  cases v.get key <;> simp

@[simp] theorem getArray_canon (v : Value) (key : String) :
    v.canon.getArray key = (v.getArray key).map (List.map canon) := by
  rw [getArray, getArray, get_canon]
  cases v.get key <;> simp

end Value

end Galadril.Json
