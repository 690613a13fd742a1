import Galadril.Json.Text
import Galadril.Lib.Sha256

namespace Galadril.Json

open Lib.Sha256

namespace Value

def written (text : List Char) : Nat := (text.flatMap String.utf8EncodeChar).length

def size (v : Value) : Nat := v.toVec.length

theorem written_append (a b : List Char) : written (a ++ b) = written a + written b := by
  simp [written]

theorem written_cons (c : Char) (a : List Char) : written (c :: a) = written [c] + written a := written_append [c] a

theorem size_eq (v : Value) : v.size = written v.render := rfl

theorem utf8ByteSize_eq (s : String) : s.utf8ByteSize = written s.toList := by
  rw [← String.utf8Len_toList]
  induction s.toList with
  | nil => rfl
  | cons c cs ih =>
      have hc : written [c] = c.utf8Size := by
        rw [written, List.flatMap_singleton, String.length_utf8EncodeChar]
      rw [String.utf8Len_cons, ih, written_cons, hc, Nat.add_comm]

/-- Every item comes with one comma, the last one excepted. -/
theorem written_items (items : List Value) : written (renderItems items) = (items.map fun v => v.size + 1).sum - 1 := by
  induction items with
  | nil => simp [renderItems, written]
  | cons v items ih =>
      cases items with
      | nil => simp [renderItems, size_eq]
      | cons w rest =>
          have hcomma : written [','] = 1 := rfl
          rw [renderItems, written_append, written_cons, hcomma, ih, ← size_eq]
          · simp only [List.map_cons, List.sum_cons]
            omega
          · simp

theorem written_members (members : Members) :
    written (renderMembers members) = (members.map fun p => written (quoted p.1) + 2 + p.2.size).sum - 1 := by
  induction members with
  | nil => simp [renderMembers, written]
  | cons p members ih =>
      obtain ⟨k, v⟩ := p
      have hcomma : written [','] = 1 := rfl
      have hcolon : written [':'] = 1 := rfl
      cases members with
      | nil =>
          rw [renderMembers, written_append, written_cons, hcolon, List.map_singleton, List.sum_singleton, ← size_eq]
          simp only
          omega
      | cons q rest =>
          rw [renderMembers, List.append_assoc, List.cons_append, written_append, written_cons ':', written_append,
            written_cons ',',
            hcomma, hcolon, ih, ← size_eq]
          · simp only [List.map_cons, List.sum_cons]
            omega
          · simp

theorem size_array (items : List Value) : (Value.array items).size = written ['['] +
    ((items.map fun v => v.size + 1).sum - 1) + written [']'] := by
  rw [size_eq, render, written_append, written_cons, written_items]

theorem size_array_congr {items items' : List Value} (h : List.Forall₂ (fun v w : Value => v.size = w.size) items items') :
    (Value.array items).size = (Value.array items').size := by
  have hsum : (items.map fun v => v.size + 1) = items'.map fun v => v.size + 1 := by
    induction h with
    | nil => rfl
    | cons hx _ ih => rw [List.map_cons, List.map_cons, hx, ih]
  rw [size_array, size_array, hsum]

theorem size_array_perm {items items' : List Value} (h : items.Perm items') :
    (Value.array items).size = (Value.array items').size := by
  rw [size_array, size_array, (h.map fun v => v.size + 1).sum_eq]

theorem size_object (members : Members) : (Value.object members).size =
    2 + ((members.map fun p => written (quoted p.1) + 2 + p.2.size).sum - 1) := by
  have hopen : written [Char.ofNat 123] = 1 := rfl
  have hclose : written [Char.ofNat 125] = 1 := rfl
  rw [size_eq, render, written_append, written_cons, written_members, hopen, hclose]
  omega

theorem size_object_congr {m m' : Members} (h : List.Forall₂ (fun p q => p.1 = q.1 ∧ p.2.size = q.2.size) m m') :
    (Value.object m).size = (Value.object m').size := by
  have hsum : (m.map fun p => written (quoted p.1) + 2 + p.2.size) = m'.map fun p => written (quoted p.1) + 2 + p.2.size := by
    induction h with
    | nil => rfl
    | cons hp _ ih => rw [List.map_cons, List.map_cons, hp.1, hp.2, ih]
  rw [size_object, size_object, hsum]

theorem size_string (s : String) : (Value.string s).size = 2 + written (s.toList.flatMap escapeChar) := by
  have hmark : written [Char.ofNat 34] = 1 := rfl
  rw [size_eq, render, quoted, written_append, written_cons, hmark]
  omega

def Plain (c : Char) : Prop := escapeChar c = [c] ∧ c.utf8Size = 1

instance (c : Char) : Decidable (Plain c) := inferInstanceAs (Decidable (_ ∧ _))

theorem written_plain {cs : List Char} (h : ∀ c ∈ cs, Plain c) : written (cs.flatMap escapeChar) = cs.length := by
  induction cs with
  | nil => rfl
  | cons c cs ih =>
      obtain ⟨⟨hescape, hsize⟩, hrest⟩ := List.forall_mem_cons.mp h
      have hc : written [c] = 1 := by
        rw [written, List.flatMap_singleton, String.length_utf8EncodeChar, hsize]
      rw [List.flatMap_cons, hescape, written_append, ih hrest, hc, List.length_cons, Nat.add_comm]

theorem hexDigits_plain : ∀ c ∈ hexDigits, Plain c := by
  intro c hc
  fin_cases hc <;> exact ⟨rfl, rfl⟩

theorem size_digits {s : String} (h : ∀ c ∈ s.toList, c ∈ hexDigits) : (string s).size = 2 + s.toList.length := by
  rw [size_string, written_plain fun c hc => hexDigits_plain c (h c hc)]

theorem utf8ByteSize_plain {s : String} (h : ∀ c ∈ s.toList, Plain c) : s.utf8ByteSize = s.toList.length := by
  have hescape : s.toList.flatMap escapeChar = s.toList := by
    rw [List.flatMap_congr fun c hc => (h c hc).1, List.flatMap_singleton']
  rw [utf8ByteSize_eq, ← written_plain h, hescape]

theorem size_insert {m : Members} {key : String} {v w : Value} (h : Members.field m key = some v) (hw : v.size = w.size) :
    (Value.object (Members.insert key w m)).size = (Value.object m).size := by
  have hsum : ((Members.insert key w m).map fun p => written (quoted p.1) + 2 + p.2.size) =
      m.map fun p => written (quoted p.1) + 2 + p.2.size := by
    induction m with
    | nil => cases h
    | cons p m ih =>
        obtain ⟨k, u⟩ := p
        rw [Members.field] at h
        rw [Members.insert]
        split
        next hk =>
          rw [if_pos hk] at h
          cases h
          rw [List.map_cons, List.map_cons, hw, hk]
        next hk =>
          rw [if_neg hk] at h
          rw [List.map_cons, List.map_cons, ih h]
  rw [size_eq, size_eq, render, render, written_append, written_append, written_cons, written_members, hsum, ← written_members,
    ← written_cons]

end Value

end Galadril.Json
