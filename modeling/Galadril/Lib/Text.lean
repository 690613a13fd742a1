import Mathlib

namespace Galadril.Lib.Text

def stripStart (start value : List Char) : Option (List Char) :=
  if start.isPrefixOf value then some (value.drop start.length) else none

def splitOnce (c : Char) : List Char → Option (List Char × List Char)
  | [] => none
  | d :: rest => if d = c then some ([], rest) else (splitOnce c rest).map fun p => (d :: p.1, p.2)

def occursIn (part value : List Char) : Bool := value.tails.any part.isPrefixOf

def trimBy (p : Char → Bool) (value : List Char) : List Char := ((value.dropWhile p).reverse.dropWhile p).reverse

end Galadril.Lib.Text

namespace Galadril.Lib.PythonText

open Text

def isSpace (c : Char) : Bool :=
  let n := c.toNat
  (9 ≤ n && n ≤ 13) || (28 ≤ n && n ≤ 32) || n == 0x85 || n == 0xa0 || n == 0x1680 ||
    (0x2000 ≤ n && n ≤ 0x200a) || n == 0x2028 || n == 0x2029 || n == 0x202f || n == 0x205f || n == 0x3000

def words (value : String) : List String :=
  ((value.toList.splitOnP isSpace).filter fun word => !word.isEmpty).map String.ofList

def strip (value : String) : String := String.ofList (trimBy isSpace value.toList)

end Galadril.Lib.PythonText

namespace Galadril.Lib.Characters

open Text

def isControl (c : Char) : Bool := c.toNat < 32 || (127 ≤ c.toNat && c.toNat < 160)

theorem trimBy_trimBy (p : Char → Bool) (value : List Char) : trimBy p (trimBy p value) = trimBy p value := by
  have hstart : trimBy p value <+: value.dropWhile p := List.rdropWhile_prefix p (value.dropWhile p)
  have hleft : (trimBy p value).dropWhile p = trimBy p value := by
    rw [List.dropWhile_eq_self_iff]
    intro hpos
    rw [hstart.getElem]
    exact List.dropWhile_get_zero_not p value (hpos.trans_le hstart.length_le)
  rw [trimBy, hleft]
  exact List.rdropWhile_idempotent p (value.dropWhile p)

/-- A text with a character to keep is not trimmed away. -/
theorem trimBy_ne_nil {p : Char → Bool} {value : List Char} {c : Char} (hc : c ∈ value) (hp : p c = false) :
    trimBy p value ≠ [] := by
  intro hnil
  rw [trimBy, List.reverse_eq_nil_iff, List.dropWhile_eq_nil_iff] at hnil
  have hall : value.dropWhile p = [] := by
    by_contra hne
    have hpos : 0 < (value.dropWhile p).length := List.length_pos_iff.mpr hne
    exact List.dropWhile_get_zero_not p value hpos (hnil _ (List.mem_reverse.mpr (List.getElem_mem hpos)))
  have := List.dropWhile_eq_nil_iff.mp hall c hc
  simp [hp] at this

theorem splitOnce_absent {c : Char} {value : List Char} (h : c ∉ value) : splitOnce c value = none := by
  induction value with
  | nil => rfl
  | cons d value ih =>
      rw [List.mem_cons, not_or] at h
      rw [splitOnce, if_neg (Ne.symm h.1), ih h.2, Option.map_none]

theorem splitOnce_append {c : Char} {before : List Char} (h : c ∉ before) (after : List Char) :
    splitOnce c (before ++ c :: after) = some (before, after) := by
  induction before with
  | nil => simp [splitOnce]
  | cons d before ih =>
      rw [List.mem_cons, not_or] at h
      rw [List.cons_append, splitOnce, if_neg (Ne.symm h.1), ih h.2, Option.map_some]

def rsplitOnce (c : Char) (value : List Char) : Option (List Char × List Char) :=
  (splitOnce c value.reverse).map fun p => (p.2.reverse, p.1.reverse)

theorem rsplitOnce_absent {c : Char} {value : List Char} (h : c ∉ value) : rsplitOnce c value = none := by
  rw [rsplitOnce, splitOnce_absent (by simpa using h), Option.map_none]

theorem rsplitOnce_append {c : Char} {after : List Char} (h : c ∉ after) (before : List Char) :
    rsplitOnce c (before ++ c :: after) = some (before, after) := by
  have hreverse : (before ++ c :: after).reverse = after.reverse ++ c :: before.reverse := by simp
  rw [rsplitOnce, hreverse, splitOnce_append (by simpa using h), Option.map_some]
  simp

/-- A character is absent, or a text has a last occurrence of it. -/
theorem absent_or_last (c : Char) (value : List Char) : c ∉ value ∨ ∃ before after, value = before ++ c :: after ∧ c ∉ after := by
  by_cases h : c ∈ value
  · obtain ⟨after, before, hsplit, hafter⟩ := List.eq_append_cons_of_mem (List.mem_reverse.mpr h)
    have hvalue := congrArg List.reverse hsplit
    exact .inr ⟨before.reverse, after.reverse, by simpa using hvalue, by simpa using hafter⟩
  · exact .inl h

end Galadril.Lib.Characters
