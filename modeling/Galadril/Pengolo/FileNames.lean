import Galadril.Lib.Text
import Galadril.Lib.Checked
import Galadril.Registry.Identity

namespace Galadril.Pengolo

open Lib.Characters Lib.Checked Lib.Text Registry.Identity String

def maxFileBytes : Int := 25 * 1024 * 1024

def isSeparator (c : Char) : Bool := c == '/' || c == Char.ofNat 92

def validName (name : String) : Bool :=
  !(trimBy isWhitespace name.toList).isEmpty && name.utf8ByteSize ≤ 256 && !name.toList.any isControl &&
    !name.toList.any isSeparator && name != "." && name != ".."

def validateUpload (name mime : String) (size : Int) : Except String String := do
  ensure (validName name) "Invalid file name"
  ensure (1 ≤ size && size ≤ maxFileBytes) "File size exceeds the upload limit"
  match mime with
  | "application/pdf" => .ok "pdf"
  | "application/zip" => .ok "zip"
  | "text/plain" => .ok "txt"
  | "text/csv" => .ok "csv"
  | "image/png" => .ok "png"
  | "image/jpeg" => .ok "jpg"
  | "image/webp" => .ok "webp"
  | _ => .error "Unsupported file format"

def stemAndExtension (name : List Char) : List Char × List Char :=
  match rsplitOnce '.' name with
  | some (stem, extension) => if stem.isEmpty then (name, []) else (stem, '.' :: extension)
  | none => (name, [])

def suffix (index : Nat) (extension : List Char) : List Char := " (".toList ++ (toString index).toList ++ ')' :: extension

def charIndices : Nat → List Char → List Nat
  | _, [] => []
  | offset, c :: rest => offset :: charIndices (offset + c.utf8Size) rest

def cutAt (budget : Nat) (stem : List Char) : Nat :=
  if utf8Len stem ≤ budget then utf8Len stem else (((charIndices 0 stem).takeWhile (· ≤ budget)).getLast?).getD 0

/-- The text before a byte offset, which must lie between two characters. -/
def getTo : List Char → Nat → Option (List Char)
  | _, 0 => some []
  | [], _ + 1 => none
  | c :: rest, offset + 1 => if c.utf8Size ≤ offset + 1 then (getTo rest (offset + 1 - c.utf8Size)).map (c :: ·) else none

-- nothing depends on how letters are lowered
variable (toLowercase : String → String)

def tryNames (occupied : List String) (stem extension : List Char) : List Nat → Except String String
  | [] => .error "File name collision limit reached"
  | index :: rest => do
      let suffix := suffix index extension
      ensure (utf8Len suffix < 256) "File name exceeds limit"
      let start ← context (getTo stem (cutAt (256 - utf8Len suffix) stem)) "Invalid file name"
      let candidate := String.ofList (start ++ suffix)
      if occupied.contains (toLowercase candidate) then tryNames occupied stem extension rest else .ok candidate

def availableFileName (name : String) (occupied : List String) : Except String String :=
  if occupied.contains (toLowercase name) then
    let (stem, extension) := stemAndExtension name.toList
    tryNames toLowercase occupied stem extension (List.range' 1 9999)
  else .ok name

def fit : Nat → List Char → List Char
  | _, [] => []
  | budget, c :: rest => if c.utf8Size ≤ budget then c :: fit (budget - c.utf8Size) rest else []

theorem fit_isPrefix (budget : Nat) (stem : List Char) : fit budget stem <+: stem := by
  induction stem generalizing budget with
  | nil => exact List.nil_prefix
  | cons c rest ih =>
      rw [fit]
      split
      · exact List.cons_prefix_cons.mpr ⟨rfl, ih _⟩
      · exact List.nil_prefix

theorem fit_le (budget : Nat) (stem : List Char) : utf8Len (fit budget stem) ≤ budget := by
  induction stem generalizing budget with
  | nil => exact Nat.zero_le _
  | cons c rest ih =>
      rw [fit]
      split
      · next h =>
          have := ih (budget - c.utf8Size)
          rw [utf8Len_cons]
          omega
      · exact Nat.zero_le _

theorem fit_all {budget : Nat} {stem : List Char} (h : utf8Len stem ≤ budget) : fit budget stem = stem := by
  induction stem generalizing budget with
  | nil => rfl
  | cons c rest ih =>
      rw [utf8Len_cons] at h
      rw [fit, if_pos (by omega), ih (by omega)]

/-- The last character offset within a budget is the end of the longest start
that fits. -/
theorem getLast_charIndices {offset budget : Nat} {stem : List Char} (hoffset : offset ≤ budget)
    (h : budget < offset + utf8Len stem) :
    ((charIndices offset stem).takeWhile (· ≤ budget)).getLast? = some (offset + utf8Len (fit (budget - offset) stem)) := by
  induction stem generalizing offset with
  | nil => simp at h; omega
  | cons c rest ih =>
      rw [charIndices, List.takeWhile_cons_of_pos (by simpa using hoffset), fit]
      rw [utf8Len_cons] at h
      by_cases hc : offset + c.utf8Size ≤ budget
      · have hlast := ih hc (by omega)
        rw [List.getLast?_cons, hlast, if_pos (by omega), utf8Len_cons, Option.getD_some, ← Nat.sub_sub]
        congr 1
        omega
      · have hnone : (charIndices (offset + c.utf8Size) rest).takeWhile (· ≤ budget) = [] := by
          cases rest with
          | nil => rfl
          | cons d rest => rw [charIndices, List.takeWhile_cons_of_neg (by simpa using hc)]
        rw [hnone, if_neg (by omega)]
        rfl

theorem cutAt_eq (budget : Nat) (stem : List Char) : cutAt budget stem = utf8Len (fit budget stem) := by
  rw [cutAt]
  split
  · next h => rw [fit_all h]
  · next h =>
      have hlast := getLast_charIndices (Nat.zero_le budget) (by omega : budget < 0 + utf8Len stem)
      rw [hlast, Option.getD_some, Nat.zero_add, Nat.sub_zero]

theorem getTo_append (start rest : List Char) : getTo (start ++ rest) (utf8Len start) = some start := by
  induction start with
  | nil => cases rest <;> rfl
  | cons c start ih =>
      have hpos := c.utf8Size_pos
      obtain ⟨n, hn⟩ : ∃ n, utf8Len (c :: start) = n + 1 := ⟨utf8Len (c :: start) - 1, by rw [utf8Len_cons]; omega⟩
      have hrest : n + 1 - c.utf8Size = utf8Len start := by
        rw [utf8Len_cons] at hn
        omega
      rw [hn, List.cons_append, getTo, if_pos (by rw [utf8Len_cons] at hn; omega), hrest, ih, Option.map_some]

theorem getTo_cutAt (budget : Nat) (stem : List Char) : getTo stem (cutAt budget stem) = some (fit budget stem) := by
  obtain ⟨rest, hrest⟩ := fit_isPrefix budget stem
  have hcut := getTo_append (fit budget stem) rest
  rw [hrest, ← cutAt_eq] at hcut
  exact hcut

def fileExtension (name : String) : List Char := (stemAndExtension name.toList).2

def candidate (name : String) (index : Nat) : String :=
  String.ofList (fit (256 - utf8Len (suffix index (fileExtension name))) (stemAndExtension name.toList).1 ++
    suffix index (fileExtension name))

theorem mem_suffix {index : Nat} {extension : List Char} {c : Char} (h : c ∈ suffix index extension) :
    c = ' ' ∨ c = '(' ∨ c = ')' ∨ c.isDigit = true ∨ c ∈ extension := by
  rw [suffix, List.append_assoc, List.mem_append, List.mem_append, List.mem_cons] at h
  rcases h with h | h | rfl | h
  · have hopening : c ∈ [' ', '('] := h
    simp only [List.mem_cons, List.not_mem_nil, or_false] at hopening
    tauto
  · rw [show toString index = index.repr from rfl, Nat.toList_repr] at h
    exact .inr (.inr (.inr (.inl (Nat.isDigit_of_mem_toDigits (by decide) (by decide) h))))
  · exact .inr (.inr (.inl rfl))
  · exact .inr (.inr (.inr (.inr h)))

theorem stemAndExtension_absent {name : List Char} (h : '.' ∉ name) : stemAndExtension name = (name, []) := by
  rw [stemAndExtension, rsplitOnce_absent h]

theorem stemAndExtension_hidden {rest : List Char} (h : '.' ∉ rest) : stemAndExtension ('.' :: rest) = ('.' :: rest, []) := by
  rw [stemAndExtension, ← List.nil_append ('.' :: rest), rsplitOnce_append h []]
  rfl

theorem stemAndExtension_append {stem extension : List Char} (hstem : stem ≠ []) (h : '.' ∉ extension) :
    stemAndExtension (stem ++ '.' :: extension) = (stem, '.' :: extension) := by
  rw [stemAndExtension, rsplitOnce_append h stem]
  exact if_neg (by simpa using hstem)

/-- The parts of a name, by its last point. -/
theorem stemAndExtension_cases (name : List Char) :
    (stemAndExtension name = (name, []) ∧ ('.' ∉ name ∨ ∃ rest, name = '.' :: rest ∧ '.' ∉ rest)) ∨
      ∃ stem extension, stem ≠ [] ∧ '.' ∉ extension ∧ name = stem ++ '.' :: extension ∧
        stemAndExtension name = (stem, '.' :: extension) := by
  rcases absent_or_last '.' name with habsent | ⟨stem, extension, rfl, hextension⟩
  · exact .inl ⟨stemAndExtension_absent habsent, .inl habsent⟩
  · cases stem with
    | nil => exact .inl ⟨stemAndExtension_hidden hextension, .inr ⟨extension, rfl, hextension⟩⟩
    | cons c stem =>
        exact .inr ⟨c :: stem, extension, List.cons_ne_nil _ _, hextension, rfl,
          stemAndExtension_append (List.cons_ne_nil _ _) hextension⟩

theorem mem_of_stem {name : List Char} {c : Char}
    (h : c ∈ (stemAndExtension name).1 ∨ c ∈ (stemAndExtension name).2) : c ∈ name := by
  rcases stemAndExtension_cases name with ⟨hparts, -⟩ | ⟨stem, extension, -, -, hname, hparts⟩
  · simpa [hparts] using h
  · rw [hparts] at h
    rw [hname]
    exact List.mem_append.mpr h

theorem point_notMem_numbered {start : List Char} (h : '.' ∉ start) (index : Nat) : '.' ∉ start ++ suffix index [] := by
  intro hmem
  rcases List.mem_append.mp hmem with hmem | hmem
  · exact h hmem
  · rcases mem_suffix hmem with hmem | hmem | hmem | hmem | hmem <;> cases hmem

theorem fileExtension_candidate (name : String) (index : Nat) : fileExtension (candidate name index) = fileExtension name := by
  rw [candidate]
  simp only [fileExtension, String.toList_ofList]
  rcases stemAndExtension_cases name.toList with ⟨hparts, hpoint⟩ | ⟨stem, extension, hstem, hextension, hname, hparts⟩
  · rw [hparts]
    simp only
    rcases hpoint with hpoint | ⟨rest, hname, hpoint⟩
    · have hstart : '.' ∉ fit (256 - utf8Len (suffix index [])) name.toList := fun h => hpoint ((fit_isPrefix _ _).mem h)
      rw [stemAndExtension_absent (point_notMem_numbered hstart index)]
    · rw [hname, fit]
      have hstart (budget : Nat) : '.' ∉ fit budget rest := fun h => hpoint ((fit_isPrefix _ _).mem h)
      split
      · rw [List.cons_append, stemAndExtension_hidden (point_notMem_numbered (hstart _) index)]
      · rw [stemAndExtension_absent (point_notMem_numbered List.not_mem_nil index)]
  · rw [hparts]
    simp only [suffix]
    rw [← List.append_assoc, List.append_cons, stemAndExtension_append (by simp) hextension]

section Numbering

variable {toLowercase : String → String}

theorem validName_iff {name : String} : validName name = true ↔
    trimBy isWhitespace name.toList ≠ [] ∧ name.utf8ByteSize ≤ 256 ∧
      (∀ c ∈ name.toList, isControl c = false ∧ isSeparator c = false) ∧ name ≠ "." ∧ name ≠ ".." := by
  simp only [validName, Bool.and_eq_true, Bool.not_eq_true', List.isEmpty_eq_false_iff, decide_eq_true_eq, List.any_eq_false,
    Bool.not_eq_true, bne_iff_ne]
  constructor
  · rintro ⟨⟨⟨⟨⟨hblank, hsize⟩, hcontrol⟩, hseparator⟩, hpoint⟩, hpoints⟩
    exact ⟨hblank, hsize, fun c hc => ⟨hcontrol c hc, hseparator c hc⟩, hpoint, hpoints⟩
  · rintro ⟨hblank, hsize, hall, hpoint, hpoints⟩
    exact ⟨⟨⟨⟨⟨hblank, hsize⟩, fun c hc => (hall c hc).1⟩, fun c hc => (hall c hc).2⟩, hpoint⟩, hpoints⟩

theorem plain_of_isDigit {c : Char} (h : c.isDigit = true) : isControl c = false ∧ isSeparator c = false := by
  have hrange : 48 ≤ c.toNat ∧ c.toNat ≤ 57 := by simpa [Char.isDigit, UInt32.le_iff_toNat_le] using h
  constructor
  · simp only [isControl, Bool.or_eq_false_iff, Bool.and_eq_false_iff, decide_eq_false_iff_not]
    omega
  · simp only [isSeparator, Bool.or_eq_false_iff, beq_eq_false_iff_ne]
    constructor
    · rintro rfl
      revert hrange
      decide
    · rintro rfl
      revert hrange
      decide

theorem validName_candidate {name : String} (h : validName name = true) {index : Nat}
    (hroom : utf8Len (suffix index (fileExtension name)) < 256) : validName (candidate name index) = true := by
  obtain ⟨-, -, hall, -, -⟩ := validName_iff.mp h
  have hopening : '(' ∈ (candidate name index).toList := by
    rw [candidate, String.toList_ofList, suffix]
    simp
  rw [validName_iff]
  refine ⟨trimBy_ne_nil hopening (by decide), ?_, fun c hc => ?_, ?_, ?_⟩
  · rw [candidate, utf8ByteSize_ofList, utf8Len_append]
    have := fit_le (256 - utf8Len (suffix index (fileExtension name))) (stemAndExtension name.toList).1
    omega
  · rw [candidate, String.toList_ofList, List.mem_append] at hc
    rcases hc with hc | hc
    · exact hall c (mem_of_stem (.inl ((fit_isPrefix _ _).mem hc)))
    · rcases mem_suffix hc with rfl | rfl | rfl | hdigit | hc
      · decide
      · decide
      · decide
      · exact plain_of_isDigit hdigit
      · exact hall c (mem_of_stem (.inr hc))
  · rintro hpoint
    rw [hpoint] at hopening
    exact absurd hopening (by decide)
  · rintro hpoint
    rw [hpoint] at hopening
    exact absurd hopening (by decide)

/-- The loop ends at the first number without room or with a free name, or
behind the last number. -/
theorem tryNames_cases (toLowercase : String → String) (name : String) (occupied : List String) (indices : List Nat) :
    (∃ before index after, indices = before ++ index :: after ∧ (∀ i ∈ before, toLowercase (candidate name i) ∈ occupied) ∧
      ((tryNames toLowercase occupied (stemAndExtension name.toList).1 (fileExtension name) indices = .ok (candidate name index) ∧
          toLowercase (candidate name index) ∉ occupied ∧ utf8Len (suffix index (fileExtension name)) < 256) ∨
        (tryNames toLowercase occupied (stemAndExtension name.toList).1 (fileExtension name) indices = .error
          "File name exceeds limit" ∧
          256 ≤ utf8Len (suffix index (fileExtension name))))) ∨
      (tryNames toLowercase occupied (stemAndExtension name.toList).1 (fileExtension name) indices =
          .error "File name collision limit reached" ∧ ∀ i ∈ indices, toLowercase (candidate name i) ∈ occupied) := by
  induction indices with
  | nil => exact .inr ⟨rfl, by simp⟩
  | cons index indices ih =>
      by_cases hroom : utf8Len (suffix index (fileExtension name)) < 256
      · have hstep : tryNames toLowercase occupied (stemAndExtension name.toList).1 (fileExtension name) (index :: indices) =
            if occupied.contains (toLowercase (candidate name index)) then
              tryNames toLowercase occupied (stemAndExtension name.toList).1 (fileExtension name) indices
            else .ok (candidate name index) := by
          simp only [tryNames, hroom, decide_true, ensure_true, ok_bind, getTo_cutAt, context_some]
          rfl
        by_cases htaken : toLowercase (candidate name index) ∈ occupied
        · rw [hstep, if_pos (by simpa using htaken)]
          rcases ih with ⟨before, next, after, rfl, hbefore, hnext⟩ | ⟨hend, hall⟩
          · exact .inl ⟨index :: before, next, after, rfl, List.forall_mem_cons.mpr ⟨htaken, hbefore⟩, hnext⟩
          · exact .inr ⟨hend, List.forall_mem_cons.mpr ⟨htaken, hall⟩⟩
        · rw [hstep, if_neg (by simpa using htaken)]
          exact .inl ⟨[], index, indices, rfl, by simp, .inl ⟨rfl, htaken, hroom⟩⟩
      · refine .inl ⟨[], index, indices, rfl, by simp, .inr ⟨?_, Nat.le_of_not_lt hroom⟩⟩
        simp only [tryNames, hroom, decide_false]
        rfl

/-- A free name for a file that may be uploaded: nobody else has it, it may be
uploaded itself and it is the given name, or its stem cut between two characters
with a number behind it. It is missing only when the extension leaves no room or
all numbers are taken. -/
theorem available_file_name_free (toLowercase : String → String) (name : String) (taken : List String) (mime : String) (size : Int)
    (kind : String) (hupload : validateUpload name mime size = .ok kind) :
    match availableFileName toLowercase name (taken.map toLowercase) with
    | .ok free => (∀ other ∈ taken, toLowercase free ≠ toLowercase other) ∧ validateUpload free mime size = .ok kind ∧
        free.utf8ByteSize ≤ 256 ∧ (∀ c ∈ free.toList, isControl c = false ∧ isSeparator c = false) ∧
        fileExtension free = fileExtension name ∧
        (free = name ∨ ∃ index start, start <+: (stemAndExtension name.toList).1 ∧
          free = String.ofList (start ++ suffix index (fileExtension name)))
    | .error _ => (∃ index ∈ List.range' 1 9999, 256 ≤ utf8Len (suffix index (fileExtension name)) ∧
          ∀ n ∈ List.range' 1 9999, n < index → ∃ other ∈ taken, toLowercase (candidate name n) = toLowercase other) ∨
        ∀ index ∈ List.range' 1 9999, ∃ other ∈ taken, toLowercase (candidate name index) = toLowercase other := by
  have hname : validName name = true := by
    unfold validateUpload at hupload
    obtain ⟨_, hvalid, -⟩ := bind_eq_ok.mp hupload
    exact ensure_eq_ok.mp hvalid
  have hother {free : String} (hvalid : validName free = true) : validateUpload free mime size = .ok kind := by
    unfold validateUpload at hupload ⊢
    rw [hvalid]
    rwa [hname] at hupload
  have hfree {free : String} (h : toLowercase free ∉ taken.map toLowercase) : ∀ other ∈ taken, toLowercase free ≠
    toLowercase other :=
    fun other hmem heq => h (heq ▸ List.mem_map_of_mem hmem)
  have hused {index : Nat} (h : toLowercase (candidate name index) ∈ taken.map toLowercase) :
      ∃ other ∈ taken, toLowercase (candidate name index) = toLowercase other := by
    obtain ⟨other, hmem, heq⟩ := List.mem_map.mp h
    exact ⟨other, hmem, heq.symm⟩
  by_cases htaken : toLowercase name ∈ taken.map toLowercase
  · have hloop : availableFileName toLowercase name (taken.map toLowercase) =
        tryNames toLowercase (taken.map toLowercase) (stemAndExtension name.toList).1 (fileExtension name) (List.range' 1 9999) := by
      rw [availableFileName, if_pos (by simpa using htaken)]
      rfl
    rw [hloop]
    rcases tryNames_cases toLowercase name (taken.map toLowercase) (List.range' 1 9999) with
      ⟨before, index, after, hindices, hbefore, ⟨htry, hnew, hroom⟩ | ⟨htry, hlong⟩⟩ | ⟨htry, hall⟩
    · rw [htry]
      have hvalid := validName_candidate hname hroom
      obtain ⟨-, hsize, hplain, -⟩ := validName_iff.mp hvalid
      exact ⟨hfree hnew, hother hvalid, hsize, hplain, fileExtension_candidate name index, .inr ⟨index, _, fit_isPrefix _ _, rfl⟩⟩
    · rw [htry]
      refine .inl ⟨index, hindices ▸ List.mem_append_right _ List.mem_cons_self, hlong, fun n hn hlt => hused (hbefore n ?_)⟩
      have hsorted : (before ++ index :: after).Pairwise (· < ·) := hindices ▸ List.pairwise_lt_range' _
      rw [List.pairwise_append, List.pairwise_cons] at hsorted
      rw [hindices, List.mem_append, List.mem_cons] at hn
      rcases hn with hn | rfl | hn
      · exact hn
      · exact absurd hlt (lt_irrefl n)
      · exact absurd hlt (lt_asymm (hsorted.2.1.1 n hn))
    · rw [htry]
      exact .inr fun index hindex => hused (hall index hindex)
  · rw [availableFileName, if_neg (by simpa using htaken)]
    obtain ⟨-, hsize, hplain, -⟩ := validName_iff.mp hname
    exact ⟨hfree htaken, hupload, hsize, hplain, rfl, .inl rfl⟩

def asciiLowercase (name : String) : String := String.ofList (name.toList.map Char.toLower)

theorem available_file_name_free_report :
    availableFileName asciiLowercase "report.pdf" (["Report.PDF", "report (1).pdf"].map asciiLowercase) = .ok "report (2).pdf" ∧
      validateUpload "report (2).pdf" "application/pdf" 12 = .ok "pdf" := by
  have hname : availableFileName asciiLowercase "report.pdf" (["Report.PDF", "report (1).pdf"].map asciiLowercase) =
      .ok "report (2).pdf" := by decide
  have hfree := available_file_name_free asciiLowercase "report.pdf" ["Report.PDF", "report (1).pdf"]
    "application/pdf" 12 "pdf" (by decide)
  rw [hname] at hfree
  exact ⟨hname, hfree.2.1⟩

end Numbering

end Galadril.Pengolo
