import Mathlib

namespace Galadril.Lib.Escapes

def encode (text : List Char) : List UInt8 := text.flatMap String.utf8EncodeChar

theorem encode_append (a b : List Char) : encode (a ++ b) = encode a ++ encode b := List.flatMap_append

theorem encodeChar_ascii {c : Char} (h : c.toNat < 128) : String.utf8EncodeChar c = [UInt8.ofNat c.toNat] :=
  if_pos (Nat.le_of_lt_succ h)

/-- No byte of a wide character stands for an ASCII character. -/
theorem encodeChar_wide {c : Char} (h : 128 ≤ c.toNat) : ∀ b ∈ String.utf8EncodeChar c, 128 ≤ b.toNat := by
  have hfirst : ¬c.val.toNat ≤ 127 := Nat.not_le.mpr h
  simp only [String.utf8EncodeChar, if_neg hfirst]
  split
  · simp only [List.mem_cons, List.not_mem_nil, or_false, forall_eq_or_imp, forall_eq, UInt8.toNat_ofNat']
    omega
  · split
    · simp only [List.mem_cons, List.not_mem_nil, or_false, forall_eq_or_imp, forall_eq, UInt8.toNat_ofNat']
      omega
    · simp only [List.mem_cons, List.not_mem_nil, or_false, forall_eq_or_imp, forall_eq, UInt8.toNat_ofNat']
      omega

def decode (bytes : List UInt8) : Option (List Char) := (ByteArray.utf8Decode? bytes.toByteArray).map Array.toList

@[simp] theorem decode_encode (text : List Char) : decode (encode text) = some text := by
  have hread := List.utf8Decode?_utf8Encode (l := text)
  rw [List.utf8Encode] at hread
  rw [decode, encode, hread]
  simp

theorem encode_inj {a b : List Char} (h : encode a = encode b) : a = b := by
  have hread := congrArg decode h
  rw [decode_encode, decode_encode] at hread
  exact Option.some.inj hread

def hexDigit (n : Nat) : Char := "0123456789ABCDEF".toList[n]?.getD '0'

def hexValue (b : UInt8) : Option Nat :=
  let n := b.toNat
  if 48 ≤ n ∧ n ≤ 57 then some (n - 48)
  else if 65 ≤ n ∧ n ≤ 70 then some (n - 55)
  else if 97 ≤ n ∧ n ≤ 102 then some (n - 87)
  else none

theorem hexDigit_ascii (n : Fin 16) : (hexDigit n.val).toNat < 128 := by
  revert n
  decide

theorem hexValue_hexDigit (n : Fin 16) : hexValue (UInt8.ofNat (hexDigit n.val).toNat) = some n.val := by
  revert n
  decide

section Escaping

variable (plain : UInt8 → Bool) (mark : Char)

def escapeByte (b : UInt8) : List Char :=
  if plain b then [Char.ofNat b.toNat] else [mark, hexDigit (b.toNat / 16), hexDigit (b.toNat % 16)]

def escape (bytes : List UInt8) : List Char := bytes.flatMap (escapeByte plain mark)

def unescape : List UInt8 → Option (List UInt8)
  | [] => some []
  | b :: rest =>
      if b = UInt8.ofNat mark.toNat then
        match rest with
        | high :: low :: rest => do
            let high ← hexValue high
            let low ← hexValue low
            let bytes ← unescape rest
            return UInt8.ofNat (high * 16 + low) :: bytes
        | _ => none
      else (unescape rest).map (b :: ·)

structure Lawful : Prop where
  ascii : ∀ b, plain b = true → b.toNat < 128
  unmarked : ∀ b, plain b = true → Char.ofNat b.toNat ≠ mark
  mark_ascii : mark.toNat < 128

variable {plain mark}

theorem toNat_ofNat {n : Nat} (h : n < 128) : (Char.ofNat n).toNat = n := by
  rw [Char.ofNat, dif_pos (Or.inl (by omega))]
  rfl

@[simp] theorem unescape_nil : unescape mark [] = some [] := rfl

theorem unescape_plain {b : UInt8} (h : b ≠ UInt8.ofNat mark.toNat) (rest : List UInt8) :
    unescape mark (b :: rest) = (unescape mark rest).map (b :: ·) := by
  rw [unescape.eq_def]
  exact if_neg h

theorem Lawful.encode_escapeByte (hl : Lawful plain mark) (b : UInt8) :
    encode (escapeByte plain mark b) =
      if plain b then [b] else [UInt8.ofNat mark.toNat, UInt8.ofNat (hexDigit (b.toNat / 16)).toNat,
        UInt8.ofNat (hexDigit (b.toNat % 16)).toNat] := by
  by_cases hb : plain b
  · have hascii := hl.ascii b hb
    have hchar : (Char.ofNat b.toNat).toNat = b.toNat := toNat_ofNat hascii
    rw [escapeByte, if_pos hb, if_pos hb, encode, List.flatMap_singleton, encodeChar_ascii (hchar.trans_lt hascii), hchar,
      UInt8.ofNat_toNat]
  · have hhigh := hexDigit_ascii ⟨b.toNat / 16, Nat.div_lt_of_lt_mul b.toNat_lt⟩
    have hlow := hexDigit_ascii ⟨b.toNat % 16, Nat.mod_lt _ (by decide)⟩
    rw [escapeByte, if_neg hb, if_neg hb]
    simp only [encode, List.flatMap_cons, List.flatMap_nil, encodeChar_ascii hl.mark_ascii, encodeChar_ascii hhigh,
      encodeChar_ascii hlow]
    rfl

theorem Lawful.unescape_escapeByte (hl : Lawful plain mark) (b : UInt8) (rest : List UInt8) :
    unescape mark (encode (escapeByte plain mark b) ++ rest) = (unescape mark rest).map (b :: ·) := by
  rw [hl.encode_escapeByte]
  by_cases hb : plain b
  · have hne : b ≠ UInt8.ofNat mark.toNat := by
      intro heq
      apply hl.unmarked b hb
      rw [heq, UInt8.toNat_ofNat', Nat.mod_eq_of_lt (hl.mark_ascii.trans (by decide)), Char.ofNat_toNat]
    rw [if_pos hb]
    exact unescape_plain hne rest
  · have hhigh := hexValue_hexDigit ⟨b.toNat / 16, Nat.div_lt_of_lt_mul b.toNat_lt⟩
    have hlow := hexValue_hexDigit ⟨b.toNat % 16, Nat.mod_lt _ (by decide)⟩
    have hbyte : UInt8.ofNat (b.toNat / 16 * 16 + b.toNat % 16) = b := by rw [Nat.div_add_mod', UInt8.ofNat_toNat]
    dsimp only at hhigh hlow
    rw [if_neg hb, List.cons_append, List.cons_append, List.cons_append, List.nil_append, unescape, if_pos rfl]
    rw [hhigh, hlow]
    cases unescape mark rest with
    | none => rfl
    | some bytes => exact congrArg (fun first => some (first :: bytes)) hbyte

theorem Lawful.unescape_escape (hl : Lawful plain mark) (bytes rest : List UInt8) :
    unescape mark (encode (escape plain mark bytes) ++ rest) = (unescape mark rest).map (bytes ++ ·) := by
  induction bytes with
  | nil => simp [escape, encode]
  | cons b bytes ih =>
      rw [escape, List.flatMap_cons, encode_append, List.append_assoc, hl.unescape_escapeByte]
      rw [escape] at ih
      rw [ih, Option.map_map]
      rfl

theorem Lawful.unescape_encode (hl : Lawful plain mark) (bytes : List UInt8) :
    unescape mark (encode (escape plain mark bytes)) = some bytes := by
  have h := hl.unescape_escape bytes []
  rwa [List.append_nil, unescape_nil, Option.map_some, List.append_nil] at h

theorem Lawful.escape_inj (hl : Lawful plain mark) {a b : List UInt8} (h : escape plain mark a = escape plain mark b) : a = b := by
  have hread := congrArg (fun text => unescape mark (encode text)) h
  simp only [hl.unescape_encode] at hread
  exact Option.some.inj hread

theorem escape_append (a b : List UInt8) : escape plain mark (a ++ b) = escape plain mark a ++ escape plain mark b :=
  List.flatMap_append

/-- The escaped form of one character begins with the mark, or it is the
character. -/
theorem Lawful.escape_char (hl : Lawful plain mark) (c : Char) :
    escape plain mark (String.utf8EncodeChar c) = [c] ∨ ∃ rest, escape plain mark (String.utf8EncodeChar c) = mark :: rest := by
  rcases Nat.lt_or_ge c.toNat 128 with hascii | hwide
  · have hsize : (UInt8.ofNat c.toNat).toNat = c.toNat := by
      rw [UInt8.toNat_ofNat', Nat.mod_eq_of_lt (hascii.trans (by decide))]
    rw [encodeChar_ascii hascii, escape, List.flatMap_singleton, escapeByte]
    split
    · rw [hsize, Char.ofNat_toNat]
      exact .inl rfl
    · exact .inr ⟨_, rfl⟩
  · right
    have hbytes := encodeChar_wide hwide
    cases hcode : String.utf8EncodeChar c with
    | nil => exact absurd hcode String.utf8EncodeChar_ne_nil
    | cons b bytes =>
        have hb : ¬plain b = true := fun hb => absurd (hl.ascii b hb) (by
          have := hbytes b (hcode ▸ List.mem_cons_self)
          omega)
        rw [escape, List.flatMap_cons, escapeByte, if_neg hb]
        exact ⟨_, rfl⟩

theorem Lawful.escape_cut (hl : Lawful plain mark) {text start rest : List Char} (hstart : mark ∉ start)
    (h : escape plain mark (encode text) = start ++ rest) :
    ∃ tail, text = start ++ tail ∧ rest = escape plain mark (encode tail) := by
  induction start generalizing text with
  | nil => exact ⟨text, rfl, h.symm⟩
  | cons d start ih =>
      rw [List.mem_cons, not_or] at hstart
      cases text with
      | nil => cases h
      | cons c text =>
          rw [encode, List.flatMap_cons, escape_append] at h
          rcases hl.escape_char c with hc | ⟨others, hc⟩
          · rw [hc, List.singleton_append, List.cons_append, List.cons.injEq] at h
            obtain ⟨tail, rfl, hrest⟩ := ih hstart.2 h.2
            exact ⟨tail, by rw [h.1]; rfl, hrest⟩
          · rw [hc, List.cons_append, List.cons_append, List.cons.injEq] at h
            exact absurd h.1 hstart.1

theorem escape_plain {text : List Char} (h : ∀ c ∈ text, c.toNat < 128 ∧ plain (UInt8.ofNat c.toNat) = true) :
    escape plain mark (encode text) = text := by
  induction text with
  | nil => rfl
  | cons c text ih =>
      obtain ⟨⟨hascii, hplain⟩, hrest⟩ := List.forall_mem_cons.mp h
      have hsize : (UInt8.ofNat c.toNat).toNat = c.toNat := by
        rw [UInt8.toNat_ofNat', Nat.mod_eq_of_lt (hascii.trans (by decide))]
      have hone : escape plain mark (String.utf8EncodeChar c) = [c] := by
        rw [encodeChar_ascii hascii, escape, List.flatMap_singleton, escapeByte, if_pos hplain, hsize, Char.ofNat_toNat]
      rw [encode, List.flatMap_cons, escape_append, hone]
      exact congrArg (c :: ·) (ih hrest)

end Escaping

end Galadril.Lib.Escapes
