import Mathlib

namespace Galadril.Lib.Base64

def symbol (n : Nat) : Char :=
  if n < 26 then Char.ofNat (n + 65)
  else if n < 52 then Char.ofNat (n + 71)
  else if n < 62 then Char.ofNat (n - 4)
  else if n = 62 then '-'
  else '_'

def sextet (c : Char) : Option Nat :=
  let n := c.toNat
  if 65 ≤ n ∧ n ≤ 90 then some (n - 65)
  else if 97 ≤ n ∧ n ≤ 122 then some (n - 71)
  else if 48 ≤ n ∧ n ≤ 57 then some (n + 4)
  else if n = 45 then some 62
  else if n = 95 then some 63
  else none

/-- Three bytes make four symbols, and what is left makes three or two of them
without padding. -/
def encode : List UInt8 → List Char
  | a :: b :: c :: rest =>
      let n := (a.toNat * 256 + b.toNat) * 256 + c.toNat
      symbol (n / 262144) :: symbol (n / 4096 % 64) :: symbol (n / 64 % 64) :: symbol (n % 64) :: encode rest
  | [a, b] =>
      let n := (a.toNat * 256 + b.toNat) * 4
      [symbol (n / 4096), symbol (n / 64 % 64), symbol (n % 64)]
  | [a] =>
      let n := a.toNat * 16
      [symbol (n / 64), symbol (n % 64)]
  | [] => []

/-- Bits of the last symbol that belong to no byte must be zero. -/
def decode : List Char → Option (List UInt8)
  | w :: x :: y :: z :: rest => do
      let w ← sextet w
      let x ← sextet x
      let y ← sextet y
      let z ← sextet z
      let n := ((w * 64 + x) * 64 + y) * 64 + z
      let bytes ← decode rest
      return UInt8.ofNat (n / 65536) :: UInt8.ofNat (n / 256 % 256) :: UInt8.ofNat (n % 256) :: bytes
  | [w, x, y] => do
      let w ← sextet w
      let x ← sextet x
      let y ← sextet y
      let n := (w * 64 + x) * 64 + y
      if n % 4 = 0 then some [UInt8.ofNat (n / 1024), UInt8.ofNat (n / 4 % 256)] else none
  | [w, x] => do
      let w ← sextet w
      let x ← sextet x
      let n := w * 64 + x
      if n % 16 = 0 then some [UInt8.ofNat (n / 16)] else none
  | [_] => none
  | [] => some []

theorem sextet_symbol {n : Nat} (h : n < 64) : sextet (symbol n) = some n := by
  have hall : ∀ n : Fin 64, sextet (symbol n) = some n.val := by decide
  exact hall ⟨n, h⟩

theorem ofNat_eq {a : UInt8} {n : Nat} (h : n = a.toNat) : UInt8.ofNat n = a := by
  rw [h, UInt8.ofNat_toNat]

theorem decode_encode (bytes : List UInt8) : decode (encode bytes) = some bytes := by
  fun_induction encode bytes with
  | case1 a b c rest n ih =>
      have ha := a.toNat_lt
      have hb := b.toNat_lt
      have hc := c.toNat_lt
      have hn : n = (a.toNat * 256 + b.toNat) * 256 + c.toNat := rfl
      have hsum : ((n / 262144 * 64 + n / 4096 % 64) * 64 + n / 64 % 64) * 64 + n % 64 = n := by omega
      simp only [decode, sextet_symbol (by omega : n / 262144 < 64), sextet_symbol (by omega : n / 4096 % 64 < 64),
        sextet_symbol (by omega : n / 64 % 64 < 64), sextet_symbol (by omega : n % 64 < 64), Option.bind_eq_bind, Option.bind_some,
        hsum, ih]
      rw [ofNat_eq (by omega : n / 65536 = a.toNat), ofNat_eq (by omega : n / 256 % 256 = b.toNat),
        ofNat_eq (by omega : n % 256 = c.toNat)]
      rfl
  | case2 a b n =>
      have ha := a.toNat_lt
      have hb := b.toNat_lt
      have hn : n = (a.toNat * 256 + b.toNat) * 4 := rfl
      have hsum : (n / 4096 * 64 + n / 64 % 64) * 64 + n % 64 = n := by omega
      simp only [decode, sextet_symbol (by omega : n / 4096 < 64), sextet_symbol (by omega : n / 64 % 64 < 64),
        sextet_symbol (by omega : n % 64 < 64), Option.bind_eq_bind, Option.bind_some, hsum, if_pos (by omega : n % 4 = 0)]
      rw [ofNat_eq (by omega : n / 1024 = a.toNat), ofNat_eq (by omega : n / 4 % 256 = b.toNat)]
  | case3 a n =>
      have ha := a.toNat_lt
      have hn : n = a.toNat * 16 := rfl
      have hsum : n / 64 * 64 + n % 64 = n := by omega
      simp only [decode, sextet_symbol (by omega : n / 64 < 64), sextet_symbol (by omega : n % 64 < 64), Option.bind_eq_bind,
        Option.bind_some, hsum, if_pos (by omega : n % 16 = 0)]
      rw [ofNat_eq (by omega : n / 16 = a.toNat)]
  | case4 => rfl

theorem length_encode_le (bytes : List UInt8) : (encode bytes).length ≤ 2 * bytes.length := by
  fun_induction encode bytes with
  | case1 a b c rest n ih =>
      simp only [List.length_cons]
      omega
  | case2 a b n => simp
  | case3 a n => simp
  | case4 => simp

example : encode [251, 255, 254, 77] = "-__-TQ".toList := by decide

end Galadril.Lib.Base64
