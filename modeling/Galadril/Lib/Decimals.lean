import Mathlib

namespace Galadril.Lib.Decimals

/-- A decimal literal: its sign, the digits on both sides of the point, the sign
and the digits of its exponent. -/
structure Literal where
  negative : Bool
  whole : List Char
  fraction : List Char
  exponentNegative : Bool
  exponent : List Char

def digit (c : Char) : Nat := c.toNat - 48

def natOf (digits : List Char) : Nat := digits.foldl (fun n c => 10 * n + digit c) 0

def signed : List Char → Bool × List Char
  | '-' :: rest => (true, rest)
  | '+' :: rest => (false, rest)
  | rest => (false, rest)

def point : List Char → List Char × List Char
  | '.' :: rest => rest.span Char.isDigit
  | rest => ([], rest)

def exponentOf : List Char → Option (Bool × List Char)
  | [] => some (false, [])
  | c :: rest =>
      let (negative, digits) := signed rest
      if (c = 'e' ∨ c = 'E') ∧ digits ≠ [] ∧ digits.all Char.isDigit then some (negative, digits) else none

def Literal.read (text : List Char) : Option Literal :=
  let (negative, rest) := signed text
  let (whole, rest) := rest.span Char.isDigit
  let (fraction, rest) := point rest
  if whole.isEmpty && fraction.isEmpty then none
  else (exponentOf rest).map fun e => ⟨negative, whole, fraction, e.1, e.2⟩

def Literal.scaled (l : Literal) (exponent : Nat) : ℚ :=
  natOf (l.whole ++ l.fraction) * (10 : ℚ) ^ ((if l.exponentNegative then -(exponent : ℤ) else exponent) - l.fraction.length)

def Literal.value (l : Literal) : ℚ :=
  if l.negative then -l.scaled (natOf l.exponent) else l.scaled (natOf l.exponent)

def numeral (text : String) : Option ℚ := (Literal.read text.toList).map Literal.value

inductive Double
  | finite (negative : Bool) (mantissa : Nat) (exponent : Int)
  | infinite (negative : Bool)
  | nan
deriving DecidableEq

def roundHalfEven (q : ℚ) : Int :=
  let low := q.floor
  if q - low < 1 / 2 then low
  else if 1 / 2 < q - low then low + 1
  else if low % 2 = 0 then low else low + 1

def nearest (negative : Bool) (q : ℚ) : Double :=
  if q = 0 then .finite negative 0 (-1074)
  else
    let e := max (Int.log 2 q - 52) (-1074)
    let m := (roundHalfEven (q / (2 : ℚ) ^ e)).toNat
    let (m, e) := if m = 2 ^ 53 then (2 ^ 52, e + 1) else (m, e)
    if e ≤ 971 then .finite negative m e else .infinite negative

/-- The exponent as the standard library accumulates it. Past 65535 further
digits are dropped. -/
def saturated (digits : List Char) : Nat := digits.foldl (fun n c => if n < 0x10000 then 10 * n + digit c else n) 0

def Double.parse (text : String) : Option Double :=
  let (negative, rest) := signed text.toList
  match Literal.read text.toList with
  | some l => some (nearest l.negative (l.scaled (saturated l.exponent)))
  | none =>
      let name := rest.map Char.toLower
      if name = "nan".toList then some .nan
      else if name = "inf".toList ∨ name = "infinity".toList then some (.infinite negative)
      else none

/-- The fewest digits that name a double, and the exponent of the last one. The
first argument counts the digits that were not tried, the second one the digits
to try. -/
def shortestFrom (m : Nat) (e : Int) : Nat → Nat → Nat × Int
  | 0, n => (m, n)
  | fuel + 1, n =>
      let v : ℚ := m * (2 : ℚ) ^ e
      let unit := Int.log 10 v - n + 1
      let low := (v / (10 : ℚ) ^ unit).floor.toNat
      let names (c : Nat) : Bool := nearest false (c * (10 : ℚ) ^ unit) = .finite false m e
      let rest := v / (10 : ℚ) ^ unit - low
      match names low, names (low + 1) with
      | true, true => (if rest < 1 / 2 ∨ (rest = 1 / 2 ∧ low % 2 = 0) then low else low + 1, unit)
      | true, false => (low, unit)
      | false, true => (low + 1, unit)
      | false, false => shortestFrom m e fuel (n + 1)

def trailing : Nat → Nat → Int → Nat × Int
  | 0, digits, e => (digits, e)
  | fuel + 1, digits, e => if digits % 10 = 0 then trailing fuel (digits / 10) (e + 1) else (digits, e)

def zeros (n : Int) : String := String.ofList (List.replicate n.toNat '0')

def exponentText (e : Int) : String := if 0 ≤ e then "e+" ++ toString e else "e" ++ toString e

/-- Digits with an exponent, with a point where the number is neither large nor
small. -/
def layout (digits : List Char) (e : Int) : String :=
  let places := digits.length + e
  if 0 ≤ e ∧ places ≤ 16 then String.ofList digits ++ zeros e ++ ".0"
  else if 0 < places ∧ places ≤ 16 then
    String.ofList (digits.take places.toNat) ++ "." ++ String.ofList (digits.drop places.toNat)
  else if -5 < places ∧ places ≤ 0 then "0." ++ zeros (-places) ++ String.ofList digits
  else if digits.length = 1 then String.ofList digits ++ exponentText (places - 1)
  else String.ofList (digits.take 1) ++ "." ++ String.ofList (digits.drop 1) ++ exponentText (places - 1)

def shortestText (negative : Bool) (m : Nat) (e : Int) : String :=
  let text :=
    if m = 0 then "0.0"
    else
      let (digits, e) := shortestFrom m e 17 1
      let (digits, e) := trailing 17 digits e
      layout (toString digits).toList e
  if negative then "-" ++ text else text

end Galadril.Lib.Decimals
