import Galadril.Json.Value

namespace Galadril.Json

def hexDigit (n : Nat) : Char := if n < 10 then Char.ofNat (48 + n) else Char.ofNat (87 + n)

/-- Quotation mark, backslash and control characters are escaped; every other
character is written as it is. -/
def escapeChar (c : Char) : List Char :=
  let backslash := Char.ofNat 92
  match c.toNat with
  | 8 => [backslash, 'b']
  | 9 => [backslash, 't']
  | 10 => [backslash, 'n']
  | 12 => [backslash, 'f']
  | 13 => [backslash, 'r']
  | 34 => [backslash, c]
  | 92 => [backslash, c]
  | n => if n < 32 then [backslash, 'u', '0', '0', hexDigit (n / 16), hexDigit (n % 16)] else [c]

def quoted (s : String) : List Char :=
  let mark := Char.ofNat 34
  mark :: s.toList.flatMap escapeChar ++ [mark]

def Number.render : Number → List Char
  | .int n => (toString n).toList
  | .float text => text.toList

namespace Value

mutual

/-- The compact text of a document, members in insertion order. -/
def render : Value → List Char
  | .null => "null".toList
  | .bool true => "true".toList
  | .bool false => "false".toList
  | .number n => n.render
  | .string s => quoted s
  | .array items => '[' :: renderItems items ++ [']']
  | .object members => Char.ofNat 123 :: renderMembers members ++ [Char.ofNat 125]

def renderItems : List Value → List Char
  | [] => []
  | [v] => render v
  | v :: rest => render v ++ ',' :: renderItems rest

def renderMembers : Members → List Char
  | [] => []
  | [(k, v)] => quoted k ++ ':' :: render v
  | (k, v) :: rest => quoted k ++ ':' :: render v ++ ',' :: renderMembers rest

end

def toVec (v : Value) : List UInt8 := v.render.flatMap String.utf8EncodeChar

end Value

end Galadril.Json
