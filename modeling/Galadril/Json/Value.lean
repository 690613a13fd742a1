import Mathlib

namespace Galadril.Json

/-- Integers are exact. A finite double is represented by the shortest decimal
text that reads back as the same double, which is also the text written out. -/
inductive Number
  | int (n : Int)
  | float (text : String)
  deriving DecidableEq

/-- JSON documents whose objects remember the insertion order of their
members, as the locked build of the serializer does. -/
inductive Value
  | null
  | bool (b : Bool)
  | number (n : Number)
  | string (s : String)
  | array (items : List Value)
  | object (members : List (String × Value))

abbrev Members := List (String × Value)

def Members.field : Members → String → Option Value
  | [], _ => none
  | (k, v) :: rest, key => if k = key then some v else Members.field rest key

namespace Value

mutual

def decEq : (a b : Value) → Decidable (a = b)
  | .null, .null => isTrue rfl
  | .bool a, .bool b => decidable_of_iff (a = b) (by simp)
  | .number a, .number b => decidable_of_iff (a = b) (by simp)
  | .string a, .string b => decidable_of_iff (a = b) (by simp)
  | .array a, .array b => @decidable_of_iff _ (a = b) (by simp) (decEqItems a b)
  | .object a, .object b => @decidable_of_iff _ (a = b) (by simp) (decEqMembers a b)
  | .null, .bool _ | .null, .number _ | .null, .string _ | .null, .array _ | .null, .object _
  | .bool _, .null | .bool _, .number _ | .bool _, .string _ | .bool _, .array _ | .bool _, .object _
  | .number _, .null | .number _, .bool _ | .number _, .string _ | .number _, .array _
  | .number _, .object _ | .string _, .null | .string _, .bool _ | .string _, .number _
  | .string _, .array _ | .string _, .object _ | .array _, .null | .array _, .bool _
  | .array _, .number _ | .array _, .string _ | .array _, .object _ | .object _, .null
  | .object _, .bool _ | .object _, .number _ | .object _, .string _ | .object _, .array _ =>
      isFalse (by simp)

def decEqItems : (a b : List Value) → Decidable (a = b)
  | [], [] => isTrue rfl
  | [], _ :: _ | _ :: _, [] => isFalse (by simp)
  | x :: xs, y :: ys =>
      match decEq x y, decEqItems xs ys with
      | isTrue hx, isTrue hxs => isTrue (by rw [hx, hxs])
      | isFalse hx, _ => isFalse (fun h => hx (List.cons.inj h).1)
      | _, isFalse hxs => isFalse (fun h => hxs (List.cons.inj h).2)

def decEqMembers : (a b : Members) → Decidable (a = b)
  | [], [] => isTrue rfl
  | [], _ :: _ | _ :: _, [] => isFalse (by simp)
  | (k, x) :: xs, (l, y) :: ys =>
      match decEq x y, decEqMembers xs ys with
      | isTrue hx, isTrue hxs => decidable_of_iff (k = l) (by simp [hx, hxs])
      | isFalse hx, _ => isFalse (fun h => hx (by simpa using (Prod.mk.inj (List.cons.inj h).1).2))
      | _, isFalse hxs => isFalse (fun h => hxs (List.cons.inj h).2)

end

instance : DecidableEq Value := decEq

def asStr : Value → Option String
  | .string s => some s
  | _ => none

def asBool : Value → Option Bool
  | .bool b => some b
  | _ => none

def asArray : Value → Option (List Value)
  | .array items => some items
  | _ => none

def asObject : Value → Option Members
  | .object members => some members
  | _ => none

def isNull : Value → Bool
  | .null => true
  | _ => false

def isObject (v : Value) : Bool := v.asObject.isSome

/-- Member access is defined on every value and absent outside objects. -/
def get (v : Value) (key : String) : Option Value :=
  match v with
  | .object members => Members.field members key
  | _ => none

def getStr (v : Value) (key : String) : Option String := (v.get key).bind asStr

def getArray (v : Value) (key : String) : Option (List Value) := (v.get key).bind asArray

/-- The pointer /outer/inner. Neither token is an array index here. -/
def pointer (v : Value) (outer inner : String) : Option Value := (v.get outer).bind (·.get inner)

end Value

namespace Members

/-- Insertion keeps the position of a key that is already present. -/
def insert (key : String) (v : Value) : Members → Members
  | [] => [(key, v)]
  | (k, w) :: rest => if k = key then (key, v) :: rest else (k, w) :: insert key v rest

def keys (m : Members) : List String := m.map Prod.fst

def swapRemove (key : String) (m : Members) : Members :=
  match m.findIdx? (fun p => p.1 = key), m.getLast? with
  | some i, some last => if i + 1 = m.length then m.dropLast else (m.set i last).dropLast
  | _, _ => m

end Members

end Galadril.Json
