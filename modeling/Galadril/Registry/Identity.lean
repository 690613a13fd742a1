import Mathlib

namespace Galadril.Registry.Identity

/-- Nonempty, bounded in bytes, and made of ASCII letters, digits and the given
punctuation. -/
def plain (least most : Nat) (punctuation : List Char) (value : String) : Bool :=
  least ≤ value.utf8ByteSize && value.utf8ByteSize ≤ most &&
    value.toList.all (fun c => c.isAlphanum || punctuation.contains c)

def validTenant : String → Bool := plain 1 64 ['_', '-']

def validRevision : String → Bool := plain 20 128 ['_', '-']

def validIdentity : String → Bool := plain 1 128 ['_', '-', '.', ':']

def validId : String → Bool := plain 1 128 ['_', '-', '.', ':']

def validBranch : String → Bool := plain 1 128 ['_', '-']

/-- Pipeline and source names inside a transfer reference. -/
def identity : String → Bool := plain 1 128 ['_', '-']

def validMailbox (value : String) : Bool :=
  value.utf8ByteSize == 32 && value.toList.all (fun c =>
    c.isDigit || (97 ≤ c.toNat && c.toNat ≤ 102) || (65 ≤ c.toNat && c.toNat ≤ 70))

def isWhitespace (c : Char) : Bool :=
  let n := c.toNat
  (9 ≤ n && n ≤ 13) || n == 32 || n == 0x85 || n == 0xa0 || n == 0x1680 ||
    (0x2000 ≤ n && n ≤ 0x200a) || n == 0x2028 || n == 0x2029 || n == 0x202f || n == 0x205f || n == 0x3000

def blank (value : String) : Bool := value.toList.all isWhitespace

def startsWith (stem value : String) : Bool := stem.toList.isPrefixOf value.toList

theorem validIdentity_of_validBranch {value : String} (h : validBranch value = true) :
    validIdentity value = true := by
  simp only [validBranch, validIdentity, plain, Bool.and_eq_true, List.all_eq_true] at h ⊢
  refine ⟨h.1, fun c hc => ?_⟩
  have := h.2 c hc
  simp only [List.contains_cons, List.contains_nil, Bool.or_eq_true, Bool.or_false] at this ⊢
  tauto

end Galadril.Registry.Identity
