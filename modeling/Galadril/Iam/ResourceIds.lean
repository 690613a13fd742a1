import Galadril.Iam.Roles
import Galadril.Lib.Text
import Galadril.Lib.Escapes
import Galadril.Registry.Identity

namespace Galadril.Iam.ResourceAccess

open Lib Lib.Checked Lib.Escapes Lib.Text Registry.Identity

def trim (value : String) : String := String.ofList (trimBy isWhitespace value.toList)

/-- Validates the canonical tenant identifier shared across security systems. -/
def validateTenantId (tenantId : String) : Except String String := do
  let tenantId := trim tenantId
  ensure (!tenantId.isEmpty) "tenant_id is empty"
  ensure (tenantId.utf8ByteSize ≤ 64) "tenant_id is too long"
  ensure (tenantId.toList.all identifierChar) "tenant_id contains invalid characters"
  return tenantId

def supported (b : UInt8) : Bool :=
  (48 ≤ b.toNat && b.toNat ≤ 57) || (65 ≤ b.toNat && b.toNat ≤ 90) || (97 ≤ b.toNat && b.toNat ≤ 122) ||
    b == 47 || b == 95 || b == 124 || b == 45 || b == 43

/-- Escapes arbitrary domain identifiers into SpiceDB's injective object-ID
alphabet. -/
def canonicalSpicedbObjectId (value : String) : String :=
  if (encode value.toList).all supported then value
  else String.ofList (escape supported '=' (encode value.toList))

/-- Reverses only Gateway's canonical escaping; malformed tuples fail closed. -/
def decodeId (value : String) : Except String String := do
  let bytes ← context (unescape '=' (encode value.toList)) "Invalid resource encoding"
  let text ← context (decode bytes) "Invalid resource identifier"
  return String.ofList text

def tenantQualifiedResourceId (tenantId resourceType resourceId : String) : Except String String := do
  let tenant ← validateTenantId tenantId
  let id := trim resourceId
  ensure (!id.isEmpty) "resource identifier is required"
  if resourceType == "tenant" then do
    ensure (id == tenant) "tenant resource does not match security context"
    return id
  else if (tenant ++ "/").toList.isPrefixOf id.toList then return id
  else do
    ensure (!id.toList.contains '/') "cross-tenant resource identifier rejected"
    return tenant ++ "/" ++ id

theorem supported_lawful : Lawful supported '=' where
  ascii b hb := by
    simp only [supported, Bool.or_eq_true, Bool.and_eq_true, decide_eq_true_eq, beq_iff_eq] at hb
    rcases hb with (((((((h | h) | h) | rfl) | rfl) | rfl) | rfl) | rfl) <;> first | omega | decide
  unmarked b hb := by
    intro heq
    have hn : b.toNat < 256 := b.toNat_lt
    have : b = 61 := by
      have htoNat := congrArg Char.toNat heq
      rw [Char.ofNat, dif_pos (Or.inl (by omega))] at htoNat
      exact UInt8.toNat_inj.mp htoNat
    subst this
    cases hb
  mark_ascii := by decide

theorem toList_canonical (value : String) :
    (canonicalSpicedbObjectId value).toList = escape supported '=' (encode value.toList) := by
  rw [canonicalSpicedbObjectId]
  split
  · next hall =>
    rw [List.all_eq_true] at hall
    refine (escape_plain fun c hc => ?_).symm
    rcases Nat.lt_or_ge c.toNat 128 with hascii | hwide
    · refine ⟨hascii, hall _ (List.mem_flatMap.mpr ⟨c, hc, ?_⟩)⟩
      rw [encodeChar_ascii hascii]
      exact List.mem_singleton_self _
    · cases hcode : String.utf8EncodeChar c with
      | nil => exact absurd hcode String.utf8EncodeChar_ne_nil
      | cons b bytes =>
          have hb : b ∈ String.utf8EncodeChar c := hcode ▸ List.mem_cons_self
          have := supported_lawful.ascii b (hall b (List.mem_flatMap.mpr ⟨c, hc, hb⟩))
          have := encodeChar_wide hwide b hb
          omega
  · rw [String.toList_ofList]

theorem canonical_inj {a b : String} (h : canonicalSpicedbObjectId a = canonicalSpicedbObjectId b) : a = b := by
  have htext := congrArg String.toList h
  rw [toList_canonical, toList_canonical] at htext
  exact String.toList_inj.mp (encode_inj (supported_lawful.escape_inj htext))

theorem decodeId_eq {value : String} {text : List Char} (h : value.toList = escape supported '=' (encode text)) :
    decodeId value = .ok (String.ofList text) := by
  rw [decodeId, h, supported_lawful.unescape_encode]
  simp only [context_some, ok_bind, decode_encode]
  rfl

@[simp] theorem decodeId_canonical (value : String) : decodeId (canonicalSpicedbObjectId value) = .ok value := by
  rw [decodeId_eq (toList_canonical value), String.ofList_toList]

theorem identifierChar_ascii {c : Char} (h : identifierChar c = true) : c.toNat < 128 := by
  simp only [identifierChar, Bool.or_eq_true, beq_iff_eq] at h
  rcases h with (h | rfl) | rfl
  · simp only [Char.isAlphanum, Char.isAlpha, Char.isUpper, Char.isLower, Char.isDigit, Bool.or_eq_true, Bool.and_eq_true,
      decide_eq_true_eq, UInt32.le_iff_toNat_le, ge_iff_le] at h
    change ((65 ≤ c.toNat ∧ c.toNat ≤ 90) ∨ 97 ≤ c.toNat ∧ c.toNat ≤ 122) ∨ 48 ≤ c.toNat ∧ c.toNat ≤ 57 at h
    omega
  · decide
  · decide

theorem identifierChar_facts {c : Char} (h : identifierChar c = true) :
    supported (UInt8.ofNat c.toNat) = true ∧ isWhitespace c = false ∧ c ≠ '/' ∧ c ≠ '=' := by
  have hall : ∀ n : Fin 128, identifierChar (Char.ofNat n.val) = true → supported (UInt8.ofNat n.val) = true ∧
      isWhitespace (Char.ofNat n.val) = false ∧ Char.ofNat n.val ≠ '/' ∧ Char.ofNat n.val ≠ '=' := by decide +kernel
  have hc := hall ⟨c.toNat, identifierChar_ascii h⟩
  dsimp only at hc
  rw [Char.ofNat_toNat] at hc
  exact hc h

variable {tenant : String}

theorem tenant_chars (h : validateTenantId tenant = .ok tenant) :
    tenant.toList ≠ [] ∧ ∀ c ∈ tenant.toList, identifierChar c = true := by
  simp only [validateTenantId, bind_eq_ok, ensure_eq_ok, pure_eq_ok] at h
  obtain ⟨_, hne, _, _, _, hall, heq⟩ := h
  rw [heq] at hne hall
  exact ⟨by simpa using hne, List.all_eq_true.mp hall⟩

def scope (tenant : String) : List Char := tenant.toList ++ ['/']

theorem scope_plain (h : validateTenantId tenant = .ok tenant) :
    ∀ c ∈ scope tenant, c.toNat < 128 ∧ supported (UInt8.ofNat c.toNat) = true := by
  intro c hc
  rcases List.mem_append.mp hc with hc | hc
  · have hchar := (tenant_chars h).2 c hc
    exact ⟨identifierChar_ascii hchar, (identifierChar_facts hchar).1⟩
  · obtain rfl := List.mem_singleton.mp hc
    decide

theorem scope_unmarked (h : validateTenantId tenant = .ok tenant) : '=' ∉ scope tenant := by
  intro hmem
  rcases List.mem_append.mp hmem with hc | hc
  · exact (identifierChar_facts ((tenant_chars h).2 _ hc)).2.2.2 rfl
  · exact absurd hc (by decide)

theorem toList_canonical_scope (h : validateTenantId tenant = .ok tenant) (text : List Char) :
    (canonicalSpicedbObjectId (String.ofList (scope tenant ++ text))).toList =
      scope tenant ++ escape supported '=' (encode text) := by
  rw [toList_canonical, String.toList_ofList, encode_append, escape_append, escape_plain (scope_plain h)]

/-- Trimming a resource id of a tenant removes white space at its end. -/
theorem trim_scope (h : validateTenantId tenant = .ok tenant) (text : List Char) :
    trim (String.ofList (scope tenant ++ text)) = String.ofList (scope tenant ++ text.rdropWhile isWhitespace) := by
  obtain ⟨hne, hall⟩ := tenant_chars h
  rw [trim, String.toList_ofList]
  congr 1
  have hstart : (scope tenant ++ text).dropWhile isWhitespace = scope tenant ++ text := by
    cases hchars : tenant.toList with
    | nil => exact absurd hchars hne
    | cons c chars =>
        rw [scope, hchars, List.cons_append, List.cons_append, List.dropWhile_cons_of_neg]
        rw [(identifierChar_facts (hall c (hchars ▸ List.mem_cons_self))).2.1]
        decide
  rw [trimBy, hstart]
  change (scope tenant ++ text).rdropWhile isWhitespace = _
  clear hstart
  induction text using List.reverseRecOn with
  | nil =>
      rw [List.append_nil, scope, List.rdropWhile_concat_neg _ _ _ (by decide), List.rdropWhile_nil, List.append_nil]
  | append_singleton text c ih =>
      rw [← List.append_assoc]
      by_cases hc : isWhitespace c
      · rw [List.rdropWhile_concat_pos _ _ _ hc, List.rdropWhile_concat_pos _ _ _ hc, ih]
      · rw [List.rdropWhile_concat_neg _ _ _ hc, List.rdropWhile_concat_neg _ _ _ hc, List.append_assoc]

/-- An id that is qualified is checked without the white space at its end. -/
theorem tenantQualifiedResourceId_scope (h : validateTenantId tenant = .ok tenant) {resourceType : String}
    (htype : resourceType ≠ "tenant") (text : List Char) :
    tenantQualifiedResourceId tenant resourceType (String.ofList (scope tenant ++ text)) =
      .ok (String.ofList (scope tenant ++ text.rdropWhile isWhitespace)) := by
  have hnonempty : (!(String.ofList (scope tenant ++ text.rdropWhile isWhitespace)).isEmpty) = true := by
    simp [scope]
  have hscoped : (tenant ++ "/").toList.isPrefixOf
      (String.ofList (scope tenant ++ text.rdropWhile isWhitespace)).toList = true := by
    rw [String.toList_ofList, List.isPrefixOf_iff_prefix, String.toList_append]
    exact List.prefix_append _ _
  have htypeb : (resourceType == "tenant") = false := beq_eq_false_iff_ne.mpr htype
  simp only [tenantQualifiedResourceId, h, ok_bind, trim_scope h, hnonempty, hscoped, htypeb, ensure_true, Bool.false_eq_true,
    if_true, if_false]
  rfl

end Galadril.Iam.ResourceAccess
