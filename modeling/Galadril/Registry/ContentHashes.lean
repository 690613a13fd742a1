import Galadril.Json.Ordered
import Galadril.Registry.Domain

namespace Galadril.Registry

open Json Value Pipeline

def collect (members : Members) : Members := members.foldl (fun found p => Members.insert p.1 p.2 found) []

mutual

/-- The document that a content hash is taken of. Maps are rebuilt in their own
order. -/
def canonicalize : Value → Value
  | .object members => .object (collect (canonicalizeMembers members))
  | .array items => .array (canonicalizeItems items)
  | .null => .null
  | .bool b => .bool b
  | .number n => .number n
  | .string s => .string s

def canonicalizeItems : List Value → List Value
  | [] => []
  | v :: rest => canonicalize v :: canonicalizeItems rest

def canonicalizeMembers : Members → Members
  | [] => []
  | (k, v) :: rest => (k, canonicalize v) :: canonicalizeMembers rest

end

theorem insert_new {k : String} {v : Value} {m : Members} (h : k ∉ Members.keys m) : Members.insert k v m = m ++ [(k, v)] := by
  induction m with
  | nil => rfl
  | cons p m ih =>
      obtain ⟨l, w⟩ := p
      simp only [Members.keys, List.map_cons, List.mem_cons, not_or] at h
      rw [Members.insert, if_neg (Ne.symm h.1), ih h.2]
      rfl

theorem collect_eq {members : Members} (h : (Members.keys members).Nodup) : collect members = members := by
  have hfold : ∀ found rest : Members, (Members.keys (found ++ rest)).Nodup →
      rest.foldl (fun found p => Members.insert p.1 p.2 found) found = found ++ rest := by
    intro found rest
    induction rest generalizing found with
    | nil => simp
    | cons p rest ih =>
        intro hnodup
        have hsplit : found ++ p :: rest = found ++ [(p.1, p.2)] ++ rest := by simp
        have hnew : p.1 ∉ Members.keys found := by
          rw [Members.keys, List.map_append, List.map_cons] at hnodup
          exact fun hm => (List.nodup_append.mp hnodup).2.2 p.1 hm p.1 List.mem_cons_self rfl
        rw [List.foldl_cons, insert_new hnew, ih _ (hsplit ▸ hnodup), hsplit]
  exact hfold [] members h

mutual

/-- Rebuilding a document changes nothing about it. -/
theorem canonicalize_eq (v : Value) (h : v.keyed = true) : canonicalize v = v := by
  match v with
  | .null | .bool _ | .number _ | .string _ => rfl
  | .array items => rw [canonicalize, canonicalizeItems_eq items h]
  | .object members => rw [canonicalize, canonicalizeMembers_eq members h, collect_eq (keyed_keys h)]

theorem canonicalizeItems_eq (items : List Value) (h : (Value.array items).keyed = true) : canonicalizeItems items = items := by
  match items with
  | [] => rfl
  | v :: rest =>
      simp only [keyed, keyedItems, Bool.and_eq_true] at h
      rw [canonicalizeItems, canonicalize_eq v h.1, canonicalizeItems_eq rest h.2]

theorem canonicalizeMembers_eq (members : Members) (h : (Value.object members).keyed = true) :
    canonicalizeMembers members = members := by
  match members with
  | [] => rfl
  | (k, v) :: rest =>
      obtain ⟨hv, hrest⟩ := keyedMembers_cons h
      rw [canonicalizeMembers, canonicalize_eq v hv, canonicalizeMembers_eq rest hrest]

end

theorem contentHash_canonicalize (v : Document) : contentHash v.1 = Lib.Sha256.sha256 (canonicalize v.1).toVec := by
  rw [canonicalize_eq v.1 v.2]
  rfl

/-- The hashes of documents that are equal as JSON agree exactly when both list
their members in the same order, as far as the digest tells the two texts
apart. -/
theorem hashes_agree_iff (a b : Document) (h : a.1 ≈ b.1)
    (hdigest : Lib.Sha256.sha256 a.1.toVec = Lib.Sha256.sha256 b.1.toVec → a.1.toVec = b.1.toVec) :
    (Lib.Sha256.sha256 (canonicalize a.1).toVec = Lib.Sha256.sha256 (canonicalize b.1).toVec ∧
      definitionHash a.1 = definitionHash b.1) ↔ aligned a.1 b.1 = true := by
  rw [canonicalize_eq a.1 a.2, canonicalize_eq b.1 b.2, ← toVec_eq_iff a.2 b.2 h]
  constructor
  · rintro ⟨hcontent, -⟩
    exact hdigest hcontent
  · intro hvec
    rw [definitionHash, definitionHash, hvec]
    exact ⟨rfl, rfl⟩

def one : Value := .number (.int 1)

def forwards : Document := ⟨.object [("id", one), ("name", .null)], by decide +kernel⟩

def backwards : Document := ⟨.object [("name", .null), ("id", one)], by decide +kernel⟩

theorem hashes_agree_iff_reversed :
    (Lib.Sha256.sha256 (canonicalize forwards.1).toVec = Lib.Sha256.sha256 (canonicalize backwards.1).toVec ∧
      definitionHash forwards.1 = definitionHash backwards.1) ↔ aligned forwards.1 backwards.1 = true :=
  hashes_agree_iff forwards backwards (by decide +kernel) fun h => absurd h (by decide +kernel)

/-- Two members in the other order change both hashes. -/
theorem hashes_disagree : ∃ a b : Document, a.1 ≈ b.1 ∧
    Lib.Sha256.sha256 (canonicalize a.1).toVec ≠ Lib.Sha256.sha256 (canonicalize b.1).toVec ∧
      definitionHash a.1 ≠ definitionHash b.1 :=
  ⟨forwards, backwards, by decide +kernel, by decide +kernel, by decide +kernel⟩

end Galadril.Registry
