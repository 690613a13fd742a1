import Galadril.Lib.Orders
import Galadril.Vision.StorageKeys

namespace Galadril.Vision

open Lib Lib.Characters Lib.Orders Lib.Text

variable (text : PyValue → String)

def recordText (record : List (String × PyValue)) : String :=
  match PyValue.orElse (PyValue.field "record_id" record) (.str "record") with
  | .str recordId => recordId
  | value => text value

def observationKey (recordId modality : String) (ordinal : Nat) : String :=
  recordId ++ ":" ++ modality ++ ":" ++ Nat.repr ordinal

def encode (value : String) : List UInt8 := value.toUTF8.data.toList

def bigEndian (ordinal : Nat) : List UInt8 :=
  [UInt8.ofNat (ordinal / 2 ^ 24), UInt8.ofNat (ordinal / 2 ^ 16), UInt8.ofNat (ordinal / 2 ^ 8), UInt8.ofNat ordinal]

/-- The id of an entity that nothing resolves, with the digest in hexadecimal. An
ordinal that four bytes do not hold raises. -/
def fallbackEntityId (digest : List UInt8 → String) (tenantId recordId modality : String) (ordinal : Nat) : Option String :=
  if ordinal < 2 ^ 32 then some ("legacy_" ++ digest (encode tenantId ++ encode recordId ++ encode modality ++ bigEndian ordinal))
  else none

theorem encode_append (a b : String) : encode (a ++ b) = encode a ++ encode b := by
  simp [encode, String.toByteArray_append]

theorem encode_inj {a b : String} : encode a = encode b ↔ a = b := by
  rw [encode, encode, Array.toList_inj, ← ByteArray.ext_iff, String.toUTF8_eq_toByteArray, String.toUTF8_eq_toByteArray,
    String.toByteArray_inj]

theorem bigEndian_inj {m n : Nat} (hm : m < 2 ^ 32) (hn : n < 2 ^ 32) (h : bigEndian m = bigEndian n) : m = n := by
  simp only [bigEndian, List.cons.injEq, ← UInt8.toNat_inj, UInt8.toNat_ofNat', and_true] at h
  omega

/-- The one record's id goes on where the other's ends, and takes the beginning
of its modality. -/
def Shifted (recordId modality recordId' modality' : String) : Prop :=
  ∃ middle, middle ≠ "" ∧ recordId' = recordId ++ middle ∧ modality = middle ++ modality'

theorem not_shifted_same {recordId recordId' modality : String} : ¬ Shifted recordId modality recordId' modality := by
  rintro ⟨middle, hmiddle, -, hmodality⟩
  have hlength := congrArg String.length hmodality
  rw [String.length_append] at hlength
  exact hmiddle (String.length_eq_zero_iff.mp (by omega))

theorem append_eq_iff {a b a' b' : String} : a ++ b = a' ++ b' ↔ (a = a' ∧ b = b') ∨ Shifted a b a' b' ∨ Shifted a' b' a b := by
  constructor
  · intro h
    have hlists := congrArg String.toList h
    rw [String.toList_append, String.toList_append, List.append_eq_append_iff] at hlists
    have hpieces : (∃ middle, a' = a ++ middle ∧ b = middle ++ b') ∨ ∃ middle, a = a' ++ middle ∧ b' = middle ++ b := by
      refine hlists.imp ?_ ?_
      all_goals
        rintro ⟨middle, hleft, hright⟩
        refine ⟨String.ofList middle, String.toList_inj.mp ?_, String.toList_inj.mp ?_⟩
        · rw [String.toList_append, String.toList_ofList, hleft]
        · rw [String.toList_append, String.toList_ofList, hright]
    rcases hpieces with ⟨middle, hleft, hright⟩ | ⟨middle, hleft, hright⟩
    · by_cases hmiddle : middle = ""
      · subst hmiddle
        exact .inl ⟨by simpa using hleft.symm, by simpa using hright⟩
      · exact .inr (.inl ⟨middle, hmiddle, hleft, hright⟩)
    · by_cases hmiddle : middle = ""
      · subst hmiddle
        exact .inl ⟨by simpa using hleft, by simpa using hright.symm⟩
      · exact .inr (.inr ⟨middle, hmiddle, hleft, hright⟩)
  · rintro (⟨rfl, rfl⟩ | ⟨middle, -, rfl, rfl⟩ | ⟨middle, -, rfl, rfl⟩)
    · rfl
    · rw [String.append_assoc]
    · rw [String.append_assoc]

/-- Fallback ids are the same just when the ordinals are and the record and the
modality read alike without a mark between them. -/
theorem fallbackEntityId_eq_iff {digest : List UInt8 → String} (hdigest : Function.Injective digest)
    {tenantId recordId recordId' modality modality' : String} {ordinal ordinal' : Nat} (h : ordinal < 2 ^ 32)
    (h' : ordinal' < 2 ^ 32) :
    fallbackEntityId digest tenantId recordId modality ordinal = fallbackEntityId digest tenantId recordId' modality' ordinal' ↔
      ordinal = ordinal' ∧ recordId ++ modality = recordId' ++ modality' := by
  rw [fallbackEntityId, fallbackEntityId, if_pos h, if_pos h', Option.some.injEq, String.append_right_inj, hdigest.eq_iff]
  simp only [List.append_assoc, List.append_cancel_left_eq]
  constructor
  · intro heq
    rw [← List.append_assoc, ← List.append_assoc] at heq
    obtain ⟨htexts, hordinals⟩ := List.append_inj' heq rfl
    rw [← encode_append, ← encode_append, encode_inj] at htexts
    exact ⟨bigEndian_inj h h' hordinals, htexts⟩
  · rintro ⟨rfl, htexts⟩
    rw [← List.append_assoc, ← List.append_assoc, ← encode_append, ← encode_append, htexts]

theorem observationKey_eq_iff {recordId recordId' modality : String} {ordinal ordinal' : Nat} :
    observationKey recordId modality ordinal = observationKey recordId' modality ordinal' ↔
      recordId = recordId' ∧ ordinal = ordinal' := by
  refine ⟨fun h => ?_, fun ⟨hrecord, hordinal⟩ => by rw [hrecord, hordinal]⟩
  have hkey : ∀ recordId ordinal, rsplitOnce ':' (observationKey recordId modality ordinal).toList =
      some ((recordId ++ (":" ++ modality)).toList, (Nat.repr ordinal).toList) := by
    intro recordId ordinal
    have hdigits : ':' ∉ (Nat.repr ordinal).toList := by
      rw [Nat.toList_repr]
      intro hmem
      have hdigit := Nat.isDigit_of_mem_toDigits (by decide) (by decide) hmem
      exact absurd hdigit (by decide)
    have hsplit : (observationKey recordId modality ordinal).toList =
        (recordId ++ (":" ++ modality)).toList ++ ':' :: (Nat.repr ordinal).toList := by
      simp [observationKey, String.toList_append]
    rw [hsplit, rsplitOnce_append hdigits]
  have hboth := congrArg (fun key => rsplitOnce ':' key.toList) h
  simp only [hkey, Option.some.injEq, Prod.mk.injEq, String.toList_inj, Nat.repr_inj] at hboth
  have hrecord := congrArg String.toList hboth.1
  rw [String.toList_append, @String.toList_append recordId'] at hrecord
  exact ⟨String.toList_inj.mp (List.append_cancel_right hrecord), hboth.2⟩

section Replays

variable (lower : String → String) (text : PyValue → String) (digest : List UInt8 → String)

/-- The items of a record's prediction under the ordinals and identifiers that
they are resolved with, in a process that takes the keys of embeddings in some
order. -/
def identified (order : List String) (prediction : PyValue) (modelName tenantId modality : String)
    (record : List (String × PyValue)) : List (Item × Nat × Except String (String × Option String)) :=
  (extractEmbeddingItems lower order prediction modelName).zipIdx.map fun entry =>
    (entry.1, entry.2, (itemModality lower entry.1 modality).map fun key =>
      (observationKey (recordText text record) key entry.2, fallbackEntityId digest tenantId (recordText text record) key entry.2))

/-- Two executions give the items alike, whatever the order of the keys in each. -/
def Replays (prediction : PyValue) (modelName tenantId modality : String) (record : List (String × PyValue)) : Prop :=
  ∀ order order' : List String, order.Perm embeddingKeys → order'.Perm embeddingKeys →
    identified lower text digest order prediction modelName tenantId modality record =
      identified lower text digest order' prediction modelName tenantId modality record

def Unordered (members : List (String × PyValue)) : Prop := Commuting embeddingKeys fun key => embeddingsUnder key members

variable {lower text digest}

theorem withEmbedding_injective (metadata : Item) : Function.Injective (withEmbedding metadata) := by
  intro a b h
  have hembedding := congrFun h "embedding"
  simpa [withEmbedding] using hembedding

theorem taken_perm_iff {visit : Item × List (String × PyValue)} :
    (∀ order order' : List String, order.Perm embeddingKeys → order'.Perm embeddingKeys → taken order visit = taken order' visit) ↔
      Unordered visit.2 :=
  flatMap_perm_iff.trans (commuting_map (withEmbedding_injective visit.1))

/-- A walk is the same in every order just when each dictionary that it comes to
is. -/
theorem walk_perm_iff {modelKey : String} {inherited : Item} {value : PyValue} :
    (∀ order order' : List String, order.Perm embeddingKeys → order'.Perm embeddingKeys →
      walk lower modelKey order inherited value = walk lower modelKey order' inherited value) ↔
      ∀ visit ∈ visits lower modelKey inherited value, Unordered visit.2 := by
  have hvisits : ∀ order order' : List String, order.Perm embeddingKeys → order'.Perm embeddingKeys →
      (walk lower modelKey order inherited value = walk lower modelKey order' inherited value ↔
        ∀ visit ∈ visits lower modelKey inherited value, taken order visit = taken order' visit) := by
    intro order order' horder horder'
    rw [walk_eq, walk_eq]
    exact flatMap_eq_iff fun visit _ => length_flatMap_perm (horder.trans horder'.symm)
  constructor
  · intro h visit hvisit
    exact taken_perm_iff.mp fun order order' horder horder' =>
      (hvisits order order' horder horder').mp (h order order' horder horder') visit hvisit
  · intro h order order' horder horder'
    exact (hvisits order order' horder horder').mpr fun visit hvisit =>
      taken_perm_iff.mpr (h visit hvisit) order order' horder horder'

theorem identified_eq_iff {order order' : List String} {prediction : PyValue} {modelName tenantId modality : String}
    {record : List (String × PyValue)} :
    identified lower text digest order prediction modelName tenantId modality record =
        identified lower text digest order' prediction modelName tenantId modality record ↔
      extractEmbeddingItems lower order prediction modelName = extractEmbeddingItems lower order' prediction modelName := by
  refine ⟨fun h => ?_, fun h => by rw [identified, identified, h]⟩
  have hitems := congrArg (List.map Prod.fst) h
  simpa [identified, List.map_map, Function.comp_def] using hitems

def walkedDictionaries (lower : String → String) (prediction : PyValue) (modelName : String) : List (List (String × PyValue)) :=
  match prediction with
  | .dict members =>
      let modelKey := normalizeModelKey lower (.str modelName)
      if (faceItems modelKey members).isEmpty then
        (visits lower modelKey (fun key => if key = "model_name" then some (.str modelKey) else none) prediction).map Prod.snd
      else []
  | _ => []

theorem replays_iff {prediction : PyValue} {modelName tenantId modality : String} {record : List (String × PyValue)} :
    Replays lower text digest prediction modelName tenantId modality record ↔
      ∀ members ∈ walkedDictionaries lower prediction modelName, Unordered members := by
  simp only [Replays, identified_eq_iff]
  match prediction with
  | .dict members =>
      simp only [extractEmbeddingItems, walkedDictionaries]
      split
      · rw [walk_perm_iff, List.forall_mem_map]
      · simp
  | .none | .bool _ | .number _ | .str _ | .list _ | .tuple _ | .ndarray _ _ => simp [extractEmbeddingItems, walkedDictionaries]

end Replays

section Origins

structure Origin (ρ : Type) where
  record : ρ
  modality : String
  ordinal : Nat
deriving DecidableEq

variable {ρ : Type} (recordId : ρ → String)

def Traced (digest : List UInt8 → String) (tenantId : String) (a b : Origin ρ) : Prop :=
  ∀ entityId, fallbackEntityId digest tenantId (recordId a.record) a.modality a.ordinal = some entityId →
    fallbackEntityId digest tenantId (recordId b.record) b.modality b.ordinal = some entityId → a = b

def Recorded (a b : Origin ρ) : Prop := recordId a.record = recordId b.record → a.record = b.record

def Unmixed (a b : Origin ρ) : Prop :=
  ¬ Shifted (recordId a.record) a.modality (recordId b.record) b.modality ∧
    ¬ Shifted (recordId b.record) b.modality (recordId a.record) a.modality ∧ (a.modality = b.modality → Recorded recordId a b)

variable {recordId}

theorem Origin.eq_iff {a b : Origin ρ} : a = b ↔ a.record = b.record ∧ a.modality = b.modality ∧ a.ordinal = b.ordinal := by
  cases a
  cases b
  simp

theorem traced_iff {digest : List UInt8 → String} (hdigest : Function.Injective digest) {tenantId : String} {a b : Origin ρ} :
    Traced recordId digest tenantId a b ↔ (a.ordinal = b.ordinal → a.ordinal < 2 ^ 32 → Unmixed recordId a b) := by
  constructor
  · intro h hordinal hlt
    have hsame : recordId a.record ++ a.modality = recordId b.record ++ b.modality → a = b := by
      intro htexts
      have heq := (@fallbackEntityId_eq_iff digest hdigest tenantId _ _ _ _ _ _ hlt (hordinal ▸ hlt)).mpr ⟨hordinal, htexts⟩
      have hsome : ∃ entityId, fallbackEntityId digest tenantId (recordId a.record) a.modality a.ordinal = some entityId :=
        ⟨_, if_pos hlt⟩
      obtain ⟨entityId, hentity⟩ := hsome
      exact h entityId hentity (heq ▸ hentity)
    have happend := @append_eq_iff (recordId a.record) a.modality (recordId b.record) b.modality
    refine ⟨?_, ?_, fun hmodality hrecord => ?_⟩
    · rintro ⟨middle, hmiddle, hrecord, hmodality⟩
      obtain rfl := hsame (happend.mpr (.inr (.inl ⟨middle, hmiddle, hrecord, hmodality⟩)))
      exact hmiddle (by simpa using hrecord.symm)
    · rintro ⟨middle, hmiddle, hrecord, hmodality⟩
      obtain rfl := hsame (happend.mpr (.inr (.inr ⟨middle, hmiddle, hrecord, hmodality⟩)))
      exact hmiddle (by simpa using hrecord.symm)
    · exact (Origin.eq_iff.mp (hsame (happend.mpr (.inl ⟨hrecord, hmodality⟩)))).1
  · intro h entityId ha hb
    have hlt : ∀ {recordId modality : String} {ordinal : Nat},
        fallbackEntityId digest tenantId recordId modality ordinal = some entityId → ordinal < 2 ^ 32 := by
      intro recordId modality ordinal hid
      by_contra hge
      rw [fallbackEntityId, if_neg hge] at hid
      cases hid
    obtain ⟨hordinal, htexts⟩ := (fallbackEntityId_eq_iff hdigest (hlt ha) (hlt hb)).mp (ha.trans hb.symm)
    obtain ⟨hnot, hnot', hrecorded⟩ := h hordinal (hlt ha)
    rcases append_eq_iff.mp htexts with ⟨hrecord, hmodality⟩ | hshift | hshift
    · exact Origin.eq_iff.mpr ⟨hrecorded hmodality hrecord, hmodality, hordinal⟩
    · exact absurd hshift hnot
    · exact absurd hshift hnot'

/-- Items of one modality with one observation key are the same item just when
their records are told apart. -/
theorem keyed_iff {a b : Origin ρ} (hmodality : a.modality = b.modality) :
    (observationKey (recordId a.record) a.modality a.ordinal = observationKey (recordId b.record) b.modality b.ordinal → a = b) ↔
      (a.ordinal = b.ordinal → Recorded recordId a b) := by
  rw [← hmodality, observationKey_eq_iff, Origin.eq_iff]
  exact ⟨fun h hordinal hrecord => (h ⟨hrecord, hordinal⟩).1, fun h ⟨hrecord, hordinal⟩ =>
    ⟨h hordinal hrecord, hmodality, hordinal⟩⟩

end Origins

section Identity

variable {lower : String → String} {text : PyValue → String} {digest : List UInt8 → String}

/-- Items come back alike and under identifiers of their own, just as far as the
keys of embeddings commute and the ids of the records are told apart. -/
theorem observations_identified_iff (hdigest : Function.Injective digest) :
    (∀ (prediction : PyValue) (modelName tenantId modality : String) (record : List (String × PyValue)),
      Replays lower text digest prediction modelName tenantId modality record ↔
        ∀ members ∈ walkedDictionaries lower prediction modelName, Unordered members) ∧
    ∀ (ρ : Type) (record : ρ → List (String × PyValue)) (tenantId : String) (a b : Origin ρ),
      (Traced (fun r => recordText text (record r)) digest tenantId a b ↔
        (a.ordinal = b.ordinal → a.ordinal < 2 ^ 32 → Unmixed (fun r => recordText text (record r)) a b)) ∧
      (a.modality = b.modality →
        ((observationKey (recordText text (record a.record)) a.modality a.ordinal =
            observationKey (recordText text (record b.record)) b.modality b.ordinal → a = b) ↔
          (a.ordinal = b.ordinal → Recorded (fun r => recordText text (record r)) a b))) := by
  refine ⟨fun prediction modelName tenantId modality record => replays_iff, fun ρ record tenantId a b => ⟨traced_iff hdigest, ?_⟩⟩
  exact @keyed_iff ρ (fun r => recordText text (record r)) a b

def shown (bytes : List UInt8) : String := String.ofList (bytes.map fun b => Char.ofNat b.toNat)

theorem shown_injective : Function.Injective shown := by
  refine fun a b h => List.map_injective_iff.mpr ?_ (String.ofList_inj.mp h)
  intro b b' hchar
  have hvalid : ∀ b : UInt8, b.toNat.isValidChar := fun b => .inl (b.toNat_lt.trans (by decide))
  have hnat := congrArg Char.toNat hchar
  rw [Char.toNat_ofNat, Char.toNat_ofNat, if_pos (hvalid b), if_pos (hvalid b')] at hnat
  exact UInt8.toNat_inj.mp hnat

def twoKeys : PyValue := .dict [("embedding", .list [.number "1.0"]), ("vector", .list [.number "2.0"])]

def oneKey : PyValue := .dict [("embedding", .list [.number "1.0"])]

def recordOf (recordId : String) : List (String × PyValue) := [("record_id", .str recordId)]

theorem observations_identified_one :
    Replays asciiLower (fun _ => "") shown oneKey "face.onnx" "acme" "data" (recordOf "7") ∧
      Traced (fun r => recordText (fun _ => "") (recordOf r)) shown "acme" ⟨"7", "face", 0⟩ ⟨"8", "face", 0⟩ := by
  obtain ⟨hreplays, horigins⟩ := @observations_identified_iff asciiLower (fun _ => "") shown shown_injective
  refine ⟨(hreplays oneKey "face.onnx" "acme" "data" (recordOf "7")).mpr ?_, (horigins String recordOf "acme" _ _).1.mpr ?_⟩
  · intro members hmembers
    have hvisited : walkedDictionaries asciiLower oneKey "face.onnx" = [[("embedding", .list [.number "1.0"])]] := by rfl
    rw [hvisited, List.mem_singleton] at hmembers
    subst hmembers
    have hunder : ∀ key, embeddingsUnder key [("embedding", .list [.number "1.0"])] = [] ∨ key = "embedding" := by
      intro key
      by_cases hkey : key = "embedding"
      · exact .inr hkey
      · exact .inl (by simp [embeddingsUnder, PyValue.field, Ne.symm hkey])
    intro key _ key' _
    rcases hunder key with h | rfl
    · simp [h]
    · rcases hunder key' with h | rfl
      · simp [h]
      · rfl
  · intro _ _
    exact ⟨not_shifted_same, not_shifted_same, fun _ hrecord => absurd hrecord (by decide)⟩

/-- The two keys of a dictionary in either order, and a record whose id takes the
beginning of a modality. -/
theorem observations_mixed :
    ¬ (∀ (prediction : PyValue) (modelName tenantId modality : String) (record : List (String × PyValue)),
      Replays asciiLower (fun _ => "") shown prediction modelName tenantId modality record) ∧
    ¬ ∀ a b : Origin String, Traced (fun r => recordText (fun _ => "") (recordOf r)) shown "acme" a b := by
  refine ⟨fun h => ?_, fun h => ?_⟩
  · have hsame := identified_eq_iff.mp (h twoKeys "face" "acme" "data" [] embeddingKeys embeddingKeys.reverse (List.Perm.refl _)
      (List.reverse_perm _))
    have hfirst := congrArg (fun items => items.head?.bind fun item => item "embedding") hsame
    have hone : ((extractEmbeddingItems asciiLower embeddingKeys twoKeys "face").head?.bind fun item => item "embedding") =
        some (.list [.number "1.0"]) := by rfl
    have htwo : ((extractEmbeddingItems asciiLower embeddingKeys.reverse twoKeys "face").head?.bind fun item => item "embedding") =
        some (.list [.number "2.0"]) := by rfl
    rw [hone, htwo] at hfirst
    simp at hfirst
  · have hsame := h ⟨"a", "bc", 0⟩ ⟨"ab", "c", 0⟩ _ rfl rfl
    exact absurd hsame (by decide)

end Identity

end Galadril.Vision
