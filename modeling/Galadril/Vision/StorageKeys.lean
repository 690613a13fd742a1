import Galadril.Vision.Embeddings

namespace Galadril.Vision

open Lib Lib.Characters Lib.Text

variable (lower : String → String)

def normalizeEmbeddingModality : PyValue → Except String String
  | .str text =>
      let modality := lower (PythonText.strip text)
      if modality = "" then .error "embedding modality is required"
      else .ok (String.ofList (stemOrLast (fileName modality.toList)))
  | _ => .error "embedding modality must be a string"

def chosenName (item : Item) (modality : String) : PyValue :=
  PyValue.orElse (item "model_name") (PyValue.orElse (item "modality") (.str modality))

def itemModality (item : Item) (modality : String) :
    Except String String := normalizeEmbeddingModality lower (chosenName item modality)

def resolvedItem (item : Item) (itemModality : String) : Item := fun key =>
  if key = "model_name" then some (.str itemModality)
  else if key = "modality" then
    match item "modality" with
    | some value => some value
    | none => some (.str itemModality)
  else item key

variable (json : PyValue → PyValue)

/-- An item that was written as JSON and read again. -/
def passed (item : Item) : Item := fun key => (item key).map json

def stateModality (item : Item) (modality : String) : Except String String :=
  normalizeEmbeddingModality lower (PyValue.orElse (item "modality") (PyValue.orElse (item "model_name") (.str modality)))

def storeKey (modality : Except String String) :
    Except String String := modality.bind fun key => normalizeEmbeddingModality lower (.str key)

def SearchedWhereStored (item : Item) (modality sinkModality : String) : Prop :=
  ∀ key, itemModality lower item modality = .ok key →
    storeKey lower (.ok key) = .ok key ∧
    stateModality lower (passed json (resolvedItem item key)) sinkModality = .ok key ∧
    storeKey lower (stateModality lower (passed json (resolvedItem item key)) sinkModality) = .ok key

def isArtifact (extension : List Char) : Bool := modelArtifactExtensions.contains (String.ofList extension)

def Trimmed (part : List Char) : Prop := part ≠ [] ∧ trimBy PythonText.isSpace part = part

instance (part : List Char) : Decidable (Trimmed part) := inferInstanceAs (Decidable (_ ∧ _))

def SettledName (name : List Char) : Prop :=
  match rsplitOnce '.' name with
  | none => Trimmed name
  | some (stem, extension) => if isArtifact extension then '.' ∉ stem ∧ Trimmed stem else Trimmed extension

def baseName (name : List Char) : List Char :=
  match rsplitOnce '.' name with
  | some (stem, extension) => if isArtifact extension then stem else name
  | none => name

def otherExtension (name : List Char) : Option (List Char × List Char) :=
  match rsplitOnce '.' name with
  | some (stem, extension) => if isArtifact extension then none else some (stem, extension)
  | none => none

/-- The two names are not brought together by dropping what stands before an
extension of another kind. -/
def Apart (name name' : List Char) : Prop :=
  match otherExtension name, otherExtension name' with
  | none, none => True
  | some (_, extension), none => extension ≠ baseName name'
  | none, some (_, extension) => baseName name ≠ extension
  | some (stem, extension), some (stem', extension') => extension = extension' → stem = stem'

def nameOf (lower : String → String) (text : String) : List Char := fileName (lower (PythonText.strip text)).toList

def Distinguished (lower : String → String) (text text' : String) : Prop :=
  ∀ key key', normalizeEmbeddingModality lower (.str text) = .ok key → normalizeEmbeddingModality lower (.str text') = .ok key' →
    baseName (nameOf lower text) ≠ baseName (nameOf lower text') → key ≠ key'

def Lowers (lower : String → String) : Prop := ∀ text part : String, part.toList <:+: (lower text).toList → lower part = part

theorem fileName_suffix (path : List Char) : fileName path <:+ path := by
  rw [fileName]
  rcases absent_or_last '/' path with h | ⟨before, after, rfl, hafter⟩
  · rw [rsplitOnce_absent h]
  · rw [rsplitOnce_append hafter]
    exact ⟨before ++ ['/'], by simp⟩

theorem slash_not_mem_fileName (path : List Char) : '/' ∉ fileName path := by
  rw [fileName]
  rcases absent_or_last '/' path with h | ⟨before, after, rfl, hafter⟩
  · rw [rsplitOnce_absent h]
    exact h
  · rw [rsplitOnce_append hafter]
    exact hafter

theorem fileName_eq_self {path : List Char} (h : '/' ∉ path) : fileName path = path := by rw [fileName, rsplitOnce_absent h]

theorem stemOrLast_absent {name : List Char} (h : '.' ∉ name) : stemOrLast name = name := by rw [stemOrLast, rsplitOnce_absent h]

theorem stemOrLast_append {extension : List Char} (h : '.' ∉ extension) (stem : List Char) :
    stemOrLast (stem ++ '.' :: extension) = if isArtifact extension then stem else extension := by
  rw [stemOrLast, rsplitOnce_append h]
  rfl

theorem stemOrLast_within (name : List Char) : stemOrLast name <:+: name := by
  rcases absent_or_last '.' name with h | ⟨stem, extension, rfl, hextension⟩
  · rw [stemOrLast_absent h]
  · rw [stemOrLast_append hextension]
    split
    · exact (List.prefix_append stem _).isInfix
    · exact ⟨stem ++ ['.'], [], by simp⟩

theorem stemOrLast_eq_self_iff {name : List Char} : stemOrLast name = name ↔ '.' ∉ name := by
  refine ⟨fun h => ?_, stemOrLast_absent⟩
  rcases absent_or_last '.' name with habsent | ⟨stem, extension, rfl, hextension⟩
  · exact habsent
  · -- A part of a name with a dot is shorter than the name.
    have hlength := congrArg List.length h
    rw [stemOrLast_append hextension] at hlength
    split at hlength
    · simp at hlength
    · simp at hlength
      omega

theorem settledName_iff {name : List Char} : SettledName name ↔ '.' ∉ stemOrLast name ∧ Trimmed (stemOrLast name) := by
  rw [SettledName]
  rcases absent_or_last '.' name with h | ⟨stem, extension, rfl, hextension⟩
  · rw [rsplitOnce_absent h, stemOrLast_absent h]
    exact (and_iff_right h).symm
  · rw [rsplitOnce_append hextension, stemOrLast_append hextension]
    dsimp only
    split
    · exact Iff.rfl
    · exact (and_iff_right hextension).symm

theorem trimBy_within (p : Char → Bool) (value : List Char) : trimBy p value <:+: value :=
  (List.rdropWhile_prefix p (value.dropWhile p)).isInfix.trans (List.dropWhile_suffix p).isInfix

section Idempotence

variable {lower : String → String}

theorem lower_strip (hlower : Lowers lower) {text : String} {part : List Char} (h : part <:+: (lower text).toList) :
    lower (PythonText.strip (String.ofList part)) = String.ofList (trimBy PythonText.isSpace part) := by
  rw [PythonText.strip, String.toList_ofList]
  exact hlower text _ (by rw [String.toList_ofList]; exact (trimBy_within _ part).trans h)

/-- A part of a name in lower case is its own key just when it has no dot and
nothing to strip. -/
theorem normalize_part_iff (hlower : Lowers lower) {text : String} {part : List Char} (h : part <:+: (lower text).toList)
    (hslash : '/' ∉ part) :
    normalizeEmbeddingModality lower (.str (String.ofList part)) = .ok (String.ofList part) ↔ '.' ∉ part ∧ Trimmed part := by
  have hsub := trimBy_within PythonText.isSpace part
  rw [normalizeEmbeddingModality, lower_strip hlower h]
  rw [String.toList_ofList, fileName_eq_self fun hmem => hslash (hsub.subset hmem)]
  constructor
  · intro hkey
    split at hkey
    · cases hkey
    · next hne =>
      rw [Except.ok.injEq, String.ofList_inj] at hkey
      have hle : part.length ≤ (trimBy PythonText.isSpace part).length := by
        conv_lhs => rw [← hkey]
        exact (stemOrLast_within _).length_le
      have htrim : trimBy PythonText.isSpace part = part := hsub.eq_of_length_le hle
      rw [htrim] at hkey hne
      exact ⟨stemOrLast_eq_self_iff.mp hkey, fun hnil => hne (by rw [hnil]), htrim⟩
  · rintro ⟨hdot, hne, htrim⟩
    rw [htrim, stemOrLast_absent hdot, if_neg]
    intro hempty
    exact hne (String.ofList_inj.mp hempty)

theorem normalize_text {text : String} (h : lower (PythonText.strip text) ≠ "") :
    normalizeEmbeddingModality lower (.str text) = .ok (String.ofList (stemOrLast (nameOf lower text))) := by
  rw [normalizeEmbeddingModality, if_neg h]
  rfl

theorem normalize_blank {text : String} (h : lower (PythonText.strip text) = "") :
    normalizeEmbeddingModality lower (.str text) = .error "embedding modality is required" := by
  rw [normalizeEmbeddingModality, if_pos h]

theorem normalize_key_iff (hlower : Lowers lower) (text : String) :
    normalizeEmbeddingModality lower (.str (String.ofList (stemOrLast (nameOf lower text)))) =
      .ok (String.ofList (stemOrLast (nameOf lower text))) ↔ SettledName (nameOf lower text) := by
  have hpiece := stemOrLast_within (nameOf lower text)
  rw [settledName_iff, normalize_part_iff hlower (hpiece.trans (fileName_suffix _).isInfix)
    fun hmem => slash_not_mem_fileName _ (hpiece.subset hmem)]

theorem normalizeModelKey_text {text : String} (h : lower (PythonText.strip text) ≠ "") :
    normalizeModelKey lower (.str text) = String.ofList (stemOrLast (nameOf lower text)) := by
  rw [nameOf]
  unfold normalizeModelKey
  simp only [if_neg h]

end Idempotence

section Selection

variable {lower : String → String} {json : PyValue → PyValue}

theorem PyValue.orElse_of_truthy {value other : PyValue} (h : value.truthy = true) : PyValue.orElse (some value) other = value := by
  rw [PyValue.orElse]
  exact if_pos h

theorem PyValue.orElse_of_falsy {value other : PyValue} (h : value.truthy = false) : PyValue.orElse (some value) other = other := by
  rw [PyValue.orElse]
  exact if_neg (by simp [h])

theorem truthy_str {text : String} (h : text ≠ "") : (PyValue.str text).truthy = true := by simpa [PyValue.truthy] using h

theorem itemModality_eq_ok {item : Item} {modality key : String} (h : itemModality lower item modality = .ok key) :
    ∃ text, chosenName item modality = .str text ∧ lower (PythonText.strip text) ≠ "" ∧
      key = String.ofList (stemOrLast (nameOf lower text)) := by
  rw [itemModality] at h
  match hname : chosenName item modality with
  | .str text =>
      rw [hname] at h
      by_cases hblank : lower (PythonText.strip text) = ""
      · rw [normalize_blank hblank] at h
        cases h
      · rw [normalize_text hblank, Except.ok.injEq] at h
        exact ⟨text, rfl, hblank, h.symm⟩
  | .none | .bool _ | .number _ | .list _ | .tuple _ | .ndarray _ _ | .dict _ =>
      rw [hname] at h
      cases h

/-- The sink goes by a modality that the item had, and else by the modality that
its name was given. -/
theorem stateModality_resolved (hjson : ∀ text, json (.str text) = .str text) {item : Item} {key : String} (hne : key ≠ "")
    (hkey : normalizeEmbeddingModality lower (.str key) = .ok key) (sinkModality : String) :
    stateModality lower (passed json (resolvedItem item key)) sinkModality = .ok key ↔
      ∀ value, item "modality" = some value → (json value).truthy = true →
        normalizeEmbeddingModality lower (json value) = .ok key := by
  have hname : passed json (resolvedItem item key) "model_name" = some (.str key) := by simp [passed, resolvedItem, hjson]
  rw [stateModality, hname, PyValue.orElse_of_truthy (truthy_str hne)]
  match hmodality : item "modality" with
  | none =>
      have hgiven : passed json (resolvedItem item key) "modality" = some (.str key) := by
        simp [passed, resolvedItem, hmodality, hjson]
      rw [hgiven, PyValue.orElse_of_truthy (truthy_str hne)]
      exact ⟨fun _ value hvalue => (by cases hvalue), fun _ => hkey⟩
  | some value =>
      have hgiven : passed json (resolvedItem item key) "modality" = some (json value) := by
        simp [passed, resolvedItem, hmodality]
      rw [hgiven]
      by_cases htruthy : (json value).truthy = true
      · rw [PyValue.orElse_of_truthy htruthy]
        exact ⟨fun h value' hvalue' _ => by cases hvalue'; exact h, fun h => h value rfl htruthy⟩
      · rw [PyValue.orElse_of_falsy (by simpa using htruthy)]
        refine ⟨fun _ value' hvalue' htruthy' => ?_, fun _ => hkey⟩
        cases hvalue'
        exact absurd htruthy' htruthy

/-- An item is found again just when its name is settled and a modality of its
own is the same model. -/
theorem searchedWhereStored_iff (hlower : Lowers lower) (hjson : ∀ text, json (.str text) = .str text) (item : Item)
    (modality sinkModality : String) :
    SearchedWhereStored lower json item modality sinkModality ↔
      ∀ text, chosenName item modality = .str text → lower (PythonText.strip text) ≠ "" →
        SettledName (nameOf lower text) ∧
        ∀ value, item "modality" = some value → (json value).truthy = true →
          normalizeEmbeddingModality lower (json value) = normalizeEmbeddingModality lower (.str text) := by
  constructor
  · intro h text htext hblank
    have haccepted : itemModality lower item modality = .ok (String.ofList (stemOrLast (nameOf lower text))) := by
      rw [itemModality, htext, normalize_text hblank]
    obtain ⟨hkey, hstate, -⟩ := h _ haccepted
    have hsettled := (normalize_key_iff hlower text).mp hkey
    have hne := (settledName_iff.mp hsettled).2.1
    refine ⟨hsettled, fun value hvalue htruthy => ?_⟩
    rw [normalize_text hblank]
    exact (stateModality_resolved hjson (fun hempty => hne (String.ofList_inj.mp hempty)) hkey sinkModality).mp hstate value hvalue
      htruthy
  · intro h key hkey
    obtain ⟨text, htext, hblank, rfl⟩ := itemModality_eq_ok hkey
    obtain ⟨hsettled, hmodality⟩ := h text htext hblank
    rw [normalize_text hblank] at hmodality
    have hne := (settledName_iff.mp hsettled).2.1
    have hidem := (normalize_key_iff hlower text).mpr hsettled
    have hstate := (stateModality_resolved hjson (fun hempty => hne (String.ofList_inj.mp hempty)) hidem sinkModality).mpr hmodality
    exact ⟨hidem, hstate, by rw [hstate]; exact hidem⟩

end Selection

section Distinction

variable {lower : String → String}

theorem baseName_of_none {name : List Char} (h : otherExtension name = none) : baseName name = stemOrLast name := by
  rw [otherExtension] at h
  rcases absent_or_last '.' name with habsent | ⟨stem, extension, rfl, hextension⟩
  · rw [baseName, stemOrLast_absent habsent, rsplitOnce_absent habsent]
  · rw [rsplitOnce_append hextension] at h
    dsimp only at h
    split at h
    · next hartifact => rw [baseName, stemOrLast_append hextension, rsplitOnce_append hextension]; simp [hartifact]
    · cases h

theorem baseName_of_some {name stem extension : List Char} (h : otherExtension name = some (stem, extension)) :
    baseName name = stem ++ '.' :: extension ∧ stemOrLast name = extension := by
  rw [otherExtension] at h
  rcases absent_or_last '.' name with habsent | ⟨before, after, rfl, hafter⟩
  · rw [rsplitOnce_absent habsent] at h
    cases h
  · rw [rsplitOnce_append hafter] at h
    dsimp only at h
    split at h
    · cases h
    · next hartifact =>
      cases h
      rw [baseName, stemOrLast_append hafter, rsplitOnce_append hafter]
      simp [hartifact]

theorem dotted_ne (stem extension : List Char) : stem ++ '.' :: extension ≠ extension := by
  intro h
  have hlength := congrArg List.length h
  simp at hlength
  omega

theorem apart_iff {name name' : List Char} :
    Apart name name' ↔ (baseName name ≠ baseName name' → stemOrLast name ≠ stemOrLast name') := by
  rw [Apart]
  match h : otherExtension name, h' : otherExtension name' with
  | none, none => simp [baseName_of_none h, baseName_of_none h']
  | some (stem, extension), none =>
      obtain ⟨hbase, hkey⟩ := baseName_of_some h
      rw [hbase, hkey, ← baseName_of_none h']
      exact ⟨fun hne _ => hne, fun h heq => h (heq ▸ dotted_ne stem extension) heq⟩
  | none, some (stem', extension') =>
      obtain ⟨hbase, hkey⟩ := baseName_of_some h'
      rw [hbase, hkey, ← baseName_of_none h]
      exact ⟨fun hne _ => hne, fun h heq => h (heq ▸ (dotted_ne stem' extension').symm) heq⟩
  | some (stem, extension), some (stem', extension') =>
      obtain ⟨hbase, hkey⟩ := baseName_of_some h
      obtain ⟨hbase', hkey'⟩ := baseName_of_some h'
      rw [hbase, hkey, hbase', hkey']
      constructor
      · rintro h hne rfl
        exact hne (by rw [h rfl])
      · rintro h rfl
        by_contra hne
        exact h (fun heq => hne (List.append_cancel_right heq)) rfl

/-- Two names have different keys just when nothing that told them apart was cut
away. -/
theorem distinguished_iff (text text' : String) :
    Distinguished lower text text' ↔
      (lower (PythonText.strip text) ≠ "" → lower (PythonText.strip text') ≠ "" →
        Apart (nameOf lower text) (nameOf lower text')) := by
  rw [Distinguished, apart_iff]
  constructor
  · intro h hblank hblank' hbase heq
    exact h _ _ (normalize_text hblank) (normalize_text hblank') hbase (by rw [heq])
  · intro h key key' hkey hkey' hbase heq
    by_cases hblank : lower (PythonText.strip text) = ""
    · rw [normalize_blank hblank] at hkey
      cases hkey
    by_cases hblank' : lower (PythonText.strip text') = ""
    · rw [normalize_blank hblank'] at hkey'
      cases hkey'
    rw [normalize_text hblank, Except.ok.injEq] at hkey
    rw [normalize_text hblank', Except.ok.injEq] at hkey'
    rw [← hkey, ← hkey', String.ofList_inj] at heq
    exact h hblank hblank' hbase heq

end Distinction

section Found

variable {lower : String → String} {json : PyValue → PyValue}

/-- Embeddings are searched where they are stored, under keys that do not change
and that tell models apart, just as far as the names allow it. -/
theorem embeddings_found_iff (hlower : Lowers lower) (hjson : ∀ text, json (.str text) = .str text) :
    (∀ (item : Item) (modality sinkModality : String), SearchedWhereStored lower json item modality sinkModality ↔
      ∀ text, chosenName item modality = .str text → lower (PythonText.strip text) ≠ "" →
        SettledName (nameOf lower text) ∧
        ∀ value, item "modality" = some value → (json value).truthy = true →
          normalizeEmbeddingModality lower (json value) = normalizeEmbeddingModality lower (.str text)) ∧
    (∀ text, lower (PythonText.strip text) ≠ "" →
      (storeKey lower (.ok (normalizeModelKey lower (.str text))) = .ok (normalizeModelKey lower (.str text)) ↔
        SettledName (nameOf lower text))) ∧
    ∀ text text', Distinguished lower text text' ↔
      (lower (PythonText.strip text) ≠ "" → lower (PythonText.strip text') ≠ "" →
        Apart (nameOf lower text) (nameOf lower text')) := by
  refine ⟨searchedWhereStored_iff hlower hjson, fun text hblank => ?_, distinguished_iff⟩
  rw [normalizeModelKey_text hblank]
  exact normalize_key_iff hlower text

def asciiLower (text : String) : String := String.ofList (text.toList.map Char.toLower)

theorem lowers_asciiLower : Lowers asciiLower := by
  intro text part h
  rw [asciiLower, String.toList_ofList] at h
  have hfixed : part.toList.map Char.toLower = part.toList := by
    conv_rhs => rw [← List.map_id part.toList]
    apply List.map_congr_left
    intro c hc
    obtain ⟨d, -, rfl⟩ := List.mem_map.mp (h.subset hc)
    exact Char.toLower_toLower_eq_toLower d
  rw [asciiLower, hfixed, String.ofList_toList]

def faceModel : Item := fun key => if key = "model_name" then some (.str "models/face.onnx") else none

theorem embeddings_found_face : SearchedWhereStored asciiLower id faceModel "data" "data" := by
  refine ((embeddings_found_iff lowers_asciiLower fun _ => rfl).1 faceModel "data" "data").mpr ?_
  rintro text htext -
  cases htext
  exact ⟨settledName_iff.mpr (by decide), fun value hvalue => by cases hvalue⟩

def voiceModel : Item := fun key => if key = "model_name" then some (.str "encoder")
  else if key = "modality" then some (.str "voice") else none

/-- An item with a modality of its own is stored elsewhere, a name with two
extensions changes, and two models of one version have one key. -/
theorem embeddings_lost :
    ¬ (∀ (item : Item) (modality sinkModality : String), SearchedWhereStored asciiLower id item modality sinkModality) ∧
    ¬ (∀ text, storeKey asciiLower (normalizeEmbeddingModality asciiLower (.str text)) =
      normalizeEmbeddingModality asciiLower (.str text)) ∧
    ¬ ∀ text text', Distinguished asciiLower text text' := by
  refine ⟨fun h => ?_, fun h => ?_, fun h => ?_⟩
  · have hstored := (h voiceModel "data" "data" "encoder" (by rfl)).2.1
    have hvoice : stateModality asciiLower (passed id (resolvedItem voiceModel "encoder")) "data" = .ok "voice" := by rfl
    rw [hvoice] at hstored
    simp at hstored
  · have htwice : storeKey asciiLower (normalizeEmbeddingModality asciiLower (.str "face.bin.pt")) = .ok "face" := by rfl
    have honce : normalizeEmbeddingModality asciiLower (.str "face.bin.pt") = .ok "face.bin" := by rfl
    have hsame := h "face.bin.pt"
    rw [htwice, honce] at hsame
    simp at hsame
  · exact h "resnet.v2" "yolo.v2" "v2" "v2" (by rfl) (by rfl) (by decide) rfl

end Found

end Galadril.Vision
