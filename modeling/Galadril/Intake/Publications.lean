import Galadril.Intake.Observations

namespace Galadril.Intake

open Json Lib.Checked Lib.Text

variable {env : Surroundings}

/-- Deliveries of one object differ in what the notification says about time. -/
structure SameObject (a b : FileEvent) : Prop where
  bucket : a.bucket = b.bucket
  key : a.key = b.key
  eTag : a.eTag = b.eTag

theorem SameObject.observationId {a b : FileEvent} (h : SameObject a b) (uuid : String → String) (record : Value)
    (ordinal : Nat) : observationId uuid a record ordinal = observationId uuid b record ordinal := by
  simp only [Intake.observationId, observationIds, objectVersion, h.bucket, h.key, h.eTag]

def Publishable (record : Value) : Prop :=
  ∃ members, record = .object members ∧
    (Members.field members "id" = none ∨ ∃ text, text ≠ "" ∧ Members.field members "id" = some (.string text))

theorem enrichRecord_ok {event : FileEvent} {route : ResolvedRoute} {ordinal : Nat} {record : Value}
    (h : Publishable record) : ∃ members, enrichRecord env event route ordinal record =
      .ok (observationId env.uuid event record ordinal, .object members) := by
  obtain ⟨members, rfl, hid | ⟨text, hne, hid⟩⟩ := h
  · simp [enrichRecord, Value.asObject, hid, ok_bind, pure, Except.pure]
  · simp [enrichRecord, Value.asObject, hid, hne, ok_bind, pure, Except.pure]

theorem enrichRecord_error {event : FileEvent} {route : ResolvedRoute} {ordinal : Nat} {record : Value}
    (h : ¬ Publishable record) : ∃ e, enrichRecord env event route ordinal record = .error e := by
  cases record with
  | object members =>
      cases hid : Members.field members "id" with
      | none => exact absurd ⟨members, rfl, .inl hid⟩ h
      | some v =>
          cases v with
          | string text =>
              by_cases hne : text = ""
              · simp [enrichRecord, Value.asObject, hid, hne, bind, Except.bind]
              · exact absurd ⟨members, rfl, .inr ⟨text, hne, hid⟩⟩ h
          | null | bool | number | array | object =>
              simp [enrichRecord, Value.asObject, hid, bind, Except.bind]
  | null | bool | number | string | array => exact ⟨_, rfl⟩

/-- Whether the delegation admits a record does not depend on the record. -/
theorem injectAuthz_object (hints : AuthzHints) (tenant : String) (m n : Members) :
    Accepts (injectAuthz hints tenant (.object m)) ↔ Accepts (injectAuthz hints tenant (.object n)) := by
  simp only [injectAuthz, accepts_bind, Value.asObject, context_some]
  simp [Accepts, pure, Except.pure]

def keysOf (published : List Publication) : List (String × String) := published.map fun p => (p.topic, p.key)

theorem publishRecords_congr {a b : FileEvent} (h : SameObject a b) (route : ResolvedRoute) (ordinal : Nat)
    (records : List Value) :
    keysOf (publishRecords env a route ordinal records).1 = keysOf (publishRecords env b route ordinal records).1 ∧
      (Accepts (publishRecords env a route ordinal records).2 ↔ Accepts (publishRecords env b route ordinal records).2) := by
  induction records generalizing ordinal with
  | nil => exact ⟨rfl, Iff.rfl⟩
  | cons record rest ih =>
      by_cases hp : Publishable record
      · obtain ⟨ma, ha⟩ : ∃ members, enrichRecord env a route ordinal record = _ := enrichRecord_ok hp
        obtain ⟨mb, hb⟩ : ∃ members, enrichRecord env b route ordinal record = _ := enrichRecord_ok hp
        have hiff := injectAuthz_object env.hints env.tenant ma mb
        rw [publishRecords, publishRecords, ha, hb]
        simp only
        cases hia : injectAuthz env.hints env.tenant (.object ma) with
        | error e =>
            cases hib : injectAuthz env.hints env.tenant (.object mb) with
            | error e' => simp [keysOf]
            | ok vb => simp [hia, hib] at hiff
        | ok va =>
            cases hib : injectAuthz env.hints env.tenant (.object mb) with
            | error e' => simp [hia, hib] at hiff
            | ok vb =>
                obtain ⟨hkeys, hok⟩ := ih (ordinal + 1)
                exact ⟨by simpa [keysOf, h.observationId] using hkeys, hok⟩
      · obtain ⟨ea, ha⟩ : ∃ e, enrichRecord env a route ordinal record = .error e := enrichRecord_error hp
        obtain ⟨eb, hb⟩ : ∃ e, enrichRecord env b route ordinal record = .error e := enrichRecord_error hp
        rw [publishRecords, publishRecords, ha, hb]
        simp [keysOf]

/-- What a run publishes is a function of the object, not of the delivery. -/
theorem publishRoutes_congr {a b : FileEvent} (h : SameObject a b) (routes : List ResolvedRoute) :
    keysOf (publishRoutes env a routes).1 = keysOf (publishRoutes env b routes).1 ∧
      (Accepts (publishRoutes env a routes).2 ↔ Accepts (publishRoutes env b routes).2) := by
  induction routes with
  | nil => exact ⟨rfl, Iff.rfl⟩
  | cons route rest ih =>
      rw [publishRoutes, publishRoutes]
      cases env.parse route.parser with
      | error e => exact ⟨rfl, Iff.rfl⟩
      | ok records =>
          obtain ⟨hkeys, hok⟩ := @publishRecords_congr env a b h route 0 records
          simp only
          cases ha : (publishRecords env a route 0 records).2 with
          | error e =>
              cases hb : (publishRecords env b route 0 records).2 with
              | error e' => simpa using hkeys
              | ok u => simp [ha, hb] at hok
          | ok u =>
              cases hb : (publishRecords env b route 0 records).2 with
              | error e' => simp [ha, hb] at hok
              | ok u' =>
                  simp only [keysOf, List.map_append] at hkeys ih ⊢
                  exact ⟨by rw [hkeys, ih.1], ih.2⟩

theorem publishRecords_keys {event : FileEvent} {route : ResolvedRoute} {ordinal : Nat} {records : List Value}
    (h : Accepts (publishRecords env event route ordinal records).2) :
    keysOf (publishRecords env event route ordinal records).1 =
      (records.zipIdx ordinal).map fun r => (route.topic, observationId env.uuid event r.1 r.2) := by
  induction records generalizing ordinal with
  | nil => rfl
  | cons record rest ih =>
      by_cases hp : Publishable record
      · obtain ⟨members, hm⟩ : ∃ members, enrichRecord env event route ordinal record = _ := enrichRecord_ok hp
        rw [publishRecords, hm] at h ⊢
        simp only at h ⊢
        cases hi : injectAuthz env.hints env.tenant (.object members) with
        | error e => simp [hi] at h
        | ok authorized =>
            simp only [hi] at h
            simpa [keysOf, List.zipIdx_cons] using ih h
      · obtain ⟨e, he⟩ : ∃ e, enrichRecord env event route ordinal record = .error e := enrichRecord_error hp
        rw [publishRecords, he] at h
        exact absurd h (not_accepts_error e)

theorem publishRoutes_accepts {event : FileEvent} {routes : List ResolvedRoute}
    (h : Accepts (publishRoutes env event routes).2) {route : ResolvedRoute} (hr : route ∈ routes) :
    ∃ records, env.parse route.parser = .ok records ∧ Accepts (publishRecords env event route 0 records).2 := by
  induction routes with
  | nil => cases hr
  | cons first rest ih =>
      rw [publishRoutes] at h
      cases hparse : env.parse first.parser with
      | error e => simp [hparse] at h
      | ok records =>
          simp only [hparse] at h
          cases hpub : (publishRecords env event first 0 records).2 with
          | error e => simp [hpub] at h
          | ok u =>
              simp only [hpub] at h
              rcases List.mem_cons.mp hr with rfl | hr
              · exact ⟨records, hparse, u, hpub⟩
              · exact ih h hr

def ExplicitlyDistinct (records : List Value) : Prop :=
  ∀ (i j : Nat) (a b : Value), records[i]? = some a → records[j]? = some b → explicitId a ≠ none →
    explicitId a = explicitId b → i = j

def OrdinalFree (records records' : List Value) : Prop :=
  ∀ (i j : Nat) (a b : Value), records[i]? = some a → records'[j]? = some b → explicitId b = none → explicitId a ≠ some (toString j)

/-- Different records of two lists have neither a name nor, without one, an
ordinal in common. -/
def Unmixed (records records' : List Value) : Prop :=
  ∀ (i j : Nat) (a b : Value), records[i]? = some a → records'[j]? = some b → a ≠ b →
    (explicitId a ≠ none → explicitId a ≠ explicitId b) ∧ (explicitId a = none → explicitId b = none → i ≠ j)

def SameRecord (parser parser' : String) (i j : Nat) (a b : Value) : Prop :=
  if parser = parser' then i = j else a = b

theorem fragmentKey_eq_iff {a b : Value} {i j : Nat} : fragmentKey a i = fragmentKey b j ↔
    (explicitId a ≠ none ∧ explicitId a = explicitId b) ∨ (explicitId a = none ∧ explicitId b = none ∧ i = j) ∨
      (explicitId b = none ∧ explicitId a = some (toString j)) ∨ (explicitId a = none ∧ explicitId b = some (toString i)) := by
  cases ha : explicitId a with
  | none =>
      cases hb : explicitId b with
      | none => simp [fragmentKey, ha, hb]
      | some y => simp [fragmentKey, ha, hb, eq_comm]
  | some x =>
      cases hb : explicitId b with
      | none => simp [fragmentKey, ha, hb]
      | some y => simp [fragmentKey, ha, hb]

def Separated (parser parser' : String) (records records' : List Value) : Prop :=
  ∀ (i j : Nat) (a b : Value), records[i]? = some a → records'[j]? = some b → fragmentKey a i = fragmentKey b j →
    SameRecord parser parser' i j a b

theorem separated_self {parser : String} {records : List Value} (hd : ExplicitlyDistinct records) :
    Separated parser parser records records ↔ OrdinalFree records records := by
  constructor
  · intro h i j a b hi hj hb ha
    have hij : SameRecord parser parser i j a b := h i j a b hi hj (fragmentKey_eq_iff.mpr (.inr (.inr (.inl ⟨hb, ha⟩))))
    rw [SameRecord, if_pos rfl] at hij
    rw [hij, hj] at hi
    cases hi
    rw [hb] at ha
    cases ha
  · intro h i j a b hi hj hkey
    rw [SameRecord, if_pos rfl]
    rcases fragmentKey_eq_iff.mp hkey with ⟨hne, heq⟩ | ⟨-, -, hij⟩ | ⟨hb, ha⟩ | ⟨ha, hb⟩
    · exact hd i j a b hi hj hne heq
    · exact hij
    · exact absurd ha (h i j a b hi hj hb)
    · exact absurd hb (h j i b a hj hi ha)

theorem separated_other {parser parser' : String} (hne : parser ≠ parser') {records records' : List Value} :
    Separated parser parser' records records' ↔
      Unmixed records records' ∧ OrdinalFree records records' ∧ OrdinalFree records' records := by
  simp only [Separated, SameRecord, if_neg hne]
  constructor
  · intro h
    refine ⟨fun i j a b hi hj hab => ⟨fun hsome heq => ?_, fun ha hb hij => ?_⟩, fun i j a b hi hj hb ha => ?_,
      fun j i b a hj hi ha hb => ?_⟩
    · exact hab (h i j a b hi hj (fragmentKey_eq_iff.mpr (.inl ⟨hsome, heq⟩)))
    · exact hab (h i j a b hi hj (fragmentKey_eq_iff.mpr (.inr (.inl ⟨ha, hb, hij⟩))))
    · obtain rfl := h i j a b hi hj (fragmentKey_eq_iff.mpr (.inr (.inr (.inl ⟨hb, ha⟩))))
      rw [hb] at ha
      cases ha
    · obtain rfl := h i j a b hi hj (fragmentKey_eq_iff.mpr (.inr (.inr (.inr ⟨ha, hb⟩))))
      rw [ha] at hb
      cases hb
  · rintro ⟨hunmixed, hfree, hfree'⟩ i j a b hi hj hkey
    by_contra hab
    obtain ⟨hnames, hordinals⟩ := hunmixed i j a b hi hj hab
    rcases fragmentKey_eq_iff.mp hkey with ⟨hne, heq⟩ | ⟨ha, hb, hij⟩ | ⟨hb, ha⟩ | ⟨ha, hb⟩
    · exact hnames hne heq
    · exact hordinals ha hb hij
    · exact hfree i j a b hi hj hb ha
    · exact hfree' j i b a hj hi ha hb

theorem observationId_inj (hu : Function.Injective env.uuid) {event : FileEvent} {a b : Value} {i j : Nat} :
    observationId env.uuid event a i = observationId env.uuid event b j ↔ fragmentKey a i = fragmentKey b j := by
  simp [observationId, stableId, hu.eq_iff]

/-- Two publications of a run, of one route or of two, share an identity exactly
when they carry one record; those of equal records may share it. -/
def Identified (env : Surroundings) (event : FileEvent) (routes : List ResolvedRoute) : Prop :=
  ∀ r ∈ routes, ∀ r' ∈ routes, ∀ records records', env.parse r.parser = .ok records → env.parse r'.parser = .ok records' →
    ∀ (i j : Nat) (a b : Value) (p q : Publication), records[i]? = some a → records'[j]? = some b →
      (publishRecords env event r 0 records).1[i]? = some p → (publishRecords env event r' 0 records').1[j]? = some q →
      (p.key = q.key → SameRecord r.parser r'.parser i j a b) ∧ (r.parser = r'.parser → i = j → p.key = q.key)

theorem publishRecords_key {event : FileEvent} {route : ResolvedRoute} {records : List Value}
    (h : Accepts (publishRecords env event route 0 records).2) {i : Nat} {key : String} :
    (∃ p, (publishRecords env event route 0 records).1[i]? = some p ∧ p.key = key) ↔
      ∃ a, records[i]? = some a ∧ observationId env.uuid event a i = key := by
  have hkeys := congrArg (fun l : List (String × String) => (l[i]?).map Prod.snd) (publishRecords_keys h)
  simp only [keysOf, List.getElem?_map, Option.map_map, List.getElem?_zipIdx, Nat.zero_add] at hkeys
  constructor
  · rintro ⟨p, hp, rfl⟩
    rw [hp] at hkeys
    cases ha : records[i]? with
    | none => simp [ha] at hkeys
    | some a => exact ⟨a, rfl, by simpa [ha, eq_comm] using hkeys⟩
  · rintro ⟨a, ha, rfl⟩
    rw [ha] at hkeys
    cases hp : (publishRecords env event route 0 records).1[i]? with
    | none => simp [hp] at hkeys
    | some p => exact ⟨p, rfl, by simpa [hp] using hkeys⟩

theorem identified_iff (hu : Function.Injective env.uuid) {event : FileEvent} {routes : List ResolvedRoute}
    (h : Accepts (publishRoutes env event routes).2) :
    Identified env event routes ↔ ∀ r ∈ routes, ∀ r' ∈ routes, ∀ records records', env.parse r.parser = .ok records →
      env.parse r'.parser = .ok records' → Separated r.parser r'.parser records records' := by
  have haccepts : ∀ route ∈ routes, ∀ records, env.parse route.parser = .ok records →
      Accepts (publishRecords env event route 0 records).2 := by
    intro route hr records hparse
    obtain ⟨records', hparse', haccepts⟩ := publishRoutes_accepts h hr
    rw [hparse] at hparse'
    cases hparse'
    exact haccepts
  constructor
  · intro hi r hr r' hr' records records' hparse hparse' i j a b ha hb hkey
    obtain ⟨p, hp, hpk⟩ := (publishRecords_key (haccepts r hr records hparse)).mpr ⟨a, ha, rfl⟩
    obtain ⟨q, hq, hqk⟩ := (publishRecords_key (haccepts r' hr' records' hparse')).mpr ⟨b, hb, rfl⟩
    refine (hi r hr r' hr' records records' hparse hparse' i j a b p q ha hb hp hq).1 ?_
    rw [hpk, hqk, observationId_inj hu]
    exact hkey
  · intro hs r hr r' hr' records records' hparse hparse' i j a b p q ha hb hp hq
    obtain ⟨a', ha', hak⟩ := (publishRecords_key (haccepts r hr records hparse)).mp ⟨p, hp, rfl⟩
    obtain ⟨b', hb', hbk⟩ := (publishRecords_key (haccepts r' hr' records' hparse')).mp ⟨q, hq, rfl⟩
    obtain rfl := Option.some.inj (ha.symm.trans ha')
    obtain rfl := Option.some.inj (hb.symm.trans hb')
    rw [← hak, ← hbk, observationId_inj hu]
    refine ⟨hs r hr r' hr' records records' hparse hparse' i j a b ha hb, fun hparser hij => ?_⟩
    subst hij
    rw [hparser, hparse'] at hparse
    cases hparse
    rw [ha] at hb
    cases hb
    rfl

theorem process_keys {event attempt : FileEvent} (h : SameObject event attempt) (routes : List ResolvedRoute)
    (refused : Option Nat) :
    ∃ n, keysOf (process env attempt routes refused).1 = (keysOf (publishRoutes env event routes).1).take n := by
  have hkeys := (@publishRoutes_congr env event attempt h routes).1
  have hfull : ∃ n, keysOf (publishRoutes env attempt routes).1 = (keysOf (publishRoutes env event routes).1).take n :=
    ⟨_, by rw [hkeys, List.take_length]⟩
  cases refused with
  | none => exact hfull
  | some n =>
      simp only [process]
      split
      · refine ⟨n, ?_⟩
        rw [hkeys, keysOf, keysOf, List.map_take]
      · exact hfull

/-- Attempts on the same object that may stop anywhere, followed by one that
does not, publish what a single full run publishes. -/
def Replayable (env : Surroundings) (event : FileEvent) (routes : List ResolvedRoute) : Prop :=
  ∀ (attempts : List (FileEvent × Option Nat)) (last : FileEvent), (∀ a ∈ attempts, SameObject event a.1) →
    SameObject event last →
    (∀ k, k ∈ (attempts.flatMap fun a => keysOf (process env a.1 routes a.2).1) ++ keysOf (process env last routes none).1 ↔
      k ∈ keysOf (process env event routes none).1)

theorem replayable (event : FileEvent) (routes : List ResolvedRoute) : Replayable env event routes := by
  intro attempts last hattempts hlast k
  have hsame : keysOf (process env last routes none).1 = keysOf (process env event routes none).1 :=
    (publishRoutes_congr hlast routes).1.symm
  rw [hsame]
  constructor
  · intro hk
    rcases List.mem_append.mp hk with hk | hk
    · obtain ⟨a, ha, hk⟩ := List.mem_flatMap.mp hk
      obtain ⟨n, hn⟩ := @process_keys env event a.1 (hattempts a ha) routes a.2
      exact List.mem_of_mem_take (hn ▸ hk)
    · exact hk
  · exact fun hk => List.mem_append_right _ hk

/-- A full run gives different records different identities, on all of its
routes, and retries add nothing to it, exactly when no record is named like the
ordinal of a record without a name, and different records of different parsers
have neither a name nor, without one, an ordinal in common. -/
theorem publication_idempotent (hu : Function.Injective env.uuid) {event : FileEvent} {routes : List ResolvedRoute}
    (hfull : Accepts (process env event routes none).2)
    (hd : ∀ route ∈ routes, ∀ records, env.parse route.parser = .ok records → ExplicitlyDistinct records) :
    (Identified env event routes ∧ Replayable env event routes) ↔
      ∀ r ∈ routes, ∀ r' ∈ routes, ∀ records records', env.parse r.parser = .ok records → env.parse r'.parser = .ok records' →
        OrdinalFree records records' ∧ (r.parser ≠ r'.parser → Unmixed records records') := by
  rw [identified_iff hu hfull]
  constructor
  · rintro ⟨hs, -⟩ r hr r' hr' records records' hparse hparse'
    have hseparated := hs r hr r' hr' records records' hparse hparse'
    by_cases hparser : r.parser = r'.parser
    · rw [hparser, hparse'] at hparse
      cases hparse
      rw [hparser] at hseparated
      exact ⟨(separated_self (hd r' hr' records hparse')).mp hseparated, fun hne => absurd hparser hne⟩
    · obtain ⟨hunmixed, hfree, -⟩ := (separated_other hparser).mp hseparated
      exact ⟨hfree, fun _ => hunmixed⟩
  · intro ho
    refine ⟨fun r hr r' hr' records records' hparse hparse' => ?_, replayable event routes⟩
    obtain ⟨hfree, hunmixed⟩ := ho r hr r' hr' records records' hparse hparse'
    by_cases hparser : r.parser = r'.parser
    · rw [hparser, hparse'] at hparse
      cases hparse
      rw [hparser]
      exact (separated_self (hd r' hr' records hparse')).mpr hfree
    · exact (separated_other hparser).mpr ⟨hunmixed hparser, hfree, (ho r' hr' r hr records' records hparse' hparse).1⟩

/-- The name-based identifiers of one uploaded object, on an injection that
agrees with them. -/
def sampleUuid : String ≃ String :=
  (Equiv.swap "source-object:s3://uploads/acme/raw/mail.csv#e1" "90e151bc-80b2-5cc8-9daf-b3a4809775e1").trans <|
  (Equiv.swap "observation:90e151bc-80b2-5cc8-9daf-b3a4809775e1:x" "a13a30c7-dac8-580f-bb15-44163592df9b").trans <|
  (Equiv.swap "observation:90e151bc-80b2-5cc8-9daf-b3a4809775e1:1" "e3dc3e5e-5110-5ff9-956a-da9b66a34c7e").trans <|
  Equiv.swap "observation:90e151bc-80b2-5cc8-9daf-b3a4809775e1:0" "4f0eea79-c567-5475-b079-4c53213072a0"

def sampleRecords (name : String) : List Value := [.object [("id", .string name)], .object []]

def sampleText : List Value := [.object [("content", .string "{}"), ("encoding", .string "utf-8")]]

def sampleSurroundings (records : List Value) : Surroundings where
  uuid := sampleUuid
  timestamp _ := none
  metadata _ _ _ _ _ := .object []
  parse parser := .ok (if parser = "ndjson" then records else sampleText)
  hints := ⟨some "raw:acme/mail.csv", [], none, none, none⟩
  tenant := "acme"

def sampleUpload : FileEvent := ⟨"uploads", "acme/raw/mail.csv", 10, "e1", "text/csv", "s3:ObjectCreated:Put", 0⟩

def mailRoute : ResolvedRoute := ⟨"mail", "acme.mail", "ndjson"⟩

def textRoute : ResolvedRoute := ⟨"text", "acme.text", "text"⟩

theorem sampleRecords_distinct (name : String) : ExplicitlyDistinct (sampleRecords name) := by
  have hunnamed : explicitId (.object []) = none := rfl
  intro i j a b ha hb hne heq
  match i, j with
  | 0, 0 | 1, 1 => rfl
  | 0, 1 =>
      cases hb
      exact absurd (heq.trans hunnamed) hne
  | 1, 0 =>
      cases ha
      exact absurd hunnamed hne
  | 0, n + 2 | 1, n + 2 | n + 2, _ => simp [sampleRecords] at ha hb

theorem unnamed_distinct {record : Value} (h : explicitId record = none) : ExplicitlyDistinct [record] := by
  intro i j a b ha _ hne _
  cases List.mem_singleton.mp (List.mem_of_getElem? ha)
  exact absurd h hne

theorem sample_lists {records : List Value} {P : List Value → Prop} (hrecords : P records) (htext : P sampleText) :
    ∀ r ∈ [mailRoute, textRoute], ∀ found, (sampleSurroundings records).parse r.parser = .ok found → P found := by
  intro r hr found hparse
  simp only [List.mem_cons, List.not_mem_nil, or_false] at hr
  rcases hr with rfl | rfl
  · exact Except.ok.inj hparse ▸ hrecords
  · exact Except.ok.inj hparse ▸ htext

theorem forall_getElem? {P : Nat → Nat → Value → Value → Prop} {xs ys : List Value}
    (h : ∀ x ∈ xs.zipIdx, ∀ y ∈ ys.zipIdx, P x.2 y.2 x.1 y.1) (i j : Nat) (a b : Value) (ha : xs[i]? = some a)
    (hb : ys[j]? = some b) : P i j a b :=
  h (a, i) (List.mk_mem_zipIdx_iff_getElem?.mpr ha) (b, j) (List.mk_mem_zipIdx_iff_getElem?.mpr hb)

theorem publication_idempotent_mail :
    Accepts (process (sampleSurroundings (sampleRecords "x")) sampleUpload [mailRoute, textRoute] none).2 ∧
    Identified (sampleSurroundings (sampleRecords "x")) sampleUpload [mailRoute, textRoute] ∧
    Replayable (sampleSurroundings (sampleRecords "x")) sampleUpload [mailRoute, textRoute] := by
  have hfull : Accepts (process (sampleSurroundings (sampleRecords "x")) sampleUpload [mailRoute, textRoute] none).2 := by
    decide +kernel
  refine ⟨hfull, (publication_idempotent sampleUuid.injective hfull ?_).mpr ?_⟩
  · exact sample_lists (sampleRecords_distinct "x") (unnamed_distinct rfl)
  · have hfree : ∀ xs ∈ [sampleRecords "x", sampleText], ∀ ys ∈ [sampleRecords "x", sampleText], OrdinalFree xs ys := by
      intro xs hxs ys hys
      refine forall_getElem? ?_
      revert xs ys
      decide
    have hunmixed : Unmixed (sampleRecords "x") sampleText ∧ Unmixed sampleText (sampleRecords "x") := by
      refine ⟨forall_getElem? fun x hx y hy _ => ?_, forall_getElem? fun x hx y hy _ => ?_⟩
      · revert x y
        decide
      · revert x y
        decide
    have hpair : ∀ r ∈ [mailRoute, textRoute], ∀ found, (sampleSurroundings (sampleRecords "x")).parse r.parser = .ok found →
        found ∈ [sampleRecords "x", sampleText] := sample_lists List.mem_cons_self (List.mem_cons_of_mem _ List.mem_cons_self)
    intro r hr r' hr' records records' hparse hparse'
    refine ⟨hfree _ (hpair r hr records hparse) _ (hpair r' hr' records' hparse'), fun hne => ?_⟩
    simp only [List.mem_cons, List.not_mem_nil, or_false] at hr hr'
    rcases hr with rfl | rfl
    · rcases hr' with rfl | rfl
      · exact absurd rfl hne
      · exact Except.ok.inj hparse ▸ Except.ok.inj hparse' ▸ hunmixed.1
    · rcases hr' with rfl | rfl
      · exact Except.ok.inj hparse ▸ Except.ok.inj hparse' ▸ hunmixed.2
      · exact absurd rfl hne

/-- A record named like the ordinal of its neighbour is published under the
neighbour's identity, and so is the text of a file beside its first record
without a name. -/
theorem ordinal_collision :
    (ExplicitlyDistinct (sampleRecords "1") ∧
      (process (sampleSurroundings (sampleRecords "1")) sampleUpload [mailRoute] none).2 = .ok () ∧
      keysOf (process (sampleSurroundings (sampleRecords "1")) sampleUpload [mailRoute] none).1 =
        [("acme.mail", "e3dc3e5e-5110-5ff9-956a-da9b66a34c7e"), ("acme.mail", "e3dc3e5e-5110-5ff9-956a-da9b66a34c7e")] ∧
      ¬ Identified (sampleSurroundings (sampleRecords "1")) sampleUpload [mailRoute]) ∧
    (∀ r ∈ [mailRoute, textRoute], ∀ records, (sampleSurroundings [.object []]).parse r.parser = .ok records →
        ExplicitlyDistinct records) ∧
      (process (sampleSurroundings [.object []]) sampleUpload [mailRoute, textRoute] none).2 = .ok () ∧
      keysOf (process (sampleSurroundings [.object []]) sampleUpload [mailRoute, textRoute] none).1 =
        [("acme.mail", "4f0eea79-c567-5475-b079-4c53213072a0"), ("acme.text", "4f0eea79-c567-5475-b079-4c53213072a0")] ∧
      ¬ Identified (sampleSurroundings [.object []]) sampleUpload [mailRoute, textRoute] := by
  have hfull : (process (sampleSurroundings (sampleRecords "1")) sampleUpload [mailRoute] none).2 = .ok () := by
    decide +kernel
  have hboth : (process (sampleSurroundings [.object []]) sampleUpload [mailRoute, textRoute] none).2 = .ok () := by
    decide +kernel
  refine ⟨⟨sampleRecords_distinct "1", hfull, by decide +kernel, fun hi => ?_⟩,
    sample_lists (unnamed_distinct rfl) (unnamed_distinct rfl), hboth, by decide +kernel, fun hi => ?_⟩
  · have hs := (identified_iff sampleUuid.injective ⟨(), hfull⟩).mp hi mailRoute List.mem_cons_self mailRoute
      List.mem_cons_self _ _ rfl rfl
    have hsame : SameRecord "ndjson" "ndjson" 0 1 _ _ := hs 0 1 _ _ rfl rfl (by decide)
    cases hsame
  · have hs := (identified_iff sampleUuid.injective ⟨(), hboth⟩).mp hi mailRoute List.mem_cons_self textRoute
      (List.mem_cons_of_mem _ List.mem_cons_self) _ _ rfl rfl
    have hsame : SameRecord "ndjson" "text" 0 0 (.object []) _ := hs 0 0 _ _ rfl rfl (by decide)
    cases hsame

end Galadril.Intake
