import Galadril.Intake.Observations
import Galadril.Json.Keyed
import Galadril.Lib.Decimals

namespace Galadril.Intake

open Json Lib.Checked Lib.Decimals

/-- What the reader of delimited text finds in an object. A record with another
number of fields than the headers is an error. -/
structure CsvReader where
  headers : List String
  records : List (Except String (List String))
  aligned : ∀ fields, .ok fields ∈ records → fields.length = headers.length

def fieldValue (field : String) : Value :=
  match Double.parse field with
  | some (.finite negative m e) => .number (.float (shortestText negative m e))
  | some (.infinite _) => .null
  | some .nan => .null
  | none => if field = "true" then .bool true else if field = "false" then .bool false else .string field

def insertAll (members : Members) (columns : List (String × Value)) : Members :=
  columns.foldl (fun members column => Members.insert column.1 column.2 members) members

def columns (headers fields : List String) : List (String × Value) :=
  fields.zipIdx.map fun field => (headers[field.2]?.getD "unknown", fieldValue field.1)

def rowMembers (headers fields : List String) : Members := insertAll [] (columns headers fields)

variable (csv : List UInt8 → Char → Except String CsvReader)

def parseDelimited (content : List UInt8) (delimiter : Char) : Except String (List Value) := do
  let reader ← csv content delimiter
  reader.records.mapM fun record => do
    let fields ← record
    return .object (rowMembers reader.headers fields)

theorem keys_insert (key : String) (v : Value) (m : Members) :
    (Members.insert key v m).keys = if key ∈ m.keys then m.keys else m.keys ++ [key] := by
  induction m with
  | nil => rfl
  | cons p m ih =>
      obtain ⟨k, w⟩ := p
      rw [Members.insert]
      by_cases h : k = key
      · simp [h, Members.keys]
      · have hne : key ≠ k := Ne.symm h
        rw [if_neg h]
        simp only [Members.keys, List.map_cons] at ih ⊢
        rw [ih]
        by_cases hmem : key ∈ m.map Prod.fst
        · simp [hmem]
        · simp [hmem, hne]

theorem insert_new {key : String} {m : Members} (h : key ∉ m.keys) (v : Value) : Members.insert key v m = m ++ [(key, v)] := by
  induction m with
  | nil => rfl
  | cons p m ih =>
      obtain ⟨k, w⟩ := p
      simp only [Members.keys, List.map_cons, List.mem_cons, not_or] at h
      rw [Members.insert, if_neg (Ne.symm h.1), ih h.2, List.cons_append]

theorem nodup_insertAll {m : Members} (h : m.keys.Nodup) (columns : List (String × Value)) : (insertAll m columns).keys.Nodup := by
  induction columns generalizing m with
  | nil => exact h
  | cons column columns ih =>
      refine ih ?_
      rw [keys_insert]
      split
      · exact h
      · next hnew => exact List.nodup_append'.mpr ⟨h, List.nodup_singleton _, List.disjoint_singleton.mpr hnew⟩

/-- Columns with different names are kept as they come. -/
theorem insertAll_nodup {m : Members} {columns : List (String × Value)} (h : (m ++ columns).keys.Nodup) :
    insertAll m columns = m ++ columns := by
  induction columns generalizing m with
  | nil => simp [insertAll]
  | cons column columns ih =>
      have hnew : column.1 ∉ m.keys := by
        simp only [Members.keys, List.map_append, List.map_cons] at h ⊢
        exact fun hmem => (List.disjoint_of_nodup_append h) hmem List.mem_cons_self
      have hstep : insertAll m (column :: columns) = insertAll (m ++ [column]) columns := by
        rw [insertAll, List.foldl_cons, insert_new hnew]
        rfl
      rw [List.append_cons] at h ⊢
      rw [hstep, ih h]

/-- A member that tells what its field is: the text itself, a Boolean, or the
number that both write in decimal. -/
def Determines (v : Value) (field : String) : Prop :=
  v = .string field ∨ (v = .bool true ∧ field = "true") ∨ (v = .bool false ∧ field = "false") ∨
    ∃ text q, v = .number (.float text) ∧ numeral text = some q ∧ numeral field = some q

structure Kept (headers fields : List String) (members : Members) : Prop where
  names : members.keys = headers
  unique : members.keys.Nodup
  values : List.Forall₂ (fun member field => Determines member.2 field) members fields

/-- A row keeps its fields. If the id of its record is not empty and passes as
a text, then the row passes as well. -/
def Lossless (env : Surroundings) (event : FileEvent) (route : ResolvedRoute) (ordinal : Nat) (headers fields : List String)
    (row : Value) : Prop :=
  ∃ members, row = .object members ∧ Kept headers fields members ∧
    ∀ (n : Nat) (id : String), headers[n]? = some "id" → fields[n]? = some id → id ≠ "" →
      Accepts (enrichRecord env event route ordinal (.object (Members.insert "id" (.string id) members))) →
        Accepts (enrichRecord env event route ordinal row)

def Exact (field : String) : Prop :=
  ∀ d, Double.parse field = some d → ∃ negative m e, d = .finite negative m e ∧ numeral (shortestText negative m e) = numeral field

def IsText (field : String) : Prop := Double.parse field = none ∧ field ≠ "true" ∧ field ≠ "false"

/-- The headers differ, the numbers are exact, and the id is neither a number nor
a Boolean. -/
structure Clean (headers fields : List String) : Prop where
  nodup : headers.Nodup
  exact : ∀ field ∈ fields, Exact field
  textual : ∀ (n : Nat) (id : String), headers[n]? = some "id" → fields[n]? = some id → id ≠ "" → IsText id

theorem numeral_of_parse {field : String} {negative : Bool} {m : Nat} {e : Int}
    (h : Double.parse field = some (.finite negative m e)) : ∃ q, numeral field = some q := by
  unfold Double.parse at h
  simp only at h
  split at h
  · next l hl => exact ⟨l.value, by rw [Lib.Decimals.numeral, hl, Option.map_some]⟩
  · split at h
    · cases h
    · split at h <;> cases h

theorem determines_fieldValue (field : String) : Determines (fieldValue field) field ↔ Exact field := by
  rw [fieldValue]
  split
  · next negative m e hparse =>
      obtain ⟨q, hq⟩ := numeral_of_parse hparse
      rw [Determines, Exact, hparse, hq]
      constructor
      · rintro (h | ⟨h, -⟩ | ⟨h, -⟩ | ⟨text, q', h, htext, hfield⟩)
        · cases h
        · cases h
        · cases h
        · cases h
          rintro d hd
          cases hd
          exact ⟨_, _, _, rfl, htext.trans hfield.symm⟩
      · intro h
        obtain ⟨_, _, _, hd, htext⟩ := h _ rfl
        cases hd
        exact .inr (.inr (.inr ⟨_, q, rfl, htext, rfl⟩))
  · next negative hparse =>
      refine iff_of_false (by simp [Determines]) fun h => ?_
      obtain ⟨_, _, _, hd, -⟩ := h _ hparse
      cases hd
  · next hparse =>
      refine iff_of_false (by simp [Determines]) fun h => ?_
      obtain ⟨_, _, _, hd, -⟩ := h _ hparse
      cases hd
  · next hparse =>
      refine iff_of_true ?_ fun d hd => by rw [hparse] at hd; cases hd
      split
      · next h => exact .inr (.inl ⟨rfl, h⟩)
      · split
        · next h => exact .inr (.inr (.inl ⟨rfl, h⟩))
        · exact .inl rfl

theorem fieldValue_isText {field : String} : (∃ text, fieldValue field = .string text ∧ text ≠ "") ↔ IsText field ∧ field ≠ "" := by
  rw [fieldValue, IsText]
  split
  · next h => simp [h]
  · next h => simp [h]
  · next h => simp [h]
  · next h =>
      split
      · next ht => simp [ht]
      · next ht =>
          split
          · next hf => simp [hf]
          · next hf => simp [h, ht, hf]

theorem accepts_enrichRecord {env : Surroundings} {event : FileEvent} {route : ResolvedRoute} {ordinal : Nat} {members : Members} :
    Accepts (enrichRecord env event route ordinal (.object members)) ↔
      ∀ v, Members.field members "id" = some v → ∃ text, v = .string text ∧ text ≠ "" := by
  cases hid : Members.field members "id" with
  | none => simp [enrichRecord, Value.asObject, hid, Accepts]
  | some v =>
      cases v with
      | string text =>
          by_cases htext : text = ""
          · simp [enrichRecord, Value.asObject, hid, htext, Accepts]
          · simp [enrichRecord, Value.asObject, hid, htext, Accepts]
      | _ => simp [enrichRecord, Value.asObject, hid, Accepts]

theorem columns_eq {headers fields : List String} (h : fields.length = headers.length) :
    columns headers fields = headers.zip (fields.map fieldValue) := by
  refine List.ext_getElem (by simp [columns, h]) fun n hn _ => ?_
  have hheader : n < headers.length := by simpa [columns, h] using hn
  simp [columns, hheader]

theorem keys_columns {headers fields : List String} (h : fields.length = headers.length) :
    Members.keys (columns headers fields) = headers := by
  rw [columns_eq h, Members.keys, List.map_fst_zip (by simp [h])]

theorem rowMembers_nodup {headers fields : List String} (h : fields.length = headers.length) (hnodup : headers.Nodup) :
    rowMembers headers fields = headers.zip (fields.map fieldValue) := by
  rw [rowMembers, insertAll_nodup (by rw [List.nil_append, keys_columns h]; exact hnodup), columns_eq h, List.nil_append]

theorem kept_rowMembers {headers fields : List String} (h : fields.length = headers.length) :
    Kept headers fields (rowMembers headers fields) ↔ headers.Nodup ∧ ∀ field ∈ fields, Exact field := by
  have hunique : (rowMembers headers fields).keys.Nodup := @nodup_insertAll [] List.nodup_nil _
  have hvalues (hnodup : headers.Nodup) : List.Forall₂ (fun member field => Determines member.2 field)
    (rowMembers headers fields) fields ↔
      ∀ field ∈ fields, Exact field := by
    rw [rowMembers_nodup h hnodup, ← List.forall₂_map_left_iff, List.map_snd_zip (by simp [h]), List.forall₂_map_left_iff,
      List.forall₂_same]
    simp only [determines_fieldValue]
  constructor
  · intro hkept
    have hnodup : headers.Nodup := hkept.names ▸ hunique
    exact ⟨hnodup, (hvalues hnodup).mp hkept.values⟩
  · rintro ⟨hnodup, hexact⟩
    refine ⟨?_, hunique, (hvalues hnodup).mpr hexact⟩
    rw [rowMembers_nodup h hnodup, Members.keys, List.map_fst_zip (by simp [h])]

theorem field_rowMembers {headers fields : List String} (h : fields.length = headers.length) (hnodup : headers.Nodup) {n : Nat}
    {header field : String} (hheader : headers[n]? = some header) (hfield : fields[n]? = some field) :
    Members.field (rowMembers headers fields) header = some (fieldValue field) := by
  have hkeys : (rowMembers headers fields).keys.Nodup := by
    rw [rowMembers_nodup h hnodup, Members.keys, List.map_fst_zip (by simp [h])]
    exact hnodup
  have hmem : (header, fieldValue field) ∈ rowMembers headers fields := by
    rw [rowMembers_nodup h hnodup]
    exact List.mem_of_getElem? (List.getElem?_zip_eq_some.mpr ⟨hheader, by rw [List.getElem?_map, hfield, Option.map_some]⟩)
  exact Members.field_of_mem hkeys hmem

/-- Only a clean record comes through. -/
theorem lossless_rowMembers (env : Surroundings) (event : FileEvent) (route : ResolvedRoute) (ordinal : Nat)
    {headers fields : List String} (h : fields.length = headers.length) :
    Lossless env event route ordinal headers fields (.object (rowMembers headers fields)) ↔ Clean headers fields := by
  constructor
  · rintro ⟨members, hmembers, hkept, hid⟩
    cases hmembers
    obtain ⟨hnodup, hexact⟩ := (kept_rowMembers h).mp hkept
    refine ⟨hnodup, hexact, fun n id hheader hfield hne => ?_⟩
    have hwritten : Accepts (enrichRecord env event route ordinal
        (.object (Members.insert "id" (.string id) (rowMembers headers fields)))) := by
      rw [accepts_enrichRecord, Members.field_insert, if_pos rfl]
      rintro v hv
      cases hv
      exact ⟨id, rfl, hne⟩
    have hrow := accepts_enrichRecord.mp (hid n id hheader hfield hne hwritten) _ (field_rowMembers h hnodup hheader hfield)
    exact (fieldValue_isText.mp hrow).1
  · rintro ⟨hnodup, hexact, htextual⟩
    refine ⟨_, rfl, (kept_rowMembers h).mpr ⟨hnodup, hexact⟩, fun n id hheader hfield hne _ => ?_⟩
    rw [accepts_enrichRecord, field_rowMembers h hnodup hheader hfield]
    rintro v hv
    cases hv
    exact fieldValue_isText.mpr ⟨htextual n id hheader hfield hne, hne⟩

theorem rows_parseDelimited {csv : List UInt8 → Char → Except String CsvReader} {content : List UInt8} {delimiter : Char}
    {reader : CsvReader} (hread : csv content delimiter = .ok reader) {rows : List Value}
    (hrows : parseDelimited csv content delimiter = .ok rows) :
    List.Forall₂ (fun record row => ∃ fields, record = .ok fields ∧ row = .object (rowMembers reader.headers fields))
      reader.records rows := by
  simp only [parseDelimited, hread, ok_bind, mapM_eq_ok] at hrows
  refine hrows.imp fun record row h => ?_
  obtain ⟨fields, hfields, hrow⟩ := bind_eq_ok.mp h
  exact ⟨fields, hfields, (pure_eq_ok.mp hrow).symm⟩

/-- An object comes through exactly when each of its records is clean. -/
theorem delimited_lossless (csv : List UInt8 → Char → Except String CsvReader) (content : List UInt8) (delimiter : Char)
    (reader : CsvReader) (rows : List Value) (hread : csv content delimiter = .ok reader)
    (hrows : parseDelimited csv content delimiter = .ok rows) (env : Surroundings) (event : FileEvent) (route : ResolvedRoute) :
    (∀ n fields row, reader.records[n]? = some (.ok fields) → rows[n]? = some row →
        Lossless env event route n reader.headers fields row) ↔
      ∀ fields, .ok fields ∈ reader.records → Clean reader.headers fields := by
  have hall := rows_parseDelimited hread hrows
  have hrow {n : Nat} {fields : List String} (hfields : reader.records[n]? = some (.ok fields)) :
      rows[n]? = some (.object (rowMembers reader.headers fields)) := by
    obtain ⟨hlength, hget⟩ := List.forall₂_iff_get.mp hall
    obtain ⟨hn, hrecord⟩ := List.getElem?_eq_some_iff.mp hfields
    obtain ⟨fields', hfields', hrow⟩ := hget n hn (hlength ▸ hn)
    rw [List.get_eq_getElem, hrecord] at hfields'
    cases hfields'
    exact List.getElem?_eq_some_iff.mpr ⟨hlength ▸ hn, hrow⟩
  constructor
  · intro h fields hfields
    obtain ⟨n, hn⟩ := List.getElem?_of_mem hfields
    exact (lossless_rowMembers env event route n (reader.aligned fields hfields)).mp (h n fields _ hn (hrow hn))
  · intro h n fields row hn hrow'
    have hmem := List.mem_of_getElem? hn
    rw [hrow hn] at hrow'
    cases hrow'
    exact (lossless_rowMembers env event route n (reader.aligned fields hmem)).mpr (h fields hmem)

def named : CsvReader where
  headers := ["id", "name"]
  records := [.ok ["a", "true"]]
  aligned := by simp

theorem clean_named : Clean ["id", "name"] ["a", "true"] where
  nodup := by decide
  exact := by
    have hletter : Double.parse "a" = none := rfl
    have hbool : Double.parse "true" = none := rfl
    simp [Exact, hletter, hbool]
  textual n id hheader hfield _ := by
    rcases n with _ | _ | n
    · cases hfield
      exact ⟨rfl, by decide, by decide⟩
    · exact absurd hheader (by decide)
    · cases hheader

def bytesOf (text : String) : List UInt8 := text.toList.map fun c => c.toNat.toUInt8

def nowhere : Surroundings := ⟨id, fun _ => none, fun _ _ _ _ _ => .null, fun _ => .ok [], ⟨none, [], none, none, none⟩, "t"⟩

def upload : FileEvent := ⟨"b", "names.csv", 15, "e", "text/csv", "s3:ObjectCreated:Put", 0⟩

theorem delimited_lossless_named :
    parseDelimited (fun _ _ => .ok named) (bytesOf "id,name\na,true\n") ',' =
        .ok [.object [("id", .string "a"), ("name", .bool true)]] ∧
      Lossless nowhere upload ⟨"names", "records", "csv"⟩ 0 ["id", "name"] ["a", "true"]
        (.object [("id", .string "a"), ("name", .bool true)]) := by
  refine ⟨rfl, ?_⟩
  refine (delimited_lossless (fun _ _ => .ok named) (bytesOf "id,name\na,true\n") ',' named
    [.object [("id", .string "a"), ("name", .bool true)]] rfl rfl nowhere upload ⟨"names", "records", "csv"⟩).mpr ?_ 0 _ _ rfl rfl
  rintro fields hfields
  simp only [named, List.mem_singleton, Except.ok.injEq] at hfields
  subst hfields
  exact clean_named

def missing : CsvReader where
  headers := ["reading"]
  records := [.ok ["NaN"]]
  aligned := by simp

theorem reading_lost : ¬ ∀ (csv : List UInt8 → Char → Except String CsvReader) (content : List UInt8) (delimiter : Char)
    (reader : CsvReader) (rows : List Value), csv content delimiter = .ok reader → parseDelimited csv content delimiter = .ok rows →
      ∀ (env : Surroundings) (event : FileEvent) (route : ResolvedRoute) n fields row,
        reader.records[n]? = some (.ok fields) → rows[n]? = some row → Lossless env event route n reader.headers fields row := by
  intro h
  obtain ⟨members, hmembers, hkept, -⟩ := h (fun _ _ => .ok missing) (bytesOf "reading\nNaN\n") ',' missing
    [.object [("reading", .null)]] rfl rfl nowhere upload ⟨"readings", "records", "csv"⟩ 0 ["NaN"] _ rfl rfl
  cases hmembers
  have hvalue := hkept.values
  rw [List.forall₂_cons] at hvalue
  rcases hvalue.1 with hvalue | ⟨hvalue, -⟩ | ⟨hvalue, -⟩ | ⟨_, _, hvalue, -⟩ <;> cases hvalue

end Galadril.Intake
