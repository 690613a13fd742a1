import Galadril.Json.Injective
import Galadril.Json.Sizes
import Galadril.Lib.Base64
import Galadril.Lib.Sha256
import Galadril.Search.Pages

namespace Galadril.Search.Evidence

open Json Lib Lib.Characters Lib.Checked Lib.Pages Lib.Text Registry.Identity

structure EvidenceFilter where
  fromMs : Int
  untilMs : Int
  sender : Option String
  recipient : Option String
  threadId : Option String
  documentId : Option String
  ontologyId : Option String
deriving DecidableEq

def validText : Option String → Except String (Option String)
  | none => .ok none
  | some text => do
      ensure (trimText text != "" && text.utf8ByteSize ≤ 998 && !text.toList.any isControl) "Invalid evidence filter"
      return some (trimText text)

def isAsciiGraphic (c : Char) : Bool := 33 ≤ c.toNat && c.toNat ≤ 126

def twoSides (address : List Char) : Bool :=
  match splitOnce '@' address with
  | none => false
  | some (inbox, domain) => !inbox.isEmpty && domain.contains '.' && domain.getLast? != some '.'

def validAddress : Option String → Except String (Option String)
  | none => .ok none
  | some address => do
      ensure (address.utf8ByteSize ≤ 320 && address.toList.count '@' == 1 && twoSides address.toList &&
        address.toList.all isAsciiGraphic) "Invalid evidence address"
      return some (address.map Char.toLower)

def EvidenceFilter.validated (f : EvidenceFilter) : Except String EvidenceFilter := do
  ensure (0 ≤ f.fromMs && f.fromMs < f.untilMs && f.untilMs - f.fromMs ≤ 100 * 366 * 86400000) "Invalid evidence period"
  let sender ← validText f.sender
  let recipient ← validText f.recipient
  let threadId ← validText f.threadId
  let documentId ← validText f.documentId
  let ontologyId ← validText f.ontologyId
  let sender ← validAddress sender
  let recipient ← validAddress recipient
  return ⟨f.fromMs, f.untilMs, sender, recipient, threadId, documentId, ontologyId⟩

def optional (text : Option String) : Value := text.elim .null .string

def EvidenceFilter.value (f : EvidenceFilter) : Value :=
  .object [("fromMs", .number (.int f.fromMs)), ("untilMs", .number (.int f.untilMs)), ("sender", optional f.sender),
    ("recipient", optional f.recipient), ("threadId", optional f.threadId), ("documentId", optional f.documentId),
    ("ontologyId", optional f.ontologyId)]

structure EvidenceFact where
  subject : String
  predicate : String
  object : String

structure EvidenceRow where
  sourceId : String
  eventId : String
  eventTimeMs : Int
  unitId : String
  title : String
  text : String
  metadata : Value
  facts : List EvidenceFact
  score : Float

structure EvidencePage where
  items : List EvidenceRow
  after : Option String
  engine : String
  warnings : List String

structure Cursor where
  scope : String
  offset : Nat

def Cursor.value (cursor : Cursor) : Value := .object [("scope", .string cursor.scope), ("offset", .number (.int cursor.offset))]

def Cursor.text (cursor : Cursor) : String := String.ofList (Base64.encode cursor.value.toVec)

/-- How JSON texts are read as cursors. -/
structure CursorReader where
  fromSlice : List UInt8 → Option Cursor
  fromSlice_toVec : ∀ cursor : Cursor, cursor.offset < 2 ^ 32 → fromSlice cursor.value.toVec = some cursor

structure Ranked where
  id : String
  score : Float

structure Ranking where
  passages : List Ranked
  engine : String
  warnings : List String

structure Services where
  /-- The rows that match a filter and a query, in the order of the store. -/
  rows : String → EvidenceFilter → Option String → List EvidenceRow
  isAuthorized : String → String → String → String → QueryContext → Bool
  memory : Option (Value → Except String Value)
  fromValue : Value → Option Ranking
  cursors : CursorReader

structure EvidenceRequest where
  filter : EvidenceFilter
  query : Option String
  limit : Nat
  after : Option String

variable (s : Services) (tenant user : String) (context : QueryContext)

def visible (row : EvidenceRow) : Bool := s.isAuthorized user tenant "event" row.eventId context

/-- The rows taken so far, and the numbers of rows passed over by all calls and
by this one. -/
structure Scan where
  items : List EvidenceRow
  offset : Nat
  scanned : Nat

def pass (st : Scan) (row : EvidenceRow) : Scan where
  items := if visible s tenant user context row then st.items ++ [row] else st.items
  offset := st.offset + 1
  scanned := st.scanned + 1

def consume (limit : Nat) : List EvidenceRow → Nat → Scan → Except String (Nat × Scan)
  | [], consumed, st => .ok (consumed, st)
  | row :: rows, consumed, st => do
      ensure (st.offset + 1 < 2 ^ 32) "Evidence cursor overflow"
      let st := pass s tenant user context st row
      if st.items.length = limit ∨ st.scanned = 256 then .ok (consumed + 1, st) else consume limit rows (consumed + 1) st

/-- The loop over the batches, with the information whether the rows are
exhausted. Every batch but the last counts a row, so 256 of them are enough. -/
def scanRows (rows : List EvidenceRow) (limit : Nat) : Nat → Scan → Except String (Scan × Bool)
  | 0, st => .ok (st, false)
  | batches + 1, st =>
      if st.items.length < limit ∧ st.scanned < 256 then
        let candidates := pageOf rows 32 st.offset
        if candidates.isEmpty then .ok (st, true)
        else do
          ensure (candidates.length ≤ 32) "Invalid evidence batch"
          let (consumed, st) ← consume s tenant user context limit candidates 0 st
          if candidates.length < 32 ∧ consumed = candidates.length then .ok (st, true) else scanRows rows limit batches st
      else .ok (st, false)

def EvidenceFact.value (fact : EvidenceFact) : Value :=
  .object [("subject", .string fact.subject), ("predicate", .string fact.predicate), ("object", .string fact.object)]

def passage (row : EvidenceRow) : Value :=
  .object [("id", .string row.unitId), ("text", .string row.text), ("dense_score", .number (.float "0.0")),
    ("facts", .array (row.facts.map EvidenceFact.value))]

def factsOf (row : EvidenceRow) : List Value :=
  (row.facts.zipIdx).map fun p => .object [("passage_id", .string row.unitId), ("ordinal", .number (.int p.2)),
    ("fact", p.1.value), ("similarity", .number (.float "0.0"))]

def rankInput (query : String) (items : List EvidenceRow) : Value :=
  .object [("query", .string query), ("passages", .array (items.map passage)),
    ("facts", .array ((items.flatMap factsOf).take 64)), ("strategy", .string "hipporag2"),
      ("min_relevance", .number (.float "0.0"))]

def bindScores (items : List EvidenceRow) : List Ranked → List (String × Float) → Except String (List (String × Float))
  | [], scores => .ok scores
  | hit :: hits, scores => do
      ensure (hit.score.isFinite && !(scores.any (·.1 == hit.id)) && items.any (·.unitId == hit.id)) "Unbound evidence ranking"
      bindScores items hits (scores ++ [(hit.id, hit.score)])

/-- The order of floating-point numbers in which zeros differ by their sign. -/
def totalKey (x : Float) : Int :=
  let bits := x.toBits.toNat
  if bits < 2 ^ 63 then bits else (2 ^ 63 : Int) - 1 - bits

def before (a b : EvidenceRow) : Bool :=
  totalKey b.score < totalKey a.score || (totalKey a.score == totalKey b.score && a.unitId ≤ b.unitId)

def scored (scores : List (String × Float)) (row : EvidenceRow) : Option EvidenceRow :=
  (scores.find? (·.1 == row.unitId)).map fun p => { row with score := p.2 }

def rank (query : String) (items : List EvidenceRow) : Except String (List EvidenceRow × String × List String) := do
  let agent ← Checked.context s.memory "Evidence ranking unavailable"
  let answer ← agent (rankInput query items)
  let ranked ← Checked.context (s.fromValue answer) "Invalid evidence ranking"
  ensure (ranked.passages.length ≤ items.length && ranked.warnings.length ≤ 8 && ranked.engine.utf8ByteSize ≤ 128)
    "Invalid evidence ranking"
  let scores ← bindScores items ranked.passages []
  let items := (items.filterMap (scored scores)).mergeSort before
  return (items.filter (visible s tenant user context), ranked.engine, ranked.warnings)

def rankWith (query : Option String) (items : List EvidenceRow) : Except String (List EvidenceRow × String × List String) :=
  match query with
  | none => .ok (items, "chronology", [])
  | some query => if items.isEmpty then .ok (items, "chronology", []) else rank s tenant user context query items

def scopeOf (filter : EvidenceFilter) (query : Option String) : Value :=
  .array [.string tenant, .string user, filter.value, optional query]

def digestOf (filter : EvidenceFilter) (query : Option String) : String := Sha256.sha256 (scopeOf tenant user filter query).toVec

def startOf (scope : String) : Option String → Except String Nat
  | none => .ok 0
  | some value => do
      ensure (value.utf8ByteSize ≤ 1024) "Invalid evidence cursor"
      let bytes ← Checked.context (Base64.decode value.toList) "Invalid base64"
      let cursor ← Checked.context (s.cursors.fromSlice bytes) "Invalid JSON"
      ensure (cursor.scope == scope && cursor.offset ≤ 1000000) "Invalid evidence cursor"
      return cursor.offset

def selectable (kind : String) (selector : Option String) :
    Bool := selector.all fun id => s.isAuthorized user tenant kind id context

def queryOf (query : Option String) : Option String := (query.map trimText).filter (· ≠ "")

def evidence (request : EvidenceRequest) : Except String EvidencePage := do
  let filter ← request.filter.validated
  let query := queryOf request.query
  ensure (1 ≤ request.limit && request.limit ≤ 50 && query.all fun text => text.utf8ByteSize ≤ 2048) "Invalid evidence bounds"
  let scope := digestOf tenant user filter query
  let offset ← startOf s scope request.after
  ensure (selectable s tenant user context "pengolo_file" filter.documentId) "Evidence selector unavailable"
  ensure (selectable s tenant user context "ontology" filter.ontologyId) "Evidence selector unavailable"
  let (scan, exhausted) ← scanRows s tenant user context (s.rows tenant filter query) request.limit 256 ⟨[], offset, 0⟩
  let (items, engine, warnings) ← rankWith s tenant user context query scan.items
  return ⟨items, if exhausted || 1000000 < scan.offset then none else some (Cursor.text ⟨scope, scan.offset⟩), engine, warnings⟩

section Scans

variable {s : Services} {tenant user : String} {context : QueryContext}

def passed (s : Services) (tenant user : String) (context : QueryContext) (st : Scan) (window : List EvidenceRow) : Scan where
  items := st.items ++ window.filter (visible s tenant user context)
  offset := st.offset + window.length
  scanned := st.scanned + window.length

@[simp] theorem passed_nil (st : Scan) : passed s tenant user context st [] = st := by
  simp [passed]

theorem consume_scanned {limit : Nat} {rows : List EvidenceRow} {consumed : Nat} {st : Scan} {r : Nat × Scan}
    (h : consume s tenant user context limit rows consumed st = .ok r) (hrows : rows ≠ []) : st.scanned < r.2.scanned := by
  induction rows generalizing consumed st with
  | nil => exact absurd rfl hrows
  | cons row rows ih =>
      simp only [consume, bind_eq_ok, ensure_eq_ok] at h
      obtain ⟨-, -, h⟩ := h
      have hpass : (pass s tenant user context st row).scanned = st.scanned + 1 := rfl
      split at h
      · obtain rfl := Except.ok.inj h
        rw [hpass]
        omega
      · rcases eq_or_ne rows [] with rfl | hmore
        · obtain rfl := Except.ok.inj h
          rw [hpass]
          omega
        · have hnext := ih h hmore
          rw [hpass] at hnext
          omega

/-- Behind 256 batches the scan is over, so their number is no bound of its own. -/
theorem scanRows_enough {rows : List EvidenceRow} {limit : Nat} {batches : Nat} {st : Scan} (h : 256 - st.scanned ≤ batches) :
    scanRows s tenant user context rows limit (batches + 1) st = scanRows s tenant user context rows limit batches st := by
  induction batches generalizing st with
  | zero =>
      have hover : ¬(st.items.length < limit ∧ st.scanned < 256) := by omega
      simp only [scanRows, if_neg hover]
  | succ batches ih =>
      by_cases hgo : st.items.length < limit ∧ st.scanned < 256
      · rw [scanRows.eq_def _ _ _ _ _ _ (batches + 1), scanRows.eq_def _ _ _ _ _ _ (batches + 1 + 1)]
        simp only [if_pos hgo]
        generalize pageOf rows 32 st.offset = candidates
        by_cases hempty : candidates = []
        · simp [hempty]
        · simp only [List.isEmpty_eq_false_iff.mpr hempty, Bool.false_eq_true, if_false]
          cases hconsume : consume s tenant user context limit candidates 0 st with
          | error e => rfl
          | ok r =>
              have hscanned := consume_scanned hconsume hempty
              have hnext := @ih r.2 (by omega)
              simp only [ok_bind, hnext]
      · simp only [scanRows, if_neg hgo]

end Scans

section Ranks

variable {s : Services} {tenant user : String} {context : QueryContext}

end Ranks

section Walks

variable {s : Services} {tenant user : String} {context : QueryContext}

theorem written_le (text : List Char) : Value.written text ≤ 4 * text.length := by
  induction text with
  | nil => exact Nat.zero_le _
  | cons c text ih =>
      have hc : Value.written [c] ≤ 4 := by
        rw [Value.written, List.flatMap_singleton, String.length_utf8EncodeChar]
        exact c.utf8Size_le_four
      rw [Value.written_cons, List.length_cons]
      omega

theorem size_text (message : List UInt8) {n : Nat} (hn : n ≤ 1000000) :
    (Cursor.text ⟨Sha256.sha256 message, n⟩).utf8ByteSize ≤ 1024 := by
  obtain ⟨hlength, hdigits⟩ := Sha256.sha256_chars message
  have hnumber : (Value.number (.int n)).size ≤ 28 := by
    have hrepr : (Nat.repr n).length ≤ 7 := Nat.repr_length n 7 (by decide) (by omega)
    exact (written_le _).trans (Nat.mul_le_mul_left 4 hrepr)
  have hscope : Value.written (quoted "scope") = 7 := rfl
  have hoffset : Value.written (quoted "offset") = 8 := rfl
  have hvalue : (Cursor.value ⟨Sha256.sha256 message, n⟩).toVec.length ≤ 114 := by
    show (Cursor.value ⟨Sha256.sha256 message, n⟩).size ≤ 114
    rw [Cursor.value, Value.size_object]
    simp only [List.map_cons, List.map_nil, List.sum_cons, List.sum_nil, hscope, hoffset, Value.size_digits hdigits, hlength]
    omega
  have hsymbols := Base64.length_encode_le (Cursor.value ⟨Sha256.sha256 message, n⟩).toVec
  calc (Cursor.text ⟨Sha256.sha256 message, n⟩).utf8ByteSize
      = Value.written (Base64.encode (Cursor.value ⟨Sha256.sha256 message, n⟩).toVec) := by
        rw [Value.utf8ByteSize_eq, Cursor.text, String.toList_ofList]
    _ ≤ 4 * (Base64.encode (Cursor.value ⟨Sha256.sha256 message, n⟩).toVec).length := written_le _
    _ ≤ 1024 := by omega

variable {filter f : EvidenceFilter} {query : Option String} {limit : Nat} {after : Option String}

structure Admitted (filter f : EvidenceFilter) (query : Option String) (limit : Nat) : Prop where
  validated : filter.validated = .ok f
  bounded : ∀ text ∈ queryOf query, text.utf8ByteSize ≤ 2048
  limited : 1 ≤ limit ∧ limit ≤ 50

def Stands (s : Services) (tenant user : String) (f : EvidenceFilter) (query : Option String) (after : Option String)
    (left : List EvidenceRow) : Prop :=
  ∃ n, n ≤ (s.rows tenant f (queryOf query)).length ∧ left = (s.rows tenant f (queryOf query)).drop n ∧
    startOf s (digestOf tenant user f (queryOf query)) after = .ok n

variable (s tenant user context filter query) (limits : Nat → Nat) (memories : Nat → Option (Value → Except String Value))

def call (k : Nat) (after : Option String) : Except String (Page EvidenceRow String) :=
  (evidence { s with memory := memories k } tenant user context ⟨filter, query, limits k, after⟩).map fun page =>
    ⟨page.items, page.after⟩

variable {s tenant user context filter query limits memories}

end Walks

end Galadril.Search.Evidence
