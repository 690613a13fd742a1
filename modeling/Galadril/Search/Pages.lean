import Galadril.Json.Value
import Galadril.Lib.Text
import Galadril.Lib.Checked
import Galadril.Lib.Pages
import Galadril.Registry.Identity

namespace Galadril.Search

open Json Lib.Characters Lib.Checked Lib.Pages Lib.Text Registry.Identity

abbrev Embedding := Vector Float32 1024

structure EntityState where
  entityId : String
  eventId : String
  stateType : String
  stateValue : Value
  eventTime : Int

structure EskgEvent where
  eventId : String
  eventType : String
  eventTime : Int
  properties : Value

structure EntityEmbedding where
  id : String
  entityId : String
  modality : String
  embedding : Embedding
  createdAt : Int
  metadata : Value

structure EntityStateRow where
  entityId : String
  metadata : Value
  stateType : Option String
  createdAtMs : Option Int

structure EventRow where
  eventId : String
  eventType : String
  eventTimeMs : Int
  properties : Value

structure EmbeddingRow where
  id : Option String
  entityId : String
  modality : String
  createdAtMs : Int
  metadata : Value
  score : Float32

inductive GlobalSearchHit
  | entityState (entityId : String) (state : Value) (stateType : Option String)
  | event (eventId eventType : String) (eventTimeMs : Int) (properties : Value)
  | embedding (entityId modality : String) (createdAtMs : Int) (metadata : Value) (score : Float32)

structure QueryContext where
  entityId : Option String
  modality : Option String
  stateType : Option String
  gisZone : Option String
  role : Option String
  region : Option String
  internalDevice : Bool
  hourUtc : Int
  requestId : String
  traceId : Option String

structure StructuredSearchQuery where
  text : Option String
  entityId : Option String
  eventType : Option String
  modality : Option String

structure SearchCursor where
  scope : String
  phase : Nat
  offset : Nat

/-- The contents of the stores, and what the database and the embedding service
answer about them. Times are microseconds. -/
structure SearchService where
  states : String → List EntityState
  events : String → List EskgEvent
  embeddings : String → List EntityEmbedding
  searchTextMatches : String → String → Bool
  /-- How the database writes a JSON value. -/
  jsonText : Value → String
  /-- The sort keys of the collation. -/
  collate : String → List Nat
  /-- The bits of a distance, which order as the distances do. -/
  distance : Embedding → Embedding → Nat
  score : Nat → Float32
  embedText : String → Except String Embedding
  /-- The digest of the tenant, the user and the constraints. -/
  digest : String → String → StructuredSearchQuery → String

abbrev Authorizer := String → String → String → String → QueryContext → Bool

def hardLimit : Nat := 50

def searchBatch : Nat := 32

def searchScanLimit : Nat := 1024

def offsetLimit : Nat := 1000000

def trimText (value : String) : String := String.ofList (trimBy isWhitespace value.toList)

def present (value : Option String) : Option String := (value.map trimText).filter (· ≠ "")

def StructuredSearchQuery.normalized (query : StructuredSearchQuery) : Except String StructuredSearchQuery := do
  let normalized : StructuredSearchQuery :=
    ⟨present query.text, present query.entityId, present query.eventType, present query.modality⟩
  ensure (normalized.text.isSome || normalized.entityId.isSome || normalized.eventType.isSome)
    "structured search requires text, entity_id, or event_type"
  return normalized

def StructuredSearchQuery.constrained (query : StructuredSearchQuery) : Bool :=
  [query.text, query.entityId, query.eventType, query.modality].all fun value =>
    value.all fun value => value.utf8ByteSize ≤ 4096 && !value.toList.any isControl

def normalizeQuery (q : String) : Except String String := do
  ensure (trimText q ≠ "") "Search query is empty"
  return trimText q

def pageOf {α : Type} (rows : List α) (limit offset : Nat) : List α :=
  (rows.drop offset).take (max 1 (min limit hardLimit))

def toMs (micros : Int) : Int := micros / 1000

variable (s : SearchService)

namespace SearchService

def stateKey (row : EntityState) : Int ×ₗ List Nat ×ₗ List Nat :=
  toLex (-row.eventTime, toLex (s.collate row.entityId, s.collate row.stateType))

def eventKey (row : EskgEvent) : Int ×ₗ List Nat ×ₗ List Nat :=
  toLex (-row.eventTime, toLex (s.collate row.eventId, s.collate row.eventType))

def embeddingKey (embedding : Embedding) (row : EntityEmbedding) : Nat ×ₗ List Nat :=
  toLex (s.distance row.embedding embedding, s.collate row.id)

/-- How each query orders the rows of one key is up to the database. -/
structure Plan where
  states : Sorting s.stateKey
  events : Sorting s.eventKey
  embeddings (embedding : Embedding) : Sorting (s.embeddingKey embedding)

def columnText (value : Value) (key : String) : String :=
  match value.get key with
  | none => ""
  | some .null => ""
  | some (.string text) => text
  | some field => s.jsonText field

def latestStates (tenant entityId : String) : List EntityState := (s.states tenant).filter (·.entityId == entityId)

def named (tenant q : String) : List EntityState :=
  (s.states tenant).filter fun row =>
    s.searchTextMatches
      (s.columnText row.stateValue "name" ++ " " ++ s.columnText row.stateValue "label" ++ " " ++ row.entityId) q

def matchingEvents (tenant : String) (eventType text : Option String) : List EskgEvent :=
  (s.events tenant).filter fun row =>
    eventType.all (row.eventType == ·) && text.all (s.searchTextMatches (s.jsonText row.properties))

def matchingEmbeddings (tenant : String) (modality : Option String) : List EntityEmbedding :=
  (s.embeddings tenant).filter fun row => modality.all (row.modality == ·)

end SearchService

def EntityState.row (state : EntityState) : EntityStateRow :=
  ⟨state.entityId, state.stateValue, some state.stateType, some (toMs state.eventTime)⟩

def EskgEvent.row (event : EskgEvent) : EventRow := ⟨event.eventId, event.eventType, toMs event.eventTime, event.properties⟩

def EntityEmbedding.row (embedding : Embedding) (stored : EntityEmbedding) : EmbeddingRow :=
  ⟨some stored.id, stored.entityId, stored.modality, toMs stored.createdAt, stored.metadata,
    s.score (s.distance stored.embedding embedding)⟩

variable {s}

def latestStatesPage (plan : s.Plan) (tenant entityId : String) (limit offset : Nat) : List EntityStateRow :=
  (pageOf (plan.states.sort (s.latestStates tenant entityId)) limit offset).map EntityState.row

def searchByNamePage (plan : s.Plan) (tenant query : String) (limit offset : Nat) : Except String (List EntityStateRow) := do
  let q ← normalizeQuery query
  return (pageOf (plan.states.sort (s.named tenant q)) limit offset).map EntityState.row

def searchEventsPage (plan : s.Plan) (tenant : String) (eventType text : Option String) (limit offset : Nat) :
    Except String (List EventRow) := do
  ensure (eventType.isSome || text.isSome) "search_events requires event_type or text"
  return (pageOf (plan.events.sort (s.matchingEvents tenant eventType text)) limit offset).map EskgEvent.row

def searchEmbeddingsPage (plan : s.Plan) (tenant : String) (modality : Option String) (embedding : Embedding)
    (limit offset : Nat) : List EmbeddingRow :=
  (pageOf ((plan.embeddings embedding).sort (s.matchingEmbeddings tenant modality)) limit offset).map
    (EntityEmbedding.row s embedding)

def EntityStateRow.hit (row : EntityStateRow) : GlobalSearchHit := .entityState row.entityId row.metadata row.stateType

def EventRow.hit (row : EventRow) : GlobalSearchHit := .event row.eventId row.eventType row.eventTimeMs row.properties

def EmbeddingRow.hit (row : EmbeddingRow) : GlobalSearchHit :=
  .embedding row.entityId row.modality row.createdAtMs row.metadata row.score

variable (auth : Authorizer) (tenant user : String) (context : QueryContext)

def evidenceVisible (context : QueryContext) (entityId : String) (metadata : Value) : Bool :=
  match (metadata.getStr "event_id").filter (· ≠ "") with
  | none => false
  | some eventId =>
      auth user tenant "entity_state" entityId context && auth user tenant "event" eventId context

def hitVisible : GlobalSearchHit → Bool
  | .event eventId _ _ _ => auth user tenant "event" eventId context
  | .entityState entityId state stateType =>
      evidenceVisible auth tenant user { context with
        entityId := some entityId
        stateType := stateType } entityId state
  | .embedding entityId modality _ metadata _ =>
      evidenceVisible auth tenant user { context with
        entityId := some entityId
        modality := some modality
        stateType := none
        gisZone := none } entityId metadata

def phasePage (plan : s.Plan) (query : StructuredSearchQuery) (phase offset : Nat) : Except String (List GlobalSearchHit) :=
  match phase with
  | 0 =>
      match query.entityId, query.text with
      | some entity, _ => .ok ((latestStatesPage plan tenant entity searchBatch offset).map EntityStateRow.hit)
      | none, some text => do
          let rows ← searchByNamePage plan tenant text searchBatch offset
          return rows.map EntityStateRow.hit
      | none, none => .ok []
  | 1 =>
      if query.eventType.isSome || query.text.isSome then do
        let rows ← searchEventsPage plan tenant query.eventType query.text searchBatch offset
        return rows.map EventRow.hit
      else .ok []
  | 2 =>
      match query.text with
      | some text => do
          let embedding ← s.embedText text
          return (searchEmbeddingsPage plan tenant query.modality embedding searchBatch offset).map EmbeddingRow.hit
      | none => .ok []
  | _ => .ok []

def advance (offset : Nat) : Except String Nat := do
  ensure (offset + 1 < 2 ^ 32) "Search cursor overflow"
  ensure (offset + 1 ≤ offsetLimit) "Search continuation limit exceeded"
  return offset + 1

/-- Where the loop over a batch stops, with the items and the offset: at a
visible row behind a full page, or at the end of the batch. -/
inductive Consumed
  | full (items : List GlobalSearchHit) (offset : Nat)
  | through (items : List GlobalSearchHit) (offset : Nat)

def consume (limit : Nat) : List GlobalSearchHit → List GlobalSearchHit → Nat → Except String Consumed
  | [], items, offset => .ok (.through items offset)
  | hit :: rows, items, offset =>
      if hitVisible auth tenant user context hit then
        if items.length = limit then .ok (.full items offset)
        else do
          let offset ← advance offset
          consume limit rows (items ++ [hit]) offset
      else do
        let offset ← advance offset
        consume limit rows items offset

def scanPhases (plans : Nat → s.Plan) (query : StructuredSearchQuery) (limit : Nat) (items : List GlobalSearchHit)
    (scanned : Nat) (cursor : SearchCursor) : Except String (Page GlobalSearchHit SearchCursor) :=
  if cursor.phase < 3 ∧ scanned < searchScanLimit then
    match phasePage tenant (plans cursor.offset) query cursor.phase cursor.offset with
    | .error e => .error e
    | .ok rows =>
        match consume auth tenant user context limit rows items cursor.offset with
        | .error e => .error e
        | .ok (.full items offset) => .ok ⟨items, some { cursor with offset := offset }⟩
        | .ok (.through items offset) =>
            -- the loop over the batch counted each of its rows
            if rows.length < searchBatch then
              scanPhases plans query limit items (scanned + rows.length) { cursor with
                phase := cursor.phase + 1
                offset := 0 }
            else scanPhases plans query limit items (scanned + rows.length) { cursor with offset := offset }
  else .ok ⟨items, if cursor.phase < 3 then some cursor else none⟩
termination_by (3 - cursor.phase) + (searchScanLimit - scanned)
decreasing_by
  · omega
  · have hbatch : 0 < searchBatch := by decide
    omega

def structuredSearchPage (plans : Nat → s.Plan) (query : StructuredSearchQuery) (limit : Nat) (after : Option SearchCursor) :
    Except String (Page GlobalSearchHit SearchCursor) := do
  let query ← query.normalized
  ensure query.constrained "Invalid search constraint"
  let scope := s.digest tenant user query
  let cursor ← match after with
    | some cursor => do
        ensure (cursor.scope = scope ∧ cursor.phase < 3 ∧ cursor.offset ≤ offsetLimit) "Invalid search cursor"
        pure cursor
    | none => pure ⟨scope, 0, 0⟩
  scanPhases auth tenant user context plans query (max 1 (min limit hardLimit)) [] 0 cursor

variable {auth tenant user context} {query : StructuredSearchQuery}

def phaseStates (s : SearchService) (tenant : String) (query : StructuredSearchQuery) : List EntityState :=
  match query.entityId, query.text with
  | some entity, _ => s.latestStates tenant entity
  | none, some text => s.named tenant text
  | none, none => []

def phaseEvents (s : SearchService) (tenant : String) (query : StructuredSearchQuery) : List EskgEvent :=
  if query.eventType.isSome || query.text.isSome then s.matchingEvents tenant query.eventType query.text else []

def phaseEmbeddings (s : SearchService) (tenant : String) (query : StructuredSearchQuery) :
    Option (Embedding × List EntityEmbedding) :=
  match query.text.map s.embedText with
  | some (.ok embedding) => some (embedding, s.matchingEmbeddings tenant query.modality)
  | _ => none

def EntityState.hit (state : EntityState) : GlobalSearchHit := state.row.hit

def EskgEvent.hit (event : EskgEvent) : GlobalSearchHit := event.row.hit

def EntityEmbedding.hit (s : SearchService) (embedding : Embedding) (stored : EntityEmbedding) : GlobalSearchHit :=
  (stored.row s embedding).hit

def phaseRows (tenant : String) (query : StructuredSearchQuery) (plan : s.Plan) : Nat → List GlobalSearchHit
  | 0 => (plan.states.sort (phaseStates s tenant query)).map EntityState.hit
  | 1 => (plan.events.sort (phaseEvents s tenant query)).map EskgEvent.hit
  | 2 =>
      match phaseEmbeddings s tenant query with
      | some (embedding, rows) => ((plan.embeddings embedding).sort rows).map (EntityEmbedding.hit s embedding)
      | none => []
  | _ => []

theorem map_pageOf {α β : Type} (f : α → β) (g : β → GlobalSearchHit) (rows : List α) (offset : Nat) :
    ((pageOf rows searchBatch offset).map f).map g = ((rows.map (g ∘ f)).drop offset).take searchBatch := by
  rw [List.map_map, ← List.map_drop, ← List.map_take]
  rfl

theorem normalizeQuery_present {value : Option String} {text : String} (h : present value = some text) :
    normalizeQuery text = .ok text := by
  rw [present, Option.filter_eq_some_iff, Option.map_eq_some_iff] at h
  obtain ⟨⟨given, -, rfl⟩, hne⟩ := h
  have htrim : trimText (trimText given) = trimText given := by
    rw [trimText, trimText, String.toList_ofList, trimBy_trimBy]
  simp only [normalizeQuery, htrim, hne, ensure_true, ok_bind]
  rfl

theorem phasePage_eq
    (htext : ∀ text, query.text = some text → normalizeQuery text = .ok text ∧ Accepts (s.embedText text))
    (plan : s.Plan) (phase offset : Nat) :
    phasePage tenant plan query phase offset = .ok (((phaseRows tenant query plan phase).drop offset).take searchBatch) := by
  have hnil : ([] : List GlobalSearchHit) = (([] : List GlobalSearchHit).drop offset).take searchBatch := by simp
  match phase with
  | 0 =>
      rw [phasePage, phaseRows, phaseStates]
      cases hentity : query.entityId with
      | some entity =>
          simp only [latestStatesPage, map_pageOf]
          rfl
      | none =>
          cases hquery : query.text with
          | none => simp only [Sorting.sort_nil, List.map_nil, ← hnil]
          | some text =>
              simp only [searchByNamePage, (htext text hquery).1, ok_bind, pure_bind, map_pageOf]
              rfl
  | 1 =>
      rw [phasePage, phaseRows, phaseEvents]
      split
      · next hgiven =>
          simp only [searchEventsPage, hgiven, ensure_true, ok_bind, pure_bind, map_pageOf]
          rfl
      · rw [Sorting.sort_nil, List.map_nil, ← hnil]
  | 2 =>
      rw [phasePage, phaseRows, phaseEmbeddings]
      cases hquery : query.text with
      | none => simp only [Option.map_none, ← hnil]
      | some text =>
          obtain ⟨embedding, hembedding⟩ := (htext text hquery).2
          simp only [searchEmbeddingsPage, hembedding, Option.map_some, ok_bind, map_pageOf]
          rfl
  | phase + 3 =>
      simp only [phasePage, phaseRows, ← hnil]

theorem advance_eq {offset : Nat} (h : offset + 1 ≤ offsetLimit) : advance offset = .ok (offset + 1) := by
  have hwidth : offset + 1 < 2 ^ 32 := h.trans_lt (by decide)
  simp only [advance, h, hwidth, decide_true, ensure_true, ok_bind]
  rfl

/-- The loop over a batch takes the visible rows up to where it stops. -/
theorem consume_eq {limit : Nat} (rows items : List GlobalSearchHit) (offset : Nat) (hitems : items.length ≤ limit)
    (hoffset : offset + rows.length ≤ offsetLimit) :
    ∃ n, n ≤ rows.length ∧ (items ++ (rows.take n).filter (hitVisible auth tenant user context)).length ≤ limit ∧
      ((consume auth tenant user context limit rows items offset =
          .ok (.full (items ++ (rows.take n).filter (hitVisible auth tenant user context)) (offset + n)) ∧
        (items ++ (rows.take n).filter (hitVisible auth tenant user context)).length = limit) ∨
      (consume auth tenant user context limit rows items offset =
          .ok (.through (items ++ (rows.take n).filter (hitVisible auth tenant user context)) (offset + n)) ∧
            n = rows.length)) := by
  induction rows generalizing items offset with
  | nil => exact ⟨0, le_rfl, by simpa using hitems, .inr ⟨by simp [consume], rfl⟩⟩
  | cons hit rows ih =>
      rw [List.length_cons] at hoffset
      have hadvance : advance offset = .ok (offset + 1) := advance_eq (by omega)
      cases hvisible : hitVisible auth tenant user context hit with
      | true =>
          by_cases hfull : items.length = limit
          · exact ⟨0, Nat.zero_le _, by simpa using hitems, .inl ⟨by simp [consume, hvisible, hfull], by simpa using hfull⟩⟩
          · obtain ⟨n, hn, hstop⟩ := ih (items ++ [hit]) (offset + 1) (by simp; omega) (by omega)
            have hstep : consume auth tenant user context limit (hit :: rows) items offset =
                consume auth tenant user context limit rows (items ++ [hit]) (offset + 1) := by
              simp [consume, hvisible, hfull, hadvance, ok_bind]
            refine ⟨n + 1, Nat.succ_le_succ hn, ?_⟩
            rw [List.append_assoc, List.singleton_append, Nat.add_right_comm, ← List.filter_cons_of_pos hvisible] at hstop
            simpa only [hstep, List.take_succ_cons, List.length_cons, Nat.add_right_cancel_iff, Nat.add_assoc] using hstop
      | false =>
          obtain ⟨n, hn, hstop⟩ := ih items (offset + 1) hitems (by omega)
          have hstep : consume auth tenant user context limit (hit :: rows) items offset =
              consume auth tenant user context limit rows items (offset + 1) := by
            simp [consume, hvisible, hadvance, ok_bind]
          have hskip : (hit :: rows.take n).filter (hitVisible auth tenant user context) =
              (rows.take n).filter (hitVisible auth tenant user context) := List.filter_cons_of_neg (by simp [hvisible])
          refine ⟨n + 1, Nat.succ_le_succ hn, ?_⟩
          rw [Nat.add_right_comm, ← hskip] at hstop
          simpa only [hstep, List.take_succ_cons, List.length_cons, Nat.add_right_cancel_iff, Nat.add_assoc] using hstop

def ahead (rows : Nat → List GlobalSearchHit) : Nat → List GlobalSearchHit
  | 0 => []
  | phases + 1 => rows (2 - phases) ++ ahead rows phases

def rest (auth : Authorizer) (tenant user : String) (context : QueryContext) (rows : Nat → List GlobalSearchHit)
    (cursor : SearchCursor) : List GlobalSearchHit :=
  ((ahead rows (3 - cursor.phase)).drop cursor.offset).filter (hitVisible auth tenant user context)

def left (rows : Nat → List GlobalSearchHit) (cursor : SearchCursor) : Nat :=
  (ahead rows (3 - cursor.phase)).length - cursor.offset + (3 - cursor.phase)

variable {rows : Nat → List GlobalSearchHit}

theorem ahead_phase {phase : Nat} (h : phase < 3) : ahead rows (3 - phase) = rows phase ++ ahead rows (3 - (phase + 1)) := by
  have hphases : 3 - phase = 3 - (phase + 1) + 1 := by omega
  have hphase : 2 - (3 - (phase + 1)) = phase := by omega
  rw [hphases, ahead, hphase]

/-- Passing over some rows leaves the rows behind them. -/
theorem rest_advance {cursor : SearchCursor} (hphase : cursor.phase < 3) {n : Nat}
    (hoffset : cursor.offset + n ≤ (rows cursor.phase).length) :
    rest auth tenant user context rows cursor =
        (((rows cursor.phase).drop cursor.offset).take n).filter (hitVisible auth tenant user context) ++
          rest auth tenant user context rows { cursor with offset := cursor.offset + n } ∧
      left rows { cursor with offset := cursor.offset + n } + n = left rows cursor := by
  constructor
  · have hcursor : cursor.offset ≤ (rows cursor.phase).length := by omega
    simp only [rest, ahead_phase hphase]
    rw [← List.filter_append, List.drop_append_of_le_length hcursor, List.drop_append_of_le_length hoffset, ← List.drop_drop,
      ← List.append_assoc, List.take_append_drop]
  · simp only [left, ahead_phase hphase, List.length_append]
    omega

/-- The end of a phase is the start of the next one. -/
theorem rest_phase {cursor : SearchCursor} (hphase : cursor.phase < 3) (hcursor : cursor.offset = (rows cursor.phase).length) :
    rest auth tenant user context rows { cursor with
        phase := cursor.phase + 1
        offset := 0 } = rest auth tenant user context rows cursor ∧
      left rows { cursor with
        phase := cursor.phase + 1
        offset := 0 } < left rows cursor := by
  constructor
  · simp only [rest, ahead_phase hphase, hcursor, List.drop_left, List.drop_zero]
  · simp only [left, ahead_phase hphase, List.length_append]
    omega

def BatchesWalk (auth : Authorizer) (tenant user : String) (context : QueryContext) (query : StructuredSearchQuery)
    (plans : Nat → s.Plan) (rows : Nat → List GlobalSearchHit) (limit : Nat) : Prop :=
  ∀ (items : List GlobalSearchHit) (cursor : SearchCursor), cursor.phase < 3 → items.length ≤ limit →
    cursor.offset ≤ (rows cursor.phase).length →
    ∃ batch n taken, phasePage tenant (plans cursor.offset) query cursor.phase cursor.offset = .ok batch ∧
      cursor.offset + n ≤ (rows cursor.phase).length ∧
      items ++ rest auth tenant user context rows cursor =
        taken ++ rest auth tenant user context rows { cursor with offset := cursor.offset + n } ∧
      taken.length ≤ items.length + n ∧ taken.length ≤ limit ∧
      ((consume auth tenant user context limit batch items cursor.offset = .ok (.full taken (cursor.offset + n)) ∧
          taken.length = limit) ∨
        (consume auth tenant user context limit batch items cursor.offset = .ok (.through taken (cursor.offset + n)) ∧
          n = batch.length ∧ (batch.length < searchBatch → cursor.offset + n = (rows cursor.phase).length)))

theorem batchesWalk_of_pages {plans : Nat → s.Plan} (hrows : ∀ phase, (rows phase).length ≤ offsetLimit)
    (hpages : ∀ phase offset, phasePage tenant (plans offset) query phase offset = .ok
      (((rows phase).drop offset).take searchBatch))
    (limit : Nat) : BatchesWalk auth tenant user context query plans rows limit := by
  intro items cursor hphase hitems hcursor
  have hlength : (((rows cursor.phase).drop cursor.offset).take searchBatch).length =
      min searchBatch ((rows cursor.phase).length - cursor.offset) := by
    rw [List.length_take, List.length_drop]
  have hfit := hrows cursor.phase
  obtain ⟨n, hn, htaken, hstop⟩ := @consume_eq auth tenant user context limit
    (((rows cursor.phase).drop cursor.offset).take searchBatch) items cursor.offset hitems (by omega)
  have hoffset : cursor.offset + n ≤ (rows cursor.phase).length := by omega
  have htake : (((rows cursor.phase).drop cursor.offset).take searchBatch).take n =
      ((rows cursor.phase).drop cursor.offset).take n := by
    rw [List.take_take, Nat.min_eq_left (by omega)]
  refine ⟨_, n, _, hpages _ _, hoffset, ?_, ?_, htaken, hstop.imp id fun h => ⟨h.1, h.2, fun hshort => ?_⟩⟩
  · rw [(@rest_advance auth tenant user context rows cursor hphase n hoffset).1, htake, List.append_assoc]
  · rw [List.length_append]
    exact Nat.add_le_add_left ((List.length_filter_le _ _).trans (List.length_take_le _ _)) _
  · rw [h.2]
    omega

/-- A scan ends behind the last phase with every visible row, or at a cursor
with the rest behind it and progress made. -/
theorem scanPhases_walks {plans : Nat → s.Plan} {limit : Nat} (hlimit : 0 < limit)
    (hwalk : BatchesWalk auth tenant user context query plans rows limit) (items : List GlobalSearchHit) (scanned : Nat)
    (cursor : SearchCursor) (hitems : items.length ≤ limit) (hcursor : cursor.offset ≤ (rows cursor.phase).length) :
    ∃ page, scanPhases auth tenant user context plans query limit items scanned cursor = .ok page ∧
      ((page.after = none ∧ page.items = items ++ rest auth tenant user context rows cursor) ∨
        ∃ next, page.after = some next ∧
          (next.scope = cursor.scope ∧ next.phase < 3 ∧ next.offset ≤ (rows next.phase).length) ∧
          items ++ rest auth tenant user context rows cursor = page.items ++ rest auth tenant user context rows next ∧
          left rows next ≤ left rows cursor ∧
          (scanned = 0 → items = [] → cursor.phase < 3 → left rows next < left rows cursor)) := by
  have hbatch : 0 < searchBatch := by decide
  induction hfuel : (3 - cursor.phase) + (searchScanLimit - scanned) using Nat.strong_induction_on
    generalizing items scanned cursor with
  | _ fuel ih =>
      rw [scanPhases]
      by_cases hgo : cursor.phase < 3 ∧ scanned < searchScanLimit
      · obtain ⟨batch, n, taken, hpage, hoffset, hrest, hgain, hlength, hstop⟩ := hwalk items cursor hgo.1 hitems hcursor
        have hleft := (@rest_advance auth tenant user context rows cursor hgo.1 n hoffset).2
        rcases hstop with ⟨hconsume, hfull⟩ | ⟨hconsume, hn, hover⟩
        · simp only [if_pos hgo, hpage, hconsume]
          refine ⟨_, rfl, .inr ⟨_, rfl, ⟨rfl, hgo.1, hoffset⟩, hrest, by omega, fun _ hnil _ => ?_⟩⟩
          rw [hnil, List.length_nil] at hgain
          omega
        · simp only [if_pos hgo, hpage, hconsume]
          by_cases hshort : batch.length < searchBatch
          · obtain ⟨hrest', hleft'⟩ := @rest_phase auth tenant user context rows
              { cursor with offset := cursor.offset + n } hgo.1 (hover hshort)
            rw [if_pos hshort]
            obtain ⟨page, hscan, houtcome⟩ := ih _ (by simp only; omega) taken (scanned + batch.length) { cursor with
              phase := cursor.phase + 1
              offset := 0 } hlength (Nat.zero_le _) rfl
            refine ⟨page, hscan, houtcome.imp (fun h => ⟨h.1, ?_⟩) ?_⟩
            · rw [h.2, hrest, hrest']
            · rintro ⟨next, hafter, hnext, hitems', hle, -⟩
              have hless := hle.trans_lt (hleft'.trans_le (Nat.le_of_add_right_le hleft.le))
              exact ⟨next, hafter, hnext, by rw [hrest, ← hitems', hrest'], hless.le, fun _ _ _ => hless⟩
          · rw [if_neg hshort]
            obtain ⟨page, hscan, houtcome⟩ := ih _ (by simp only; omega) taken (scanned + batch.length)
              { cursor with offset := cursor.offset + n } hlength hoffset rfl
            refine ⟨page, hscan, houtcome.imp (fun h => ⟨h.1, ?_⟩) ?_⟩
            · rw [h.2, hrest]
            · rintro ⟨next, hafter, hnext, hitems', hle, -⟩
              exact ⟨next, hafter, hnext, by rw [hrest, ← hitems'], by omega, fun _ _ _ => by omega⟩
      · simp only [if_neg hgo]
        by_cases hphase : cursor.phase < 3
        · refine ⟨_, rfl, .inr ⟨cursor, if_pos hphase, ⟨rfl, hphase, hcursor⟩, rfl, le_rfl, fun hzero _ _ => ?_⟩⟩
          exact absurd ⟨hphase, hzero ▸ (by decide : 0 < searchScanLimit)⟩ hgo
        · have hdone : 3 - cursor.phase = 0 := by omega
          refine ⟨_, rfl, .inl ⟨if_neg hphase, ?_⟩⟩
          simp [rest, hdone, ahead]

theorem structuredSearchPage_eq {q : StructuredSearchQuery} (hquery : query.normalized = .ok q)
    (hconstrained : q.constrained = true) (plans : Nat → s.Plan) (limit : Nat) {after : Option SearchCursor} {cursor : SearchCursor}
    (hafter : after.getD ⟨s.digest tenant user q, 0, 0⟩ = cursor) (hscope : cursor.scope = s.digest tenant user q)
    (hphase : cursor.phase < 3) (hoffset : cursor.offset ≤ offsetLimit) :
    structuredSearchPage auth tenant user context plans query limit after =
      scanPhases auth tenant user context plans q (max 1 (min limit hardLimit)) [] 0 cursor := by
  simp only [structuredSearchPage, hquery, ok_bind, hconstrained, ensure_true]
  cases after with
  | none =>
      rw [Option.getD_none] at hafter
      rw [← hafter]
      rfl
  | some given =>
      rw [Option.getD_some] at hafter
      subst hafter
      have hvalid : decide (given.scope = s.digest tenant user q ∧ given.phase < 3 ∧ given.offset ≤ offsetLimit) = true :=
        decide_eq_true ⟨hscope, hphase, hoffset⟩
      simp only [hvalid, ensure_true, ok_bind]
      rfl

theorem normalized_text {q : StructuredSearchQuery} (hquery : query.normalized = .ok q) {text : String}
    (h : q.text = some text) : normalizeQuery text = .ok text := by
  simp only [StructuredSearchQuery.normalized, bind_eq_ok, ensure_eq_ok, pure_eq_ok] at hquery
  obtain ⟨-, -, rfl⟩ := hquery
  exact normalizeQuery_present h

/-- Calls whose batches walk through some rows yield the visible ones of them. -/
theorem yields_of_batches {q : StructuredSearchQuery} (hquery : query.normalized = .ok q) (hconstrained : q.constrained = true)
    (hrows : ∀ phase, (rows phase).length ≤ offsetLimit) {plans : Nat → Nat → s.Plan} {limits : Nat → Nat}
    (hwalk : ∀ k, BatchesWalk auth tenant user context q (plans k) rows (max 1 (min (limits k) hardLimit))) :
    Yields (fun k => structuredSearchPage auth tenant user context (plans k) query (limits k)) 0 none
      (([0, 1, 2].flatMap rows).filter (hitVisible auth tenant user context)) := by
  -- a cursor stands for the visible rows behind it
  let Stands (after : Option SearchCursor) (items : List GlobalSearchHit) (n : Nat) : Prop :=
    ∃ cursor : SearchCursor, after.getD ⟨s.digest tenant user q, 0, 0⟩ = cursor ∧ cursor.scope = s.digest tenant user q ∧
      cursor.phase < 3 ∧ cursor.offset ≤ (rows cursor.phase).length ∧
      items = rest auth tenant user context rows cursor ∧ n = left rows cursor
  have hstart : Stands none (([0, 1, 2].flatMap rows).filter (hitVisible auth tenant user context))
      (left rows ⟨s.digest tenant user q, 0, 0⟩) :=
    ⟨_, rfl, rfl, Nat.zero_lt_succ 2, Nat.zero_le _, by simp [rest, ahead], rfl⟩
  refine yields_of_stands Stands ?_ hstart 0
  rintro k after items n ⟨cursor, hafter, hscope, hphase, hoffset, rfl, rfl⟩
  have hcall : structuredSearchPage auth tenant user context (plans k) query (limits k) after = _ :=
    structuredSearchPage_eq hquery hconstrained (plans k) (limits k) hafter hscope hphase (hoffset.trans (hrows _))
  have hlimit : 0 < max 1 (min (limits k) hardLimit) := Nat.one_pos.trans_le (le_max_left _ _)
  obtain ⟨page, hscan, houtcome⟩ := scanPhases_walks hlimit (hwalk k) [] 0 cursor (Nat.zero_le _) hoffset
  refine ⟨page, hcall.trans hscan, houtcome.imp (fun h => ⟨h.1, h.2⟩) ?_⟩
  rintro ⟨next, hnext, ⟨hscope', hphase', hoffset'⟩, hitems, -, hless⟩
  exact ⟨next, _, _, hnext, ⟨next, rfl, hscope'.trans hscope, hphase', hoffset', rfl, rfl⟩, hless rfl rfl hphase, hitems⟩

/-- Rows that tie in the order of their query give the same hit. -/
structure Settled (s : SearchService) (tenant : String) (query : StructuredSearchQuery) : Prop where
  states : ∀ x ∈ phaseStates s tenant query, ∀ y ∈ phaseStates s tenant query, s.stateKey x = s.stateKey y → x.hit = y.hit
  events : ∀ x ∈ phaseEvents s tenant query, ∀ y ∈ phaseEvents s tenant query, s.eventKey x = s.eventKey y → x.hit = y.hit
  embeddings : ∀ embedding stored, phaseEmbeddings s tenant query = some (embedding, stored) → ∀ x ∈ stored, ∀ y ∈ stored,
    s.embeddingKey embedding x = s.embeddingKey embedding y → x.hit s embedding = y.hit s embedding

/-- No source has more rows than a cursor can count. -/
structure Bounded (s : SearchService) (tenant : String) (query : StructuredSearchQuery) : Prop where
  states : (phaseStates s tenant query).length ≤ offsetLimit
  events : (phaseEvents s tenant query).length ≤ offsetLimit
  embeddings : ∀ embedding stored, phaseEmbeddings s tenant query = some (embedding, stored) → stored.length ≤ offsetLimit

structure Named (s : SearchService) (tenant : String) (query : StructuredSearchQuery) : Prop where
  states : ∀ x ∈ phaseStates s tenant query, (x.stateValue.getStr "event_id").any (· ≠ "")
  embeddings : ∀ embedding stored, phaseEmbeddings s tenant query = some (embedding, stored) →
    ∀ x ∈ stored, (x.metadata.getStr "event_id").any (· ≠ "")

/-- Whoever may view what, however each query orders the rows of one key and with
any limits, following the cursors from the start comes to an end and yields the
visible rows of the three phases in an order of theirs. -/
def WalksExact (s : SearchService) (tenant user : String) (context : QueryContext) (query q : StructuredSearchQuery) : Prop :=
  ∀ (auth : Authorizer) (plans : Nat → Nat → s.Plan) (limits : Nat → Nat), ∃ plan : s.Plan,
    Yields (fun k => structuredSearchPage auth tenant user context (plans k) query (limits k)) 0 none
      (([0, 1, 2].flatMap (phaseRows tenant q plan)).filter (hitVisible auth tenant user context))

theorem phaseRows_perm (plan plan' : s.Plan) (phase : Nat) :
    (phaseRows tenant query plan phase).Perm (phaseRows tenant query plan' phase) := by
  match phase with
  | 0 => exact ((plan.states.perm _).trans (plan'.states.perm _).symm).map _
  | 1 => exact ((plan.events.perm _).trans (plan'.events.perm _).symm).map _
  | 2 =>
      rw [phaseRows, phaseRows]
      split
      · next embedding stored _ =>
          exact (((plan.embeddings embedding).perm stored).trans ((plan'.embeddings embedding).perm stored).symm).map _
      · rfl
  | _ + 3 => rfl

theorem Settled.phaseRows_eq (h : Settled s tenant query) (plan plan' : s.Plan) (phase : Nat) :
    phaseRows tenant query plan phase = phaseRows tenant query plan' phase := by
  match phase with
  | 0 => exact Sorting.map_sort _ h.states _ _
  | 1 => exact Sorting.map_sort _ h.events _ _
  | 2 =>
      rw [phaseRows, phaseRows]
      split
      · next embedding stored hstored => exact Sorting.map_sort _ (h.embeddings embedding stored hstored) _ _
      · rfl
  | _ + 3 => rfl

def plainPlan (s : SearchService) : s.Plan := ⟨.ranked _ 0, .ranked _ 0, fun _ => .ranked _ 0⟩

/-- Unsettled rows let two plans disagree on a phase. -/
theorem exists_mixed (h : ¬ Settled s tenant query) :
    ∃ (plan plan' : s.Plan) (phase cut : Nat), phase < 3 ∧
      ¬ ((phaseRows tenant query plan phase).take cut ++ (phaseRows tenant query plan' phase).drop cut).Perm
        (phaseRows tenant query plan phase) := by
  classical
  by_contra hnone
  refine h ⟨fun x hx y hy htie => by_contra fun hne => ?_, fun x hx y hy htie => by_contra fun hne => ?_,
    fun embedding stored hstored x hx y hy htie => by_contra fun hne => ?_⟩
  · obtain ⟨o, o', cut, hmixed⟩ := Sorting.exists_mixed EntityState.hit hx hy htie hne
    exact hnone ⟨{ plainPlan s with states := o }, { plainPlan s with states := o' }, 0, cut, by omega,
      fun hperm => hmixed (hperm.trans ((o.perm _).map _))⟩
  · obtain ⟨o, o', cut, hmixed⟩ := Sorting.exists_mixed EskgEvent.hit hx hy htie hne
    exact hnone ⟨{ plainPlan s with events := o }, { plainPlan s with events := o' }, 1, cut, by omega,
      fun hperm => hmixed (hperm.trans ((o.perm _).map _))⟩
  · obtain ⟨o, o', cut, hmixed⟩ := Sorting.exists_mixed (EntityEmbedding.hit s embedding) hx hy htie hne
    refine hnone ⟨{ plainPlan s with embeddings := Function.update (plainPlan s).embeddings embedding o },
      { plainPlan s with embeddings := Function.update (plainPlan s).embeddings embedding o' }, 2, cut, by omega, fun hperm => ?_⟩
    simp only [phaseRows, hstored, Function.update_self] at hperm
    exact hmixed (hperm.trans ((o.perm _).map _))

theorem batchesWalk_of_heads {plans : Nat → s.Plan}
    (hrows : ∀ phase, (rows phase).length ≤ offsetLimit)
    (hpages : ∀ phase offset, phase < 3 → ∃ batch, phasePage tenant (plans offset) query phase offset = .ok batch ∧
      batch.length = min searchBatch ((rows phase).length - offset) ∧ batch.head? = (rows phase)[offset]? ∧
      ∀ hit ∈ batch, hitVisible auth tenant user context hit = true) :
    BatchesWalk auth tenant user context query plans rows 1 := by
  have hbatch : 1 < searchBatch := by decide
  intro items cursor hphase hitems hcursor
  obtain ⟨batch, hpage, hlength, hhead, hvisible⟩ := hpages cursor.phase cursor.offset hphase
  cases batch with
  | nil =>
      rw [List.length_nil] at hlength
      exact ⟨[], 0, items, hpage, hcursor, rfl, le_rfl, hitems, .inr ⟨rfl, rfl, fun _ => by simp only [Nat.add_zero]; omega⟩⟩
  | cons hit more =>
      have hfit := hrows cursor.phase
      rw [List.length_cons] at hlength
      have hoffset : cursor.offset + 1 ≤ (rows cursor.phase).length := by omega
      have hadvance : advance cursor.offset = .ok (cursor.offset + 1) := advance_eq (by omega)
      have hseen := hvisible hit List.mem_cons_self
      by_cases hfull : items.length = 1
      · refine ⟨_, 0, items, hpage, hcursor, rfl, le_rfl, hitems, .inl ⟨?_, hfull⟩⟩
        simp [consume, hseen, hfull]
      · have hnone : items = [] := List.length_eq_zero_iff.mp (by omega)
        have hrow : ((rows cursor.phase).drop cursor.offset).take 1 = [hit] := by
          rw [List.head?_cons] at hhead
          rw [List.take_one, List.head?_drop, ← hhead]
          rfl
        have hrest := (@rest_advance auth tenant user context rows cursor hphase 1 hoffset).1
        rw [hrow, List.filter_cons_of_pos hseen, List.filter_nil] at hrest
        subst hnone
        refine ⟨_, 1, [hit], hpage, hoffset, hrest, le_rfl, le_rfl, ?_⟩
        cases more with
        | nil =>
            refine .inr ⟨?_, rfl, fun _ => ?_⟩
            · simp [consume, hseen, hadvance, ok_bind]
            · rw [List.length_nil] at hlength
              omega
        | cons next more =>
            refine .inl ⟨?_, rfl⟩
            have hnext := hvisible next (List.mem_cons_of_mem _ List.mem_cons_self)
            simp [consume, hseen, hnext, hadvance, ok_bind]

/-- The user whom nothing is denied sees all rows that name their events. -/
theorem Named.visible (h : Named s tenant query) (plan : s.Plan) {phase : Nat} {hit : GlobalSearchHit}
    (hhit : hit ∈ phaseRows tenant query plan phase) : hitVisible (fun _ _ _ _ _ => true) tenant user context hit = true := by
  have hnamed {id : String} {metadata : Value} {c : QueryContext} (h : (metadata.getStr "event_id").any (· ≠ "")) :
      evidenceVisible (fun _ _ _ _ _ => true) tenant user c id metadata = true := by
    cases hevent : metadata.getStr "event_id" with
    | none => simp [hevent] at h
    | some eventId =>
        have hne : eventId ≠ "" := by simpa [hevent] using h
        simp [evidenceVisible, hevent, Option.filter_some, hne]
  match phase with
  | 0 =>
      obtain ⟨state, hstate, rfl⟩ := List.mem_map.mp hhit
      rw [EntityState.hit, EntityStateRow.hit, hitVisible]
      exact hnamed (h.states state ((plan.states.perm _).mem_iff.mp hstate))
  | 1 =>
      obtain ⟨event, -, rfl⟩ := List.mem_map.mp hhit
      rfl
  | 2 =>
      rw [phaseRows] at hhit
      split at hhit
      · next embedding stored hstored =>
          obtain ⟨row, hrow, rfl⟩ := List.mem_map.mp hhit
          rw [EntityEmbedding.hit, EmbeddingRow.hit, hitVisible]
          exact hnamed (h.embeddings embedding stored hstored row (((plan.embeddings embedding).perm _).mem_iff.mp hrow))
      · cases hhit
  | _ + 3 => cases hhit

theorem Bounded.phaseRows_length (h : Bounded s tenant query) (plan : s.Plan) (phase : Nat) :
    (phaseRows tenant query plan phase).length ≤ offsetLimit := by
  match phase with
  | 0 =>
      rw [phaseRows, List.length_map, Sorting.length_sort]
      exact h.states
  | 1 =>
      rw [phaseRows, List.length_map, Sorting.length_sort]
      exact h.events
  | 2 =>
      rw [phaseRows]
      split
      · next embedding stored hstored =>
          rw [List.length_map, Sorting.length_sort]
          exact h.embeddings embedding stored hstored
      · exact Nat.zero_le _
  | _ + 3 => exact Nat.zero_le _

theorem walk_mixed {q : StructuredSearchQuery} (hquery : query.normalized = .ok q) (hconstrained : q.constrained = true)
    (htext : ∀ text, q.text = some text → normalizeQuery text = .ok text ∧ Accepts (s.embedText text))
    (hrows : ∀ (plan : s.Plan) phase, (phaseRows tenant q plan phase).length ≤ offsetLimit) (hnamed : Named s tenant q)
    (plan plan' : s.Plan) (cut : Nat) :
    Yields (fun _ => structuredSearchPage (fun _ _ _ _ _ => true) tenant user context
        (fun offset => if offset < cut then plan else plan') query 1) 0 none
      ([0, 1, 2].flatMap fun phase => (phaseRows tenant q plan phase).take cut ++ (phaseRows tenant q plan' phase).drop cut) := by
  have hlength (phase : Nat) : (phaseRows tenant q plan phase).length = (phaseRows tenant q plan' phase).length :=
    (phaseRows_perm plan plan' phase).length_eq
  have hmixed (phase : Nat) : ((phaseRows tenant q plan phase).take cut ++ (phaseRows tenant q plan' phase).drop cut).length =
      (phaseRows tenant q plan phase).length := by
    rw [List.length_append, List.length_take, List.length_drop, ← hlength]
    omega
  have hyields := @yields_of_batches s (fun _ _ _ _ _ => true) tenant user context query
    (fun phase => (phaseRows tenant q plan phase).take cut ++ (phaseRows tenant q plan' phase).drop cut) q hquery hconstrained
    (fun phase => (hmixed phase).le.trans (hrows plan phase)) (fun _ offset => if offset < cut then plan else plan') (fun _ => 1)
    fun _ => batchesWalk_of_heads (fun phase => (hmixed phase).le.trans (hrows plan phase)) fun phase offset _ => ?_
  · rwa [List.filter_eq_self.mpr] at hyields
    intro hit hhit
    obtain ⟨phase, -, hhit⟩ := List.mem_flatMap.mp hhit
    rcases List.mem_append.mp hhit with hhit | hhit
    · exact hnamed.visible plan (List.mem_of_mem_take hhit)
    · exact hnamed.visible plan' (List.mem_of_mem_drop hhit)
  · refine ⟨_, phasePage_eq htext _ phase offset, ?_, ?_, fun hit hhit =>
      hnamed.visible _ (List.mem_of_mem_drop (List.mem_of_mem_take hhit))⟩
    · rw [List.length_take, List.length_drop, hmixed]
      split <;> simp [hlength]
    · rw [List.head?_take, if_neg (by decide), List.head?_drop, getElem?_mixed (hlength phase)]
      split <;> rfl

theorem settled_of_walks {q : StructuredSearchQuery} (hquery : query.normalized = .ok q) (hconstrained : q.constrained = true)
    (htext : ∀ text, q.text = some text → normalizeQuery text = .ok text ∧ Accepts (s.embedText text))
    (hrows : ∀ (plan : s.Plan) phase, (phaseRows tenant q plan phase).length ≤ offsetLimit) (hnamed : Named s tenant q)
    (h : WalksExact s tenant user context query q) : Settled s tenant q := by
  by_contra hnot
  obtain ⟨plan, plan', phase, cut, hphase, hmixed⟩ := exists_mixed hnot
  obtain ⟨order, hyields⟩ := h (fun _ _ _ _ _ => true) (fun _ offset => if offset < cut then plan else plan') fun _ => 1
  have hsame := (walk_mixed hquery hconstrained htext hrows hnamed plan plan' cut).unique hyields
  rw [List.filter_eq_self.mpr] at hsame
  · have hlength (phase : Nat) : ((phaseRows tenant q plan phase).take cut ++ (phaseRows tenant q plan' phase).drop cut).length =
        (phaseRows tenant q order phase).length := by
      rw [List.length_append, List.length_take, List.length_drop, (phaseRows_perm plan plan' phase).length_eq,
        (phaseRows_perm order plan' phase).length_eq]
      omega
    have hphases : (phaseRows tenant q plan phase).take cut ++ (phaseRows tenant q plan' phase).drop cut =
        phaseRows tenant q order phase := by
      simp only [List.flatMap_cons, List.flatMap_nil, List.append_nil] at hsame
      obtain ⟨hzero, hsame⟩ := List.append_inj hsame (hlength 0)
      obtain ⟨hone, htwo⟩ := List.append_inj hsame (hlength 1)
      interval_cases phase
      · exact hzero
      · exact hone
      · exact htwo
    exact hmixed (hphases ▸ phaseRows_perm order plan phase)
  · intro hit hhit
    obtain ⟨phase, -, hhit⟩ := List.mem_flatMap.mp hhit
    exact hnamed.visible order hhit

/-- Under the keys of the tables only states tie: one entity, one time and one
type, from different events. -/
theorem settled_iff (hcollate : Function.Injective s.collate)
    (hevents : ∀ x ∈ s.events tenant, ∀ y ∈ s.events tenant, x.eventId = y.eventId → x.eventTime = y.eventTime → x = y)
    (hembeddings : ∀ x ∈ s.embeddings tenant, ∀ y ∈ s.embeddings tenant, x.id = y.id → x = y) :
    Settled s tenant query ↔ ∀ x ∈ phaseStates s tenant query, ∀ y ∈ phaseStates s tenant query,
      x.entityId = y.entityId → x.eventTime = y.eventTime → x.stateType = y.stateType → x.stateValue = y.stateValue := by
  constructor
  · intro h x hx y hy hentity htime htype
    have hhit := h.states x hx y hy (by rw [SearchService.stateKey, SearchService.stateKey, hentity, htime, htype])
    exact (GlobalSearchHit.entityState.inj hhit).2.1
  · intro h
    refine ⟨fun x hx y hy htie => ?_, fun x hx y hy htie => ?_, fun embedding stored hstored x hx y hy htie => ?_⟩
    · obtain ⟨htime, hkeys⟩ := Prod.ext_iff.mp htie
      obtain ⟨hentity, htype⟩ := Prod.ext_iff.mp hkeys
      have hvalue := h x hx y hy (hcollate hentity) (neg_injective htime) (hcollate htype)
      simp only [EntityState.hit, EntityStateRow.hit, EntityState.row, hcollate hentity, hcollate htype, hvalue]
    · obtain ⟨htime, hkeys⟩ := Prod.ext_iff.mp htie
      have hmem {z : EskgEvent} (hz : z ∈ phaseEvents s tenant query) : z ∈ s.events tenant := by
        rw [phaseEvents] at hz
        split at hz
        · exact (List.mem_filter.mp hz).1
        · cases hz
      rw [hevents x (hmem hx) y (hmem hy) (hcollate (Prod.ext_iff.mp hkeys).1) (neg_injective htime)]
    · have hmem {z : EntityEmbedding} (hz : z ∈ stored) : z ∈ s.embeddings tenant := by
        rw [phaseEmbeddings] at hstored
        split at hstored
        · cases hstored
          exact (List.mem_filter.mp hz).1
        · cases hstored
      rw [hembeddings x (hmem hx) y (hmem hy) (hcollate (Prod.ext_iff.mp htie).2)]

theorem search_walk_exact_iff (s : SearchService) (tenant user : String) (context : QueryContext)
    (query q : StructuredSearchQuery) (hquery : query.normalized = .ok q) (hconstrained : q.constrained = true)
    (hembed : ∀ text, q.text = some text → Accepts (s.embedText text)) (hsize : Bounded s tenant q) :
    (Settled s tenant q → WalksExact s tenant user context query q) ∧
      (Named s tenant q → WalksExact s tenant user context query q → Settled s tenant q) := by
  have htext : ∀ text, q.text = some text → normalizeQuery text = .ok text ∧ Accepts (s.embedText text) :=
    fun text h => ⟨normalized_text hquery h, hembed text h⟩
  refine ⟨fun hsettled auth plans limits => ⟨plainPlan s, ?_⟩, settled_of_walks hquery hconstrained htext hsize.phaseRows_length⟩
  refine yields_of_batches hquery hconstrained (hsize.phaseRows_length _) fun k => ?_
  refine batchesWalk_of_pages (hsize.phaseRows_length _) (fun phase offset => ?_) _
  rw [phasePage_eq htext, hsettled.phaseRows_eq]

def mentions : SearchService where
  states := fun _ => [⟨"alpha", "e1", "seen", .object [("event_id", .string "e1")], 0⟩]
  events := fun _ => [⟨"e2", "call", 0, .null⟩]
  embeddings := fun _ => []
  searchTextMatches := fun _ _ => true
  jsonText := fun _ => ""
  collate := fun text => text.toList.map Char.toNat
  distance := fun _ _ => 0
  score := fun _ => 0
  embedText := fun _ => .ok (Vector.replicate 1024 0)
  digest := fun _ _ _ => ""

def plainContext : QueryContext := ⟨none, none, none, none, none, none, false, 0, "", none⟩

def callViewer : Authorizer := fun _ _ _ id _ => id == "e2"

theorem search_walk_exact_mentions :
    Settled mentions "t" ⟨some "alpha", none, none, none⟩ ∧
      Yields (fun _ => structuredSearchPage callViewer "t" "u" plainContext (fun _ => plainPlan mentions)
        ⟨some " alpha", none, none, none⟩ 1) 0 none [.event "e2" "call" 0 .null] := by
  have hquery : StructuredSearchQuery.normalized ⟨some " alpha", none, none, none⟩ = .ok ⟨some "alpha", none, none, none⟩ := rfl
  have hsize : Bounded mentions "t" ⟨some "alpha", none, none, none⟩ :=
    ⟨by decide, by decide, fun _ _ h => (Prod.mk.inj (Option.some.inj h)).2 ▸ Nat.zero_le _⟩
  have hsettled : Settled mentions "t" ⟨some "alpha", none, none, none⟩ := by
    refine ⟨fun x hx y hy _ => ?_, fun x hx y hy _ => ?_, fun embedding stored h x hx => ?_⟩
    · rw [List.mem_singleton.mp hx, List.mem_singleton.mp hy]
    · rw [List.mem_singleton.mp hx, List.mem_singleton.mp hy]
    · rw [← (Prod.mk.inj (Option.some.inj h)).2] at hx
      cases hx
  obtain ⟨plan, hyields⟩ := (search_walk_exact_iff mentions "t" "u" plainContext _ _ hquery (by decide)
    (fun _ _ => ⟨_, rfl⟩) hsize).1 hsettled callViewer (fun _ _ => plainPlan mentions) fun _ => 1
  have hrows : [0, 1, 2].flatMap (phaseRows "t" ⟨some "alpha", none, none, none⟩ plan) =
      [.entityState "alpha" (.object [("event_id", .string "e1")]) (some "seen"), .event "e2" "call" 0 .null] := by
    change (plan.states.sort [_]).map EntityState.hit ++ ((plan.events.sort [_]).map EskgEvent.hit ++
      (((plan.embeddings _).sort []).map _ ++ [])) = _
    rw [Sorting.sort_singleton, Sorting.sort_singleton, Sorting.sort_nil]
    rfl
  rw [hrows] at hyields
  exact ⟨hsettled, hyields⟩

def twins : SearchService :=
  { mentions with
    states := fun _ => [⟨"alpha", "e1", "seen", .object [("event_id", .string "e1")], 0⟩,
      ⟨"alpha", "e2", "seen", .object [("event_id", .string "e2")], 0⟩] }

def eventFirst (eventId : String) : twins.Plan :=
  { plainPlan twins with states := .ranked _ fun row => if row.eventId = eventId then 0 else 1 }

/-- Where the two states change places between the pages, the walk shows the one
of them twice and the other never. -/
theorem search_walk_repeats :
    Yields (fun _ => structuredSearchPage (fun _ _ _ _ _ => true) "t" "u" plainContext
        (fun offset => if offset < 1 then eventFirst "e1" else eventFirst "e2") ⟨none, some "alpha", none, none⟩ 1) 0 none
      [.entityState "alpha" (.object [("event_id", .string "e1")]) (some "seen"),
        .entityState "alpha" (.object [("event_id", .string "e1")]) (some "seen")] ∧
      ¬ WalksExact twins "t" "u" plainContext ⟨none, some "alpha", none, none⟩ ⟨none, some "alpha", none, none⟩ := by
  have hsize : Bounded twins "t" ⟨none, some "alpha", none, none⟩ := ⟨by decide, by decide, by rintro _ _ ⟨⟩⟩
  have hnamed : Named twins "t" ⟨none, some "alpha", none, none⟩ := ⟨by decide, by rintro _ _ ⟨⟩⟩
  constructor
  · have hyields := @walk_mixed twins "t" "u" plainContext ⟨none, some "alpha", none, none⟩ ⟨none, some "alpha", none, none⟩ rfl
      (by decide) (by rintro _ ⟨⟩) hsize.phaseRows_length hnamed (eventFirst "e1") (eventFirst "e2") 1
    have hstates : phaseStates twins "t" ⟨none, some "alpha", none, none⟩ = twins.states "t" := rfl
    have hfirst : (eventFirst "e1").states.sort (twins.states "t") = twins.states "t" := Sorting.ranked_two _ _ _ rfl
    have hsecond : (eventFirst "e2").states.sort (twins.states "t") = (twins.states "t").reverse := Sorting.ranked_two _ _ _ rfl
    have hevents : phaseEvents twins "t" ⟨none, some "alpha", none, none⟩ = [] := rfl
    have hembeddings : phaseEmbeddings twins "t" ⟨none, some "alpha", none, none⟩ = none := rfl
    simp only [List.flatMap_cons, List.flatMap_nil, phaseRows, hstates, hfirst, hsecond, hevents, hembeddings,
      Sorting.sort_nil] at hyields
    exact hyields
  · intro hwalks
    have hsettled := settled_of_walks rfl (by decide) (by rintro _ ⟨⟩) hsize.phaseRows_length hnamed hwalks
    have hhit := hsettled.states _ List.mem_cons_self _ (List.mem_cons_of_mem _ List.mem_cons_self) rfl
    have hvalue := (GlobalSearchHit.entityState.inj hhit).2.1
    revert hvalue
    decide

end Galadril.Search
