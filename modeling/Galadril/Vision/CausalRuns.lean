import Galadril.Amarth.ObservationWindows
import Galadril.Lib.Lookup
import Galadril.Vision.Neighbors

namespace Galadril.Vision

open Lib Lib.Checked Lib.Text Amarth

/-- What the libraries compute. Times and lengths of time are in microseconds. -/
structure Libraries (α : Type) where
  numerics : Numerics α
  lower : String → String
  upper : String → String
  title : String → String
  parseInt : String → Option Int
  listing : List String → String
  discover : List (String × Column α) → String → Option String → Except String (List (String × String × Int))

structure CausalSliceSpec where
  target : String
  lookback : Int
  bucket : String
  maxEvents : Int
  maxStates : Int
  kMin : Int
  kMax : Int
  maxVertices : Int
  includePresenceLinks : Bool

def second : Int := 1000000

def units : List (Char × Int) := [('s', second), ('m', 60 * second), ('h', 3600 * second), ('d', 86400 * second)]

variable {α : Type} (L : Libraries α)

def parseLookback (value : String) : Except String Int :=
  if value = "" then .ok (7 * 86400 * second)
  else do
    let normalized := (L.lower (PythonText.strip value)).toList
    let unit ← context (normalized.getLast?.bind fun c => units.lookup c) ("Unsupported lookback format: '" ++ value ++ "'")
    let amount ← context (L.parseInt (String.ofList normalized.dropLast)) "invalid literal for int() with base 10"
    ensure (0 < amount) "lookback amount must be positive"
    return unit * amount

def aliases : List (String × String) :=
  [("second", "s"), ("seconds", "s"), ("minute", "m"), ("minutes", "m"), ("hour", "h"), ("hours", "h"), ("day", "d"), ("days", "d")]

def bucketTimedelta (value : String) : Except String Int :=
  if value = "" then .ok (3600 * second)
  else
    let normalized := L.lower (PythonText.strip value)
    match PythonText.words normalized with
    | [amount, unit] => parseLookback L (((aliases.lookup unit).map fun short => amount ++ short).getD normalized)
    | _ => parseLookback L normalized

structure StepParams where
  lookback : Option String
  bucket : Option String
  maxEvents : Option Int
  maxStates : Option Int
  target : Option String
  kMin : Option Int
  kMax : Option Int
  maxVertices : Option Int
  includePresenceLinks : Option Bool

def numberOr (value : Option Int) (default : Int) : Int := (value.filter (· ≠ 0)).getD default

def textOr (value : Option String) (default : String) : String := (value.filter (· ≠ "")).getD default

def buildSliceSpecFromStepParams (params : StepParams) : Except String CausalSliceSpec := do
  let lookback ← parseLookback L (params.lookback.getD "")
  let kMin := max 1 (numberOr params.kMin 1)
  return {
    target := textOr params.target "entity:"
    lookback
    bucket := textOr params.bucket "1h"
    maxEvents := max 1 (numberOr params.maxEvents 20000)
    maxStates := max 1 (numberOr params.maxStates 20000)
    kMin
    kMax := max kMin (numberOr params.kMax 2)
    maxVertices := max 1 (numberOr params.maxVertices 500)
    includePresenceLinks := params.includePresenceLinks.getD true }

section Contents

variable (α : Type)

inductive Property
  | number (value : α)
  | mapping (entries : List (String × Option α))
  | other

structure Row (β : Type) where
  tenantId : String
  time : Int
  subject : String
  content : β

structure Measured where
  type : String
  properties : List (String × Property α)

structure Embedded where
  modality : String
  vector : List α
  stateType : Option String

/-- The contents of the database, with the times that properties of events and
edges tell. -/
structure Database where
  edges : List Edge
  timestamp : Vertex → Option Int
  observedAt : Edge → Option Int
  states : List (Row (Measured α))
  embeddings : List (Row (Embedded α))
  events : List (Row (Measured α))

variable {α}

namespace Database

variable (db : Database α) (tenantId : String) (windowStart windowEnd : Int)

def inside (time : Option Int) : Bool := time.any fun t => windowStart ≤ t ∧ t ≤ windowEnd

def linkedEvents (tenant : String) (relations entityIds : List String) : List String :=
  (db.edges.filter fun e => e.source.label == "Entity" && e.target.label == "Event" && entityIds.contains e.source.id &&
      e.permitted tenant relations && inside windowStart windowEnd (db.timestamp e.target)).map (fun e => e.target.id) ++
    (db.edges.filter fun e => e.source.label == "Event" && e.target.label == "Entity" && entityIds.contains e.target.id &&
      e.permitted tenant relations && inside windowStart windowEnd (db.timestamp e.source)).map fun e => e.source.id

def getEventIdsForEntities (entityIds : List String) (maxEvents : Int) (relationshipTypes : List String) :
    Except String (List String) :=
  if entityIds = [] ∨ relationshipTypes = [] then .ok []
  else do
    let permitted ← permittedRelations relationshipTypes
    ensure (1 ≤ maxEvents) "get_event_ids_for_entities: invalid event limit"
    let tenant ← normalizeTenantId tenantId
    return ((db.linkedEvents windowStart windowEnd tenant permitted entityIds).eraseDups.take maxEvents.toNat).map fun id =>
      unquoted (quoted id)

def getRelationshipObservations (vertexIds relationshipTypes : List String) : Except String (List (String × Option Int)) :=
  if vertexIds = [] ∨ relationshipTypes = [] then .ok []
  else do
    let permitted ← permittedRelations relationshipTypes
    let tenant ← normalizeTenantId tenantId
    return (db.edges.filter fun e => vertexIds.contains e.source.id && vertexIds.contains e.target.id &&
      e.permitted tenant permitted).map fun e => (unquoted (quoted e.label), db.observedAt e)

end Database

def loadRows {β : Type} (rows : List (Row β)) (tenantId : String) (subjects : List String) (windowStart windowEnd maxRows : Int) :
    Except String (List (Row β)) :=
  if subjects = [] then .ok []
  else do
    let tenant ← normalizeTenantId tenantId
    ensure (0 ≤ maxRows) "LIMIT must not be negative"
    return ((rows.filter fun row => row.tenantId = tenant ∧ windowStart ≤ row.time ∧ row.time ≤ windowEnd ∧
      row.subject ∈ subjects).mergeSort
      fun a b => a.time ≤ b.time).take maxRows.toNat

end Contents

def allowedEskgRelationships : List String :=
  ["TRIGGERS", "LEADS_TO", "EVOLUTION", "CONTAIN", "INFLUENCE", "OCCUR", "DERIVED_FROM", "MENTIONS", "DESCRIBES", "CAUSES"]

def presencePivotRelationships : List String := ["APPEARS_IN", "PARTICIPATED_IN", "DERIVED_FROM", "MENTIONS"]

def parseEntityTarget (target : String) : Option String :=
  ((stripStart "entity:".toList target.toList).map fun rest => PythonText.strip (String.ofList rest)).filter (· ≠ "")

def numericProperties (values : List (String × Property α)) : List (String × α) :=
  let numeric := values.filterMap fun entry => match entry.2 with
    | .number v => some (entry.1, v)
    | _ => none
  match Dictionary.get "scalar_evidence" values with
  | some (.mapping evidence) =>
      (evidence.filterMap fun entry => entry.2.map fun v => (entry.1, v)).foldl
        (fun known entry => Dictionary.assign entry.1 entry.2 known)
        numeric
  | _ => numeric

def stateObservation (row : Row (Measured α)) : Observation α :=
  ⟨row.subject, row.time, row.content.type, numericProperties row.content.properties, [], by simp⟩

def eventObservation (row : Row (Measured α)) : Observation α :=
  ⟨row.subject, row.time, row.content.type,
    (numericProperties row.content.properties).foldl (fun known entry => Dictionary.assign entry.1 entry.2 known)
      [("presence", L.numerics.count 1)], [], by simp⟩

def embeddingObservation (row : Row (Embedded α)) : Except String (Observation α) :=
  if h : row.content.vector = [] then .error ("embedding '" ++ row.content.modality ++ "_embedding' must not be empty")
  else .ok ⟨row.subject, row.time,
    textOr row.content.stateType (L.title row.content.modality ++ "Embedding"), [],
    [(row.content.modality ++ "_embedding", row.content.vector)], by simpa using h⟩

def relationshipTimestamp (time : Option Int) (windowStart windowEnd : Int) : Int :=
  (time.filter fun t => windowStart ≤ t ∧ t ≤ windowEnd).getD windowStart

def observationWindow (windowStart windowEnd bucket : Int) (observations : List (Observation α))
    (relationships : List GraphRelationshipObservation) : Except String (ObservationWindow α) :=
  if hstop : windowStart < windowEnd then
    if hbucket : 0 < bucket then
      if hobserved : ∀ o ∈ observations, windowStart ≤ o.observedAt ∧ o.observedAt ≤ windowEnd then
        if hrelated : ∀ r ∈ relationships, windowStart ≤ r.observedAt ∧ r.observedAt ≤ windowEnd then
          .ok ⟨windowStart, windowEnd, bucket, observations, relationships, hstop, hbucket, hobserved, hrelated⟩
        else .error "relationship is outside the observation window"
      else .error "observation is outside the observation window"
    else .error "observation window bucket must be positive"
  else .error "observation window end must follow start"

def buildObservationWindow (windowStart windowEnd bucket : Int) (states : List (Row (Measured α)))
    (embeddings : List (Row (Embedded α)))
    (relationships : List (String × Option Int)) (events : List (Row (Measured α))) : Except String (ObservationWindow α) := do
  let embedded ← embeddings.mapM (embeddingObservation L)
  observationWindow windowStart windowEnd bucket (states.map stateObservation ++ embedded ++ events.map (eventObservation L))
    (relationships.map fun r => ⟨r.1, relationshipTimestamp r.2 windowStart windowEnd⟩)

structure Settings where
  tenantId : String
  spec : CausalSliceSpec
  targetOutcome : String
  analysisWindow : Option String
  bucket : Int
  windowStart : Int
  windowEnd : Int

def CausalSliceSpec.relationshipTypes (spec : CausalSliceSpec) : List String :=
  allowedEskgRelationships ++ if spec.includePresenceLinks then presencePivotRelationships else []

namespace Settings

variable (s : Settings) (db : Database α)

def observe (entityId : String) : Except String (ObservationWindow α) := do
  let relationshipTypes := s.spec.relationshipTypes
  let neighborhood ← getEntityKHopNeighbors (fetch db.edges s.spec.maxVertices.toNat) entityId s.spec.kMin s.spec.kMax
    s.spec.maxVertices relationshipTypes s.tenantId
  let entityScope := (entityId :: neighborhood).eraseDups
  let eventIds ← db.getEventIdsForEntities s.tenantId s.windowStart s.windowEnd entityScope s.spec.maxEvents
    presencePivotRelationships
  let states ← loadRows db.states s.tenantId entityScope s.windowStart s.windowEnd s.spec.maxStates
  let embeddings ← loadRows db.embeddings s.tenantId entityScope s.windowStart s.windowEnd s.spec.maxStates
  let events ← loadRows db.events s.tenantId eventIds s.windowStart s.windowEnd s.spec.maxEvents
  let relationships ← db.getRelationshipObservations s.tenantId (entityScope ++ eventIds).eraseDups relationshipTypes
  buildObservationWindow L s.windowStart s.windowEnd s.bucket states embeddings relationships events

def slice : Except String (Except String (ObservationWindow α)) :=
  match parseEntityTarget s.spec.target with
  | none => .ok (.error "unsupported_target")
  | some entityId => do
      let w ← s.observe L db entityId
      return if w.observations = [] then .error "empty_slice" else .ok w

end Settings

def resolveTarget (frame : List (String × Column α)) (requested : String) : Except String String :=
  let columns := frame.map Prod.fst
  if requested ∈ columns then .ok requested
  else
    match columns.filter fun column => (requested ++ ".").toList.isPrefixOf column.toList &&
      !occursIn ".pc".toList column.toList with
    | [column] => .ok column
    | candidates =>
        .error ("target outcome '" ++ requested ++ "' is absent or ambiguous; matching features: " ++ L.listing candidates)

def analyzeObservationWindow (w : ObservationWindow α) (targetOutcome : String) (analysisWindow : Option String) :
    Except String (List (String × Column α) × List CausalLink) := do
  let prepared ← w.prepareObservationWindow L.numerics L.upper
  let frame ← features L.numerics prepared
  let target ← resolveTarget L frame targetOutcome
  let edges ← L.discover frame target analysisWindow
  return (frame, buildCausalLinks edges prepared.samplingInterval prepared.featureNodeIds)

inductive Inferred (α : Type)
  | skipped (reason : String)
  | failed (error : String)
  | analyzed (frame : List (String × Column α)) (links : List CausalLink)

namespace Settings

variable (s : Settings) (db : Database α)

def infer : Except String (Inferred α) := do
  match ← s.slice L db with
  | .error reason => return .skipped reason
  | .ok w =>
      match analyzeObservationWindow L w s.targetOutcome s.analysisWindow with
      | .error e => return .failed e
      | .ok (frame, links) => return .analyzed frame links

def sliceFeatures : Except String (Except String (List (String × Column α))) := do
  match ← s.slice L db with
  | .error reason => return .error reason
  | .ok w =>
      let prepared ← w.prepareObservationWindow L.numerics L.upper
      let frame ← features L.numerics prepared
      return .ok frame

end Settings

structure AmarthCausalRunner where
  tenantId : String
  spec : Option CausalSliceSpec
  targetOutcome : Option String
  windowSize : Option String
  normalized : ∃ value, normalizeTenantId value = .ok tenantId

structure Call where
  runner : AmarthCausalRunner
  spec : Option CausalSliceSpec
  targetOutcome : Option String
  windowSize : Option String
  now : Int

def eitherText (given fallback : Option String) : Option String := if given = none ∨ given = some "" then fallback else given

def incomplete : String := "Incomplete configuration context: specification or target outcome is missing."

namespace Call

def effectiveSpec (c : Call) : Option CausalSliceSpec := c.spec <|> c.runner.spec

def settings (c : Call) : Except String Settings := do
  let spec ← context c.effectiveSpec incomplete
  let targetOutcome ← context ((eitherText c.targetOutcome c.runner.targetOutcome).filter (· ≠ "")) incomplete
  let bucket ← bucketTimedelta L spec.bucket
  let windowEnd := c.now / bucket * bucket
  return {
    tenantId := c.runner.tenantId
    spec
    targetOutcome
    analysisWindow := eitherText c.windowSize c.runner.windowSize
    bucket
    windowStart := windowEnd - spec.lookback
    windowEnd }

end Call

structure CachePayload where
  v : Nat
  tenantId : String
  target : String
  windowStart : Int
  windowEnd : Int
  bucketSeconds : Int
  targetOutcome : String
  analysisWindow : Option String
  kMin : Int
  kMax : Int
  maxVertices : Int

def Settings.cachePayload (s : Settings) : CachePayload where
  v := 4
  tenantId := s.tenantId
  target := s.spec.target
  windowStart := s.windowStart
  windowEnd := s.windowEnd
  bucketSeconds := s.bucket
  targetOutcome := s.targetOutcome
  analysisWindow := s.analysisWindow
  kMin := s.spec.kMin
  kMax := s.spec.kMax
  maxVertices := s.spec.maxVertices

inductive RunStatus
  | success
  | skipped
  | failed
deriving DecidableEq

structure CausalRun where
  target : String
  windowStart : Int
  windowEnd : Int
  status : RunStatus

abbrev CausalRuns := List ((String × String) × CausalRun)

inductive Outcome
  | cacheHit
  | skipped (reason : String)
  | success (links : List CausalLink)

def cacheGet (runs : CausalRuns) (tenantId cacheKey : String) : Except String (Option CausalRun) := do
  let tenant ← normalizeTenantId tenantId
  return if tenant = tenantId then Dictionary.get (tenantId, cacheKey) runs else none

def cachePut (s : Settings) (cacheKey : String) (status : RunStatus) (runs : CausalRuns) : Except String CausalRuns := do
  let tenant ← normalizeTenantId s.tenantId
  ensure (tenant = s.tenantId) "new row violates row-level security policy for table causal_runs"
  return Dictionary.assign (s.tenantId, cacheKey) ⟨s.spec.target, s.windowStart, s.windowEnd, status⟩ runs

def recorded (s : Settings) (cacheKey : String) (status : RunStatus) (result : Except String Outcome) (runs : CausalRuns) :
    Except String Outcome × CausalRuns :=
  match cachePut s cacheKey status runs with
  | .error e => (.error e, runs)
  | .ok runs' => (result, runs')

variable (makeCacheKey : CachePayload → String)

def runAfresh (s : Settings) (db : Database α) (runs : CausalRuns) : Except String Outcome × CausalRuns :=
  match s.infer L db with
  | .error e => (.error e, runs)
  | .ok (.skipped reason) => recorded s (makeCacheKey s.cachePayload) .skipped (.ok (.skipped reason)) runs
  | .ok (.failed e) => recorded s (makeCacheKey s.cachePayload) .failed (.error e) runs
  | .ok (.analyzed _ links) => recorded s (makeCacheKey s.cachePayload) .success (.ok (.success links)) runs

def run (c : Call) (db : Database α) (runs : CausalRuns) : Except String Outcome × CausalRuns :=
  match c.settings L with
  | .error e => (.error e, runs)
  | .ok s =>
      match cacheGet runs s.tenantId (makeCacheKey s.cachePayload) with
      | .error e => (.error e, runs)
      | .ok cached =>
          if cached.map CausalRun.status = some .success then (.ok .cacheHit, runs) else runAfresh L makeCacheKey s db runs

section Histories

variable {α : Type} (L : Libraries α) (makeCacheKey : CachePayload → String)

def after (calls : List (Call × Database α)) : CausalRuns :=
  calls.foldl (fun runs call => (run L makeCacheKey call.1 call.2 runs).2) []

def Call.infer (c : Call) (db : Database α) : Except String (Inferred α) := c.settings L >>= fun s => s.infer L db

def Call.key (c : Call) : Except String (String × String) :=
  (c.settings L).map fun s => (s.tenantId, makeCacheKey s.cachePayload)

def Fills (earlier : List (Call × Database α)) (origin : Call × Database α) : Prop :=
  ∃ links, (run L makeCacheKey origin.1 origin.2 (after L makeCacheKey earlier)).1 = .ok (.success links)

/-- Each answer from the cache is that of an earlier successful run, and what
the call would compute over the contents of that run. -/
def Transparent (calls : List (Call × Database α)) : Prop :=
  ∀ before c db later, calls = before ++ (c, db) :: later →
    (run L makeCacheKey c db (after L makeCacheKey before)).1 = .ok .cacheHit →
    (∃ earlier origin between, before = earlier ++ origin :: between ∧ Fills L makeCacheKey earlier origin ∧
      origin.1.key L makeCacheKey = c.key L makeCacheKey) ∧
    ∀ earlier origin between, before = earlier ++ origin :: between → Fills L makeCacheKey earlier origin →
      origin.1.key L makeCacheKey = c.key L makeCacheKey → c.infer L origin.2 = origin.1.infer L origin.2

structure CausalSliceSpec.Agrees (spec spec' : CausalSliceSpec) : Prop where
  presence : spec.includePresenceLinks = spec'.includePresenceLinks
  events : spec.maxEvents = spec'.maxEvents
  states : spec.maxStates = spec'.maxStates

variable {L makeCacheKey}

/-- Everything that a slice is read with is in the key or agreed on. -/
theorem Settings.slice_congr {s s' : Settings} (hpayload : s.cachePayload = s'.cachePayload) (hagrees : s.spec.Agrees s'.spec)
    (db : Database α) : s.slice L db = s'.slice L db := by
  obtain ⟨tenantId, ⟨target, lookback, bucketText, maxEvents, maxStates, kMin, kMax, maxVertices, presence⟩, outcome,
    window, bucket,
    windowStart, windowEnd⟩ := s
  obtain ⟨tenantId', ⟨target', lookback', bucketText', maxEvents', maxStates', kMin', kMax', maxVertices', presence'⟩, outcome',
    window', bucket', windowStart', windowEnd'⟩ := s'
  obtain ⟨hpresence, hevents, hstates⟩ := hagrees
  simp only [cachePayload, CachePayload.mk.injEq] at hpayload hpresence hevents hstates
  obtain ⟨-, rfl, rfl, rfl, rfl, rfl, rfl, rfl, rfl, rfl, rfl⟩ := hpayload
  subst hpresence hevents hstates
  rfl

theorem Settings.infer_congr {s s' : Settings} (hpayload : s.cachePayload = s'.cachePayload) (hagrees : s.spec.Agrees s'.spec)
    (db : Database α) : s.infer L db = s'.infer L db := by
  have houtcome : s.targetOutcome = s'.targetOutcome := congrArg CachePayload.targetOutcome hpayload
  have hwindow : s.analysisWindow = s'.analysisWindow := congrArg CachePayload.analysisWindow hpayload
  rw [infer, infer, slice_congr hpayload hagrees, houtcome, hwindow]

theorem cacheGet_eq_ok {runs : CausalRuns} {tenantId cacheKey : String} {row : CausalRun}
    (h : cacheGet runs tenantId cacheKey = .ok (some row)) : Dictionary.get (tenantId, cacheKey) runs = some row := by
  rw [cacheGet, bind_eq_ok] at h
  obtain ⟨tenant, -, h⟩ := h
  split at h
  · exact pure_eq_ok.mp h
  · cases pure_eq_ok.mp h

theorem get_recorded {s : Settings} {cacheKey : String} {status : RunStatus} {result : Except String Outcome} {runs : CausalRuns}
    {k : String × String} {row : CausalRun} (h : Dictionary.get k (recorded s cacheKey status result runs).2 = some row) :
    Dictionary.get k runs = some row ∨
      k = (s.tenantId, cacheKey) ∧ row.status = status ∧ (recorded s cacheKey status result runs).1 = result := by
  unfold recorded at h ⊢
  cases hput : cachePut s cacheKey status runs with
  | error e =>
      rw [hput] at h
      exact .inl h
  | ok runs' =>
      rw [hput] at h
      obtain ⟨tenant, -, hput⟩ := bind_eq_ok.mp hput
      obtain ⟨-, -, hassign⟩ := bind_eq_ok.mp hput
      obtain rfl := pure_eq_ok.mp hassign
      simp only [Dictionary.get_assign] at h
      split at h
      · next hk =>
        obtain rfl := Option.some.inj h
        exact .inr ⟨hk, rfl, rfl⟩
      · exact .inl h

/-- A successful row was there before, or its run has just succeeded. -/
theorem run_step {c : Call} {db : Database α} {runs : CausalRuns} {k : String × String} {row : CausalRun}
    (h : Dictionary.get k (run L makeCacheKey c db runs).2 = some row) (hsuccess : row.status = .success) :
    Dictionary.get k runs = some row ∨
      (∃ links, (run L makeCacheKey c db runs).1 = .ok (.success links)) ∧ c.key L makeCacheKey = .ok k := by
  unfold run at h ⊢
  cases hs : c.settings L with
  | error e =>
      rw [hs] at h
      exact .inl h
  | ok s =>
      have hkey : c.key L makeCacheKey = .ok (s.tenantId, makeCacheKey s.cachePayload) := by rw [Call.key, hs]; rfl
      simp only [hs] at h ⊢
      cases hcached : cacheGet runs s.tenantId (makeCacheKey s.cachePayload) with
      | error e =>
          rw [hcached] at h
          exact .inl h
      | ok cached =>
          simp only [hcached] at h ⊢
          split at h
          · exact .inl h
          · next hmiss =>
            rw [if_neg hmiss]
            unfold runAfresh at h ⊢
            split at h
            · exact .inl h
            · rcases get_recorded h with hold | ⟨-, hstatus, -⟩
              · exact .inl hold
              · cases hsuccess.symm.trans hstatus
            · rcases get_recorded h with hold | ⟨-, hstatus, -⟩
              · exact .inl hold
              · cases hsuccess.symm.trans hstatus
            · next frame links hinfer =>
              rcases get_recorded h with hold | ⟨hk, -, hresult⟩
              · exact .inl hold
              · exact .inr ⟨⟨links, hresult⟩, by rw [hkey, hk]⟩

theorem rows_filled (calls : List (Call × Database α)) {k : String × String} {row : CausalRun}
    (h : Dictionary.get k (after L makeCacheKey calls) = some row) (hsuccess : row.status = .success) :
    ∃ earlier origin between, calls = earlier ++ origin :: between ∧ Fills L makeCacheKey earlier origin ∧
      origin.1.key L makeCacheKey = .ok k := by
  induction calls using List.reverseRecOn with
  | nil => cases h
  | append_singleton calls call ih =>
      rw [after, List.foldl_append, List.foldl_cons, List.foldl_nil] at h
      rcases run_step h hsuccess with hold | ⟨hfills, hkey⟩
      · obtain ⟨earlier, origin, between, rfl, hfills, hkey⟩ := ih hold
        exact ⟨earlier, origin, between ++ [call], by simp, hfills, hkey⟩
      · exact ⟨calls, call, [], rfl, hfills, hkey⟩

theorem run_hit {c : Call} {db : Database α} {runs : CausalRuns} (h : (run L makeCacheKey c db runs).1 = .ok .cacheHit) :
    ∃ k row, c.key L makeCacheKey = .ok k ∧ Dictionary.get k runs = some row ∧ row.status = .success := by
  have hrecorded : ∀ (s : Settings) status result, (∀ r, result = Except.ok r → r ≠ .cacheHit) →
      (recorded s (makeCacheKey s.cachePayload) status result runs).1 ≠ .ok .cacheHit := by
    intro s status result hresult heq
    unfold recorded at heq
    split at heq
    · cases heq
    · exact hresult _ heq rfl
  unfold run at h
  cases hs : c.settings L with
  | error e => rw [hs] at h; cases h
  | ok s =>
      simp only [hs] at h
      cases hcached : cacheGet runs s.tenantId (makeCacheKey s.cachePayload) with
      | error e => rw [hcached] at h; cases h
      | ok cached =>
          simp only [hcached] at h
          split at h
          · next hhit =>
            obtain ⟨row, rfl, hstatus⟩ := Option.map_eq_some_iff.mp hhit
            exact ⟨_, row, by rw [Call.key, hs]; rfl, cacheGet_eq_ok hcached, hstatus⟩
          · unfold runAfresh at h
            split at h
            · cases h
            · exact absurd h (hrecorded s _ _ (by rintro r heq rfl; cases heq))
            · exact absurd h (hrecorded s _ _ (by rintro r heq rfl; cases heq))
            · exact absurd h (hrecorded s _ _ (by rintro r heq rfl; cases heq))

end Histories

section Columns

open ObservationWindow

variable {α : Type} {L : Libraries α}

theorem get_features {w : ObservationWindow α} (hscalar : ∀ o ∈ w.observations, o.embeddings = []) :
    ∃ prepared frame, w.prepareObservationWindow L.numerics L.upper = .ok prepared ∧ features L.numerics prepared = .ok frame ∧
      ∀ column, (Dictionary.get column frame).isSome ↔
        (∃ r ∈ w.relationships, relationshipColumn L.upper r.relationshipType = column) ∨
          (∃ o ∈ w.observations, ∃ entry ∈ o.scalarValues, featureColumn o.observationType entry.1 = column) ∨
            column = "timestamp" := by
  have hreadings : w.vectorReadings = [] := by
    rw [vectorReadings, List.flatMap_eq_nil_iff]
    intro o ho
    rw [hscalar o ho, List.map_nil]
  have hcolumns : w.vectorColumns = [] := by
    rw [vectorColumns, vectorAccumulators, hreadings]
    simp [Lib.Grouping.accumulate, sortedSet]
  have hscalars : ∀ column, (column ∈ w.scalarAccumulators.map fun entry => entry.1.1) ↔
      ∃ o ∈ w.observations, ∃ entry ∈ o.scalarValues, featureColumn o.observationType entry.1 = column := by
    intro column
    rw [mem_scalarColumns]
    constructor
    · rintro ⟨observationType, name, rfl, row, hmem⟩
      obtain ⟨reading, hreading, heq⟩ := List.mem_map.mp hmem
      obtain ⟨o, ho, hmapped⟩ := List.mem_flatMap.mp hreading
      obtain ⟨entry, hentry, rfl⟩ := List.mem_map.mp hmapped
      obtain ⟨rfl, rfl, -⟩ := heq
      exact ⟨o, ho, entry, hentry, rfl⟩
    · rintro ⟨o, ho, entry, hentry, rfl⟩
      have hreading : ((o.observationType, entry.1, w.bucketIndex o.observedAt), entry.2) ∈ w.scalarReadings :=
        List.mem_flatMap.mpr ⟨o, ho, List.mem_map.mpr ⟨entry, hentry, rfl⟩⟩
      exact ⟨_, _, rfl, _, List.mem_map.mpr ⟨_, hreading, rfl⟩⟩
  refine ⟨⟨w.frame L.numerics L.upper, [], w.featureNodes.map fun entry => (entry.1, sortedSet entry.2), w.bucket⟩,
    preprocessData L.numerics (w.frame L.numerics L.upper), ?_, ?_, fun column => ?_⟩
  · rw [prepareObservationWindow, hcolumns, List.find?_nil]
  · rw [features, expandEmbeddings, List.foldlM_nil]
    rfl
  · rw [get_frame, Option.isSome_map, hcolumns, ← hscalars]
    have hrelated : (column ∈ w.relationships.map fun r => relationshipColumn L.upper r.relationshipType) ↔
        ∃ r ∈ w.relationships, relationshipColumn L.upper r.relationshipType = column := List.mem_map
    rw [← hrelated]
    by_cases hr : column ∈ w.relationships.map fun r => relationshipColumn L.upper r.relationshipType
    · simp only [hr, if_true, Option.isSome_some, true_or]
    · by_cases hs : column ∈ w.scalarAccumulators.map fun entry => entry.1.1
      · simp only [hr, hs, if_true, if_false, List.not_mem_nil, Option.isSome_some, true_or, or_true]
      · simp only [hr, hs, if_false, List.not_mem_nil, false_or, Dictionary.get]
        split
        · next h => simp [← h]
        · next h => simp [Ne.symm h]

end Columns

section Stars

variable {α : Type} (L : Libraries α)

def marker (i : Nat) : String := String.ofList (List.replicate (i + 1) 'e')

def starEdge (entityId tenant id : String) : Edge := ⟨⟨entityId, tenant, "Entity"⟩, ⟨id, tenant, "Event"⟩, "APPEARS_IN", tenant⟩

def star (entityId tenant : String) (time : Int) (events states : Nat) : Database α where
  edges := (List.range events).map fun i => starEdge entityId tenant (marker i)
  timestamp _ := some time
  observedAt _ := none
  states := (List.range states).map fun i => ⟨tenant, time, entityId, ⟨marker i, [("x", .number (L.numerics.count 1))]⟩⟩
  embeddings := []
  events := (List.range events).map fun i => ⟨tenant, time, marker i, ⟨marker i, []⟩⟩

theorem marker_injective : Function.Injective marker := by
  intro i j h
  have hlength := congrArg (fun text : String => text.toList.length) h
  simpa [marker] using hlength

theorem unquoted_marker (i : Nat) : unquoted (quoted (marker i)) = marker i := by
  have hdrop : ∀ rest : List Char, (List.replicate (i + 1) 'e' ++ rest).dropWhile (fun c => decide (c = quotationMark)) =
      List.replicate (i + 1) 'e' ++ rest := by
    intro rest
    rw [List.replicate_succ, List.cons_append, List.dropWhile_cons_of_neg (by decide)]
  have htext : (quoted (marker i)).toList = quotationMark :: (List.replicate (i + 1) 'e' ++ [quotationMark]) := by
    simp [quoted, marker]
  rw [unquoted, htext, trimBy, List.dropWhile_cons_of_pos (by decide), hdrop, List.reverse_append, List.reverse_singleton,
    List.singleton_append, List.dropWhile_cons_of_pos (by decide), List.reverse_replicate]
  have hend := hdrop []
  rw [List.append_nil] at hend
  rw [hend, List.reverse_replicate, marker]

structure Settings.Sound (s : Settings) : Prop where
  bucket : 0 < s.bucket
  window : s.windowStart < s.windowEnd
  least : 1 ≤ s.spec.kMin
  greatest : s.spec.kMin ≤ s.spec.kMax
  vertices : 1 ≤ s.spec.maxVertices
  events : 1 ≤ s.spec.maxEvents
  states : 1 ≤ s.spec.maxStates

variable {L}

theorem parseLookback_pos {value : String} {length : Int} (h : parseLookback L value = .ok length) : 0 < length := by
  have hunits : ∀ entry ∈ units, 0 < entry.2 := by decide
  rw [parseLookback] at h
  split at h
  · obtain rfl := Except.ok.inj h
    decide
  · obtain ⟨unit, hunit, h⟩ := bind_eq_ok.mp h
    obtain ⟨amount, -, h⟩ := bind_eq_ok.mp h
    obtain ⟨⟨⟩, hamount, h⟩ := bind_eq_ok.mp h
    obtain rfl := pure_eq_ok.mp h
    obtain ⟨c, -, hlookup⟩ := Option.bind_eq_some_iff.mp (context_eq_ok.mp hunit)
    obtain ⟨before, after, hlist, -⟩ := List.lookup_eq_some_iff.mp hlookup
    have hmem : (c, unit) ∈ units := hlist ▸ List.mem_append_right _ List.mem_cons_self
    exact Int.mul_pos (hunits _ hmem) (of_decide_eq_true (ensure_eq_ok.mp hamount))

theorem bucketTimedelta_pos {value : String} {length : Int} (h : bucketTimedelta L value = .ok length) : 0 < length := by
  rw [bucketTimedelta] at h
  split at h
  · obtain rfl := Except.ok.inj h
    decide
  · simp only at h
    split at h
    · exact parseLookback_pos h
    · exact parseLookback_pos h

theorem settings_sound {c : Call} {s : Settings} {params : StepParams} (hs : c.settings L = .ok s)
    (hbuilt : buildSliceSpecFromStepParams L params = .ok s.spec) : s.Sound := by
  obtain ⟨spec, -, hs⟩ := bind_eq_ok.mp hs
  obtain ⟨outcome, -, hs⟩ := bind_eq_ok.mp hs
  obtain ⟨bucket, hbucket, hs⟩ := bind_eq_ok.mp hs
  obtain rfl := pure_eq_ok.mp hs
  obtain ⟨lookback, hlookback, hbuilt⟩ := bind_eq_ok.mp hbuilt
  have hpos := parseLookback_pos hlookback
  have hspec := pure_eq_ok.mp hbuilt
  simp only at hspec
  subst hspec
  exact ⟨bucketTimedelta_pos hbucket, by simp only; omega, le_max_left _ _, le_max_left _ _, le_max_left _ _, le_max_left _ _,
    le_max_left _ _⟩

theorem relationshipTypes_known (spec : CausalSliceSpec) :
    (spec.relationshipTypes.all fun value => (relationEndpoints.lookup value).isSome) = true := by
  rw [CausalSliceSpec.relationshipTypes]
  cases spec.includePresenceLinks
  · decide
  · decide

theorem permitted_relationshipTypes (spec : CausalSliceSpec) :
    permittedRelations spec.relationshipTypes = .ok spec.relationshipTypes.dedup := by
  rw [permittedRelations, relationshipTypes_known, ensure_true]
  rfl

theorem relationshipTypes_ne_nil (spec : CausalSliceSpec) : spec.relationshipTypes ≠ [] := by
  simp [CausalSliceSpec.relationshipTypes, allowedEskgRelationships]

theorem permitted_presence : permittedRelations presencePivotRelationships = .ok presencePivotRelationships := by decide

variable {s : Settings} {tenant : String}

theorem neighborhood_ok (h : s.Sound) (htenant : normalizeTenantId s.tenantId = .ok tenant)
    (answer : String → List String → Nat → List String → List String → List (Option String)) (entityId : String) :
    ∃ out, getEntityKHopNeighbors answer entityId s.spec.kMin s.spec.kMax s.spec.maxVertices s.spec.relationshipTypes s.tenantId =
      .ok out := by
  have hbounds : decide (1 ≤ s.spec.kMin ∧ s.spec.kMin ≤ s.spec.kMax ∧ 1 ≤ s.spec.maxVertices) = true :=
    decide_eq_true ⟨h.least, h.greatest, h.vertices⟩
  rw [getEntityKHopNeighbors, if_neg (relationshipTypes_ne_nil s.spec), permitted_relationshipTypes, ok_bind, hbounds, ensure_true,
    ok_bind, htenant, ok_bind]
  exact ⟨_, rfl⟩

theorem permitted_starEdge (entityId id : String) (relations : List String) :
    (starEdge entityId tenant id).permitted tenant relations = relations.contains "APPEARS_IN" := by
  have hcontract : (starEdge entityId tenant id).contract = true := rfl
  rw [Edge.permitted, hcontract]
  simp [starEdge]

variable {entityId : String} {events states : Nat}

theorem linkedEvents_star {entityIds : List String} (hwindow : s.windowStart < s.windowEnd) (hmem : entityId ∈ entityIds) :
    (star L entityId tenant s.windowEnd events states).linkedEvents s.windowStart s.windowEnd tenant presencePivotRelationships
      entityIds = (List.range events).map marker := by
  have hinside : Database.inside s.windowStart s.windowEnd (some s.windowEnd) = true := by
    simp [Database.inside, hwindow.le]
  have hforward : ∀ e ∈ (star L entityId tenant s.windowEnd events states).edges,
      (e.source.label == "Entity" && e.target.label == "Event" && entityIds.contains e.source.id &&
        e.permitted tenant presencePivotRelationships &&
        Database.inside s.windowStart s.windowEnd
          ((star L entityId tenant s.windowEnd events states).timestamp e.target)) = true := by
    intro e he
    obtain ⟨i, -, rfl⟩ := List.mem_map.mp he
    rw [permitted_starEdge, show (star L entityId tenant s.windowEnd events states).timestamp _ =
      some s.windowEnd from rfl, hinside]
    simp [starEdge, hmem, presencePivotRelationships]
  have hbackward : ∀ e ∈ (star L entityId tenant s.windowEnd events states).edges,
      ¬ (e.source.label == "Event" && e.target.label == "Entity" && entityIds.contains e.target.id &&
        e.permitted tenant presencePivotRelationships &&
        Database.inside s.windowStart s.windowEnd
          ((star L entityId tenant s.windowEnd events states).timestamp e.source)) = true := by
    intro e he
    obtain ⟨i, -, rfl⟩ := List.mem_map.mp he
    simp [starEdge]
  rw [Database.linkedEvents, List.filter_eq_self.mpr hforward, List.filter_eq_nil_iff.mpr hbackward, List.map_nil,
    List.append_nil, star,
    List.map_map]
  rfl

theorem eventIds_star {entityIds : List String} (h : s.Sound) (htenant : normalizeTenantId s.tenantId = .ok tenant)
    (hmem : entityId ∈ entityIds) :
    (star L entityId tenant s.windowEnd events states).getEventIdsForEntities s.tenantId s.windowStart s.windowEnd entityIds
      s.spec.maxEvents presencePivotRelationships = .ok ((List.range (min s.spec.maxEvents.toNat events)).map marker) := by
  have hne : ¬ (entityIds = [] ∨ presencePivotRelationships = []) := by
    rintro (rfl | hnil)
    · cases hmem
    · exact absurd hnil (by decide)
  have hlimit : decide (1 ≤ s.spec.maxEvents) = true := decide_eq_true h.events
  have hids : (List.range events).map marker |>.Nodup := List.nodup_range.map marker_injective
  rw [Database.getEventIdsForEntities, if_neg hne, permitted_presence, ok_bind, hlimit, ensure_true, ok_bind, htenant, ok_bind,
    linkedEvents_star h.window hmem, Lookup.eraseDups_of_nodup hids, ← List.map_take, List.take_range, List.map_map]
  have hquoted : ((fun id => unquoted (quoted id)) ∘ marker) = marker := funext unquoted_marker
  rw [hquoted]
  rfl

theorem loadRows_all {β : Type} {rows : List (Row β)} {subjects : List String} {limit : Int}
    (htenant : normalizeTenantId s.tenantId = .ok tenant) (hwindow : s.windowStart < s.windowEnd)
    (hne : subjects ≠ []) (hlimit : 0 ≤ limit)
    (p : Row β → Bool) (hrows : ∀ row ∈ rows, row.tenantId = tenant ∧ row.time = s.windowEnd ∧
      (row.subject ∈ subjects ↔ p row = true)) :
    loadRows rows s.tenantId subjects s.windowStart s.windowEnd limit = .ok ((rows.filter p).take limit.toNat) := by
  have hfilter : (rows.filter fun row => row.tenantId = tenant ∧ s.windowStart ≤ row.time ∧ row.time ≤ s.windowEnd ∧
    row.subject ∈ subjects) =
      rows.filter p := by
    refine List.filter_congr fun row hrow => ?_
    obtain ⟨ht, htime, hsubject⟩ := hrows row hrow
    rw [ht, htime, Bool.eq_iff_iff, decide_eq_true_iff, ← hsubject]
    exact ⟨fun hall => hall.2.2.2, fun hmem => ⟨rfl, hwindow.le, le_refl _, hmem⟩⟩
  have hsorted : (rows.filter p).Pairwise fun a b => decide (a.time ≤ b.time) = true := by
    refine List.Pairwise.imp_of_mem ?_ (List.pairwise_of_forall (fun _ _ => True.intro) : (rows.filter p).Pairwise fun _ _ => True)
    intro a b ha hb _
    rw [(hrows a (List.mem_of_mem_filter ha)).2.1, (hrows b (List.mem_of_mem_filter hb)).2.1]
    exact decide_eq_true (le_refl _)
  have hpositive : decide (0 ≤ limit) = true := decide_eq_true hlimit
  rw [loadRows, if_neg hne, htenant, ok_bind, hpositive, ensure_true, ok_bind, hfilter, List.mergeSort_of_pairwise hsorted]
  rfl

variable (L entityId tenant s) in
def stateRow (i : Nat) : Row (Measured α) := ⟨tenant, s.windowEnd, entityId, ⟨marker i, [("x", .number (L.numerics.count 1))]⟩⟩

variable (α tenant s) in
def eventRow (i : Nat) : Row (Measured α) := ⟨tenant, s.windowEnd, marker i, ⟨marker i, []⟩⟩

theorem stateRows_star (h : s.Sound) (htenant : normalizeTenantId s.tenantId = .ok tenant) {scope : List String}
    (hmem : entityId ∈ scope) :
    loadRows (star L entityId tenant s.windowEnd events states).states s.tenantId scope s.windowStart s.windowEnd s.spec.maxStates =
      .ok ((List.range (min s.spec.maxStates.toNat states)).map (stateRow L s tenant entityId)) := by
  have hrows : ∀ row ∈ (star L entityId tenant s.windowEnd events states).states,
      row.tenantId = tenant ∧ row.time = s.windowEnd ∧ (row.subject ∈ scope ↔ true = true) := by
    intro row hrow
    obtain ⟨i, -, rfl⟩ := List.mem_map.mp hrow
    exact ⟨rfl, rfl, iff_of_true hmem rfl⟩
  have hstates := h.states
  rw [loadRows_all htenant h.window (List.ne_nil_of_mem hmem) (by omega) (fun _ => true) hrows, List.filter_true,
    star, ← List.map_take,
    List.take_range]
  rfl

theorem embeddingRows_star (h : s.Sound) (htenant : normalizeTenantId s.tenantId = .ok tenant) {scope : List String}
    (hne : scope ≠ []) :
    loadRows (star L entityId tenant s.windowEnd events states).embeddings s.tenantId scope s.windowStart s.windowEnd
      s.spec.maxStates =
      .ok [] := by
  have hstates := h.states
  rw [loadRows_all htenant h.window hne (by omega) (fun _ => true) (fun row hrow => by cases hrow), star,
    List.filter_nil, List.take_nil]

theorem filter_lt_range (k n : Nat) : (List.range n).filter (fun i => decide (i < k)) = List.range (min k n) := by
  induction n with
  | zero => rw [Nat.min_zero, List.range_zero, List.filter_nil]
  | succ n ih =>
      rw [List.range_succ, List.filter_append, ih]
      by_cases hn : n < k
      · rw [List.filter_singleton, decide_eq_true hn, cond_true, Nat.min_eq_right hn.le, Nat.min_eq_right hn, List.range_succ]
      · rw [List.filter_singleton, decide_eq_false hn, cond_false, List.append_nil, Nat.min_eq_left (by omega),
          Nat.min_eq_left (by omega)]

theorem eventRows_star (h : s.Sound) (htenant : normalizeTenantId s.tenantId = .ok tenant) :
    loadRows (star L entityId tenant s.windowEnd events states).events s.tenantId
        ((List.range (min s.spec.maxEvents.toNat events)).map marker) s.windowStart s.windowEnd s.spec.maxEvents =
      .ok ((List.range (min s.spec.maxEvents.toNat events)).map (eventRow α s tenant)) := by
  have hevents := h.events
  by_cases hnone : events = 0
  · subst hnone
    rw [Nat.min_zero]
    rfl
  have hne : (List.range (min s.spec.maxEvents.toNat events)).map marker ≠ [] := by
    simp only [ne_eq, List.map_eq_nil_iff, List.range_eq_nil]
    omega
  have hrows : ∀ row ∈ (star L entityId tenant s.windowEnd events states).events, row.tenantId = tenant ∧ row.time = s.windowEnd ∧
      (row.subject ∈ (List.range (min s.spec.maxEvents.toNat events)).map marker ↔
        decide (row.subject ∈ (List.range (min s.spec.maxEvents.toNat events)).map marker) = true) := by
    intro row hrow
    obtain ⟨i, -, rfl⟩ := List.mem_map.mp hrow
    exact ⟨rfl, rfl, by rw [decide_eq_true_iff]⟩
  have hkept : (star L entityId tenant s.windowEnd events states).events.filter
      (fun row => decide (row.subject ∈ (List.range (min s.spec.maxEvents.toNat events)).map marker)) =
        ((List.range events).filter fun i => decide (i < min s.spec.maxEvents.toNat events)).map (eventRow α s tenant) := by
    rw [star, List.filter_map]
    refine congrArg (List.map _) (List.filter_congr fun i _ => ?_)
    rw [Function.comp_apply, Bool.eq_iff_iff, decide_eq_true_iff, decide_eq_true_iff, List.mem_map_of_injective marker_injective,
      List.mem_range]
  rw [loadRows_all htenant h.window hne (by omega) _ hrows, hkept, filter_lt_range, ← List.map_take, List.take_range,
    min_assoc, min_self,
    ← min_assoc, min_self]

theorem contains_appears (spec : CausalSliceSpec) :
    spec.relationshipTypes.dedup.contains "APPEARS_IN" = spec.includePresenceLinks := by
  rw [CausalSliceSpec.relationshipTypes]
  cases spec.includePresenceLinks
  · decide
  · decide

theorem relationshipRows_star (h : s.Sound) (htenant : normalizeTenantId s.tenantId = .ok tenant) {vertexIds : List String}
    (hentity : entityId ∈ vertexIds) (hevents : ∀ i < min s.spec.maxEvents.toNat events, marker i ∈ vertexIds) :
    ∃ rows, (star L entityId tenant s.windowEnd events states).getRelationshipObservations s.tenantId vertexIds
        s.spec.relationshipTypes = .ok rows ∧ (∀ r ∈ rows, r = ("APPEARS_IN", none)) ∧
      (rows = [] ↔ s.spec.includePresenceLinks = false ∨ events = 0) := by
  have hne : ¬ (vertexIds = [] ∨ s.spec.relationshipTypes = []) := by
    rintro (rfl | hnil)
    · cases hentity
    · exact relationshipTypes_ne_nil _ hnil
  have hlabel : unquoted (quoted "APPEARS_IN") = "APPEARS_IN" := by decide
  rw [Database.getRelationshipObservations, if_neg hne, permitted_relationshipTypes, ok_bind, htenant, ok_bind]
  refine ⟨_, rfl, ?_, ?_⟩
  · intro r hr
    obtain ⟨e, he, rfl⟩ := List.mem_map.mp hr
    obtain ⟨i, -, rfl⟩ := List.mem_map.mp (List.mem_of_mem_filter he)
    exact Prod.ext hlabel rfl
  · rw [List.map_eq_nil_iff, List.filter_eq_nil_iff]
    constructor
    · intro hall
      by_contra hnot
      obtain ⟨hpresence, hsome⟩ := not_or.mp hnot
      have hmax := h.events
      have hfirst : starEdge entityId tenant (marker 0) ∈ (star L entityId tenant s.windowEnd events states).edges :=
        List.mem_map.mpr ⟨0, List.mem_range.mpr (by omega), rfl⟩
      refine hall _ hfirst ?_
      have htarget := hevents 0 (by omega)
      rw [permitted_starEdge, contains_appears]
      simpa [starEdge, hentity, htarget] using hpresence
    · rintro hnone e he
      obtain ⟨i, hi, rfl⟩ := List.mem_map.mp he
      rw [permitted_starEdge, contains_appears]
      rcases hnone with hpresence | rfl
      · simp [hpresence]
      · simp at hi

theorem observe_star (h : s.Sound) (htenant : normalizeTenantId s.tenantId = .ok tenant) (entityId : String) (events states : Nat) :
    ∃ w, s.observe L (star L entityId tenant s.windowEnd events states) entityId = .ok w ∧
      w.observations = (List.range (min s.spec.maxStates.toNat states)).map (stateObservation ∘ stateRow L s tenant entityId) ++
        (List.range (min s.spec.maxEvents.toNat events)).map (eventObservation L ∘ eventRow α s tenant) ∧
      (∀ r ∈ w.relationships, r.relationshipType = "APPEARS_IN") ∧
      (w.relationships = [] ↔ s.spec.includePresenceLinks = false ∨ events = 0) := by
  obtain ⟨neighborhood, hneighborhood⟩ := neighborhood_ok h htenant
    (fetch (star L entityId tenant s.windowEnd events states).edges s.spec.maxVertices.toNat) entityId
  have hmem : entityId ∈ (entityId :: neighborhood).eraseDups := List.mem_eraseDups.mpr List.mem_cons_self
  have hne := List.ne_nil_of_mem hmem
  obtain ⟨rows, hrows, hlabels, hnone⟩ := @relationshipRows_star _ L s tenant entityId events states h htenant
    ((entityId :: neighborhood).eraseDups ++ (List.range (min s.spec.maxEvents.toNat events)).map marker).eraseDups
    (List.mem_eraseDups.mpr (List.mem_append_left _ hmem))
    (fun i hi => List.mem_eraseDups.mpr (List.mem_append_right _ (List.mem_map.mpr ⟨i, List.mem_range.mpr hi, rfl⟩)))
  rw [Settings.observe, hneighborhood, ok_bind]
  dsimp only
  rw [eventIds_star h htenant hmem, ok_bind, stateRows_star h htenant hmem, ok_bind,
    embeddingRows_star h htenant hne, ok_bind, eventRows_star h htenant, ok_bind, hrows, ok_bind, buildObservationWindow,
    List.mapM_nil, pure_bind, observationWindow, dif_pos h.window, dif_pos h.bucket, dif_pos, dif_pos]
  · refine ⟨_, rfl, ?_, ?_, ?_⟩
    · simp only [List.map_map, List.append_nil]
    · intro r hr
      obtain ⟨row, hrow, rfl⟩ := List.mem_map.mp hr
      rw [hlabels row hrow]
    · rw [List.map_eq_nil_iff]
      exact hnone
  · intro r hr
    obtain ⟨row, hrow, rfl⟩ := List.mem_map.mp hr
    rw [hlabels row hrow]
    exact ⟨le_refl _, h.window.le⟩
  · intro o ho
    rw [List.append_nil] at ho
    rcases List.mem_append.mp ho with ho | ho
    · obtain ⟨row, hrow, rfl⟩ := List.mem_map.mp ho
      obtain ⟨i, -, rfl⟩ := List.mem_map.mp hrow
      exact ⟨h.window.le, le_refl _⟩
    · obtain ⟨row, hrow, rfl⟩ := List.mem_map.mp ho
      obtain ⟨i, -, rfl⟩ := List.mem_map.mp hrow
      exact ⟨h.window.le, le_refl _⟩

open ObservationWindow in
theorem sliceFeatures_star (h : s.Sound) (htenant : normalizeTenantId s.tenantId = .ok tenant)
    (hentity : parseEntityTarget s.spec.target = some entityId) (hsome : 0 < events ∨ 0 < states) :
    ∃ frame, s.sliceFeatures L (star L entityId tenant s.windowEnd events states) = .ok (.ok frame) ∧
      ∀ column, (Dictionary.get column frame).isSome ↔
        (s.spec.includePresenceLinks = true ∧ 0 < events ∧ relationshipColumn L.upper "APPEARS_IN" = column) ∨
          (∃ i < min s.spec.maxStates.toNat states, featureColumn (marker i) "x" = column) ∨
          (∃ i < min s.spec.maxEvents.toNat events, featureColumn (marker i) "presence" = column) ∨ column = "timestamp" := by
  obtain ⟨w, hw, hobservations, hlabels, hnone⟩ := @observe_star _ L _ _ h htenant entityId events states
  have hevents := h.events
  have hstates := h.states
  have hscalar : ∀ o ∈ w.observations, o.embeddings = [] := by
    intro o ho
    rw [hobservations] at ho
    rcases List.mem_append.mp ho with ho | ho
    · obtain ⟨i, -, rfl⟩ := List.mem_map.mp ho
      rfl
    · obtain ⟨i, -, rfl⟩ := List.mem_map.mp ho
      rfl
  have hslice : s.slice L (star L entityId tenant s.windowEnd events states) = .ok (.ok w) := by
    have hfull : w.observations ≠ [] := by
      rw [hobservations, ne_eq, List.append_eq_nil_iff, List.map_eq_nil_iff, List.map_eq_nil_iff, List.range_eq_nil,
        List.range_eq_nil]
      omega
    rw [Settings.slice, hentity]
    simp only [hw, ok_bind, if_neg hfull]
    rfl
  obtain ⟨prepared, frame, hprepared, hframe, hcolumns⟩ := @get_features _ L _ hscalar
  refine ⟨frame, ?_, fun column => ?_⟩
  · rw [Settings.sliceFeatures, hslice, ok_bind]
    simp only [hprepared, hframe, ok_bind]
    rfl
  · have hrelated : (∃ r ∈ w.relationships, relationshipColumn L.upper r.relationshipType = column) ↔
        s.spec.includePresenceLinks = true ∧ 0 < events ∧ relationshipColumn L.upper "APPEARS_IN" = column := by
      constructor
      · rintro ⟨r, hr, rfl⟩
        have hpresent := mt hnone.mpr (List.ne_nil_of_mem hr)
        rw [not_or, Bool.not_eq_false] at hpresent
        exact ⟨hpresent.1, Nat.pos_of_ne_zero hpresent.2, by rw [hlabels r hr]⟩
      · rintro ⟨hpresence, hpos, rfl⟩
        obtain ⟨r, hr⟩ := List.exists_mem_of_ne_nil w.relationships (by
          rw [ne_eq, hnone, not_or, Bool.not_eq_false]
          exact ⟨hpresence, by omega⟩)
        exact ⟨r, hr, by rw [hlabels r hr]⟩
    have hstate : ∀ i, (stateObservation (stateRow L s tenant entityId i)).scalarValues =
      [("x", L.numerics.count 1)] := fun _ => rfl
    have hevent : ∀ i, (eventObservation L (eventRow α s tenant i)).scalarValues =
      [("presence", L.numerics.count 1)] := fun _ => rfl
    have hobserved : (∃ o ∈ w.observations, ∃ entry ∈ o.scalarValues, featureColumn o.observationType entry.1 = column) ↔
        (∃ i < min s.spec.maxStates.toNat states, featureColumn (marker i) "x" = column) ∨
          ∃ i < min s.spec.maxEvents.toNat events, featureColumn (marker i) "presence" = column := by
      rw [hobservations]
      constructor
      · rintro ⟨o, ho, entry, hentry, rfl⟩
        rcases List.mem_append.mp ho with ho | ho
        · obtain ⟨i, hi, rfl⟩ := List.mem_map.mp ho
          obtain rfl := List.mem_singleton.mp hentry
          exact .inl ⟨i, List.mem_range.mp hi, rfl⟩
        · obtain ⟨i, hi, rfl⟩ := List.mem_map.mp ho
          obtain rfl := List.mem_singleton.mp hentry
          exact .inr ⟨i, List.mem_range.mp hi, rfl⟩
      · rintro (⟨i, hi, rfl⟩ | ⟨i, hi, rfl⟩)
        · exact ⟨_, List.mem_append_left _ (List.mem_map.mpr ⟨i, List.mem_range.mpr hi, rfl⟩), _, List.mem_singleton_self _, rfl⟩
        · exact ⟨_, List.mem_append_right _ (List.mem_map.mpr ⟨i, List.mem_range.mpr hi, rfl⟩), _, List.mem_singleton_self _, rfl⟩
    rw [hcolumns, hrelated, hobserved, or_assoc]

theorem featureFamily_marker (i : Nat) (name : String) : featureFamily (featureColumn (marker i) name) = marker i := by
  rw [featureColumn, ObservationWindow.featureFamily_append, featureFamily, marker, String.toList_ofList,
    List.takeWhile_eq_self_iff.mpr]
  intro c hc
  obtain rfl := List.eq_of_mem_replicate hc
  decide

theorem marker_ne {text : String} (h : text.toList.head? ≠ some 'e') (i : Nat) : marker i ≠ text := by
  rintro rfl
  simp [marker, List.replicate_succ] at h

theorem featureColumn_marker {i j : Nat} {name name' : String} :
    featureColumn (marker i) name = featureColumn (marker j) name' ↔ i = j ∧ name = name' := by
  constructor
  · intro h
    have hfamily := congrArg featureFamily h
    rw [featureFamily_marker, featureFamily_marker] at hfamily
    obtain rfl := marker_injective hfamily
    exact ⟨rfl, by simpa [featureColumn, String.ext_iff] using h⟩
  · rintro ⟨rfl, rfl⟩
    rfl

theorem relationshipColumn_ne_marker (upper : String → String) (relationshipType : String) (i : Nat) (name : String) :
    featureColumn (marker i) name ≠ ObservationWindow.relationshipColumn upper relationshipType := by
  intro h
  have hfamily := congrArg featureFamily h
  have hrelationship : featureFamily (ObservationWindow.relationshipColumn upper relationshipType) = "relationship" :=
    ObservationWindow.featureFamily_append "relationship" (upper relationshipType)
  rw [featureFamily_marker, hrelationship] at hfamily
  exact marker_ne (by decide) i hfamily

theorem timestamp_ne_marker (i : Nat) (name : String) : featureColumn (marker i) name ≠ "timestamp" := by
  intro h
  have hfamily := congrArg featureFamily h
  rw [featureFamily_marker] at hfamily
  exact marker_ne (by decide) i hfamily

end Stars

section Exactness

variable {α : Type} {L : Libraries α} {s s' : Settings}

/-- No slice is read: the target names no entity or the store refuses the
tenant. -/
def Settings.Unread (s : Settings) : Prop := parseEntityTarget s.spec.target = none ∨ ¬ Accepts (normalizeTenantId s.tenantId)

theorem Settings.sliceFeatures_congr (hpayload : s.cachePayload = s'.cachePayload) (hagrees : s.spec.Agrees s'.spec)
    (db : Database α) :
    s.sliceFeatures L db = s'.sliceFeatures L db := by
  rw [sliceFeatures, sliceFeatures, slice_congr hpayload hagrees]

/-- A run over nothing that can be read does not depend on the contents. -/
theorem Settings.Unread.sliceFeatures_eq (h : s.Sound) (hunread : s.Unread) (db : Database α) :
    s.sliceFeatures L db = match parseEntityTarget s.spec.target, normalizeTenantId s.tenantId with
      | some _, .error e => .error e
      | _, _ => .ok (.error "unsupported_target") := by
  rw [sliceFeatures, slice]
  cases htarget : parseEntityTarget s.spec.target with
  | none => rfl
  | some entityId =>
      cases htenant : normalizeTenantId s.tenantId with
      | ok tenant =>
          rcases hunread with hnone | hrefused
          · cases htarget.symm.trans hnone
          · exact absurd ⟨tenant, htenant⟩ hrefused
      | error e =>
          have hbounds : decide (1 ≤ s.spec.kMin ∧ s.spec.kMin ≤ s.spec.kMax ∧ 1 ≤ s.spec.maxVertices) = true :=
            decide_eq_true ⟨h.least, h.greatest, h.vertices⟩
          simp only [observe, getEntityKHopNeighbors, if_neg (relationshipTypes_ne_nil s.spec),
            permitted_relationshipTypes, ok_bind,
            hbounds, ensure_true, htenant]
          rfl

/-- Slices that always have the same features agree on what the key leaves
out. -/
theorem agrees_of_sliceFeatures {tenant entityId : String} (h : s.Sound) (h' : s'.Sound)
    (htenant : normalizeTenantId s.tenantId = .ok tenant) (htenant' : normalizeTenantId s'.tenantId = .ok tenant)
    (hentity : parseEntityTarget s.spec.target = some entityId) (hentity' : parseEntityTarget s'.spec.target = some entityId)
    (hend : s.windowEnd = s'.windowEnd) (hsame : ∀ db : Database α, s.sliceFeatures L db = s'.sliceFeatures L db) :
    s.spec.Agrees s'.spec := by
  have hcolumns : ∀ events states, 0 < events ∨ 0 < states → ∀ column,
      ((s.spec.includePresenceLinks = true ∧ 0 < events ∧ ObservationWindow.relationshipColumn L.upper "APPEARS_IN" = column) ∨
        (∃ i < min s.spec.maxStates.toNat states, featureColumn (marker i) "x" = column) ∨
        (∃ i < min s.spec.maxEvents.toNat events, featureColumn (marker i) "presence" = column) ∨ column = "timestamp") ↔
      (s'.spec.includePresenceLinks = true ∧ 0 < events ∧ ObservationWindow.relationshipColumn L.upper "APPEARS_IN" = column) ∨
        (∃ i < min s'.spec.maxStates.toNat states, featureColumn (marker i) "x" = column) ∨
        (∃ i < min s'.spec.maxEvents.toNat events, featureColumn (marker i) "presence" = column) ∨ column = "timestamp" := by
    intro events states hsome column
    obtain ⟨frame, hframe, hget⟩ := @sliceFeatures_star _ L _ _ _ events states h htenant hentity hsome
    obtain ⟨frame', hframe', hget'⟩ := @sliceFeatures_star _ L _ _ _ events states h' htenant' hentity' hsome
    rw [hsame, hend, hframe'] at hframe
    obtain rfl := Except.ok.inj (Except.ok.inj hframe)
    rw [← hget, ← hget']
  have hrelationship : ObservationWindow.relationshipColumn L.upper "APPEARS_IN" ≠ "timestamp" := by
    intro heq
    have hfamily := congrArg featureFamily heq
    rw [show featureFamily (ObservationWindow.relationshipColumn L.upper "APPEARS_IN") = "relationship" from
      ObservationWindow.featureFamily_append "relationship" (L.upper "APPEARS_IN")] at hfamily
    exact absurd hfamily (by decide)
  refine ⟨?_, ?_, ?_⟩
  · have hpresence := hcolumns 1 0 (.inl Nat.one_pos) (ObservationWindow.relationshipColumn L.upper "APPEARS_IN")
    simpa [relationshipColumn_ne_marker, hrelationship] using hpresence
  · have hevents : ∀ k, k < s.spec.maxEvents.toNat ↔ k < s'.spec.maxEvents.toNat := by
      intro k
      have hk := hcolumns (k + 1) 0 (.inl (Nat.succ_pos k)) (featureColumn (marker k) "presence")
      simpa [(relationshipColumn_ne_marker L.upper "APPEARS_IN" k "presence").symm, timestamp_ne_marker,
        featureColumn_marker] using hk
    have hleft := hevents s.spec.maxEvents.toNat
    have hright := hevents s'.spec.maxEvents.toNat
    have hpos := h.events
    have hpos' := h'.events
    omega
  · have hstates : ∀ k, k < s.spec.maxStates.toNat ↔ k < s'.spec.maxStates.toNat := by
      intro k
      have hk := hcolumns 0 (k + 1) (.inr (Nat.succ_pos k)) (featureColumn (marker k) "x")
      simpa [timestamp_ne_marker, featureColumn_marker] using hk
    have hleft := hstates s.spec.maxStates.toNat
    have hright := hstates s'.spec.maxStates.toNat
    have hpos := h.states
    have hpos' := h'.states
    omega

/-- Slices of one key have the same features over all contents just when they
agree on what the key leaves out, or read nothing. -/
theorem sliceFeatures_iff (h : s.Sound) (h' : s'.Sound) (hpayload : s.cachePayload = s'.cachePayload) :
    (∀ db : Database α, s.sliceFeatures L db = s'.sliceFeatures L db) ↔ s.Unread ∨ s.spec.Agrees s'.spec := by
  have htarget : s.spec.target = s'.spec.target := congrArg CachePayload.target hpayload
  have htenant : s.tenantId = s'.tenantId := congrArg CachePayload.tenantId hpayload
  have hend : s.windowEnd = s'.windowEnd := congrArg CachePayload.windowEnd hpayload
  constructor
  · intro hsame
    by_cases hunread : s.Unread
    · exact .inl hunread
    · obtain ⟨hentity, hreads⟩ := not_or.mp hunread
      obtain ⟨entityId, hentity⟩ := Option.ne_none_iff_exists'.mp hentity
      obtain ⟨tenant, hreads⟩ := Classical.not_not.mp hreads
      exact .inr (agrees_of_sliceFeatures h h' hreads (htenant ▸ hreads) hentity (htarget ▸ hentity) hend hsame)
  · rintro (hunread | hagrees) db
    · have hunread' : s'.Unread := by
        rw [Settings.Unread, ← htarget, ← htenant]
        exact hunread
      rw [hunread.sliceFeatures_eq h, hunread'.sliceFeatures_eq h', htarget, htenant]
    · exact Settings.sliceFeatures_congr hpayload hagrees db

variable {makeCacheKey : CachePayload → String}

theorem Settings.slice_read {db : Database α} {w : ObservationWindow α} (h : s.slice L db = .ok (.ok w)) : ¬ s.Unread := by
  rw [slice] at h
  cases htarget : parseEntityTarget s.spec.target with
  | none => rw [htarget] at h; cases h
  | some entityId =>
      simp only [htarget] at h
      obtain ⟨w', hobserve, -⟩ := bind_eq_ok.mp h
      obtain ⟨out, hneighbors, -⟩ := bind_eq_ok.mp hobserve
      rw [getEntityKHopNeighbors, if_neg (relationshipTypes_ne_nil s.spec)] at hneighbors
      obtain ⟨permitted, -, hneighbors⟩ := bind_eq_ok.mp hneighbors
      obtain ⟨-, -, hneighbors⟩ := bind_eq_ok.mp hneighbors
      obtain ⟨tenant, htenant, -⟩ := bind_eq_ok.mp hneighbors
      rintro (hnone | hrefused)
      · cases htarget.symm.trans hnone
      · exact hrefused ⟨tenant, htenant⟩

/-- A run that succeeds has read a slice. -/
theorem Fills.read {earlier : List (Call × Database α)} {origin : Call × Database α} (h : Fills L makeCacheKey earlier origin)
    (hs : origin.1.settings L = .ok s) : ¬ s.Unread := by
  have hrecorded : ∀ status result runs, (∀ links, result ≠ Except.ok (Outcome.success links)) →
      ∀ links, (recorded s (makeCacheKey s.cachePayload) status result runs).1 ≠ .ok (.success links) := by
    intro status result runs hresult links heq
    unfold recorded at heq
    split at heq
    · cases heq
    · exact hresult links heq
  obtain ⟨links, h⟩ := h
  unfold run at h
  simp only [hs] at h
  split at h
  · cases h
  split at h
  · cases h
  unfold runAfresh at h
  split at h
  · cases h
  · exact absurd h (hrecorded _ _ _ (fun _ heq => by cases heq) _)
  · exact absurd h (hrecorded _ _ _ (fun _ heq => by cases heq) _)
  · next frame links' hinfer =>
    obtain ⟨sliced, hslice, hinfer⟩ := bind_eq_ok.mp hinfer
    cases sliced with
    | error reason => cases hinfer
    | ok w => exact Settings.slice_read hslice

variable (L makeCacheKey)

def DigestsApart (calls : List (Call × Database α)) : Prop :=
  ∀ call ∈ calls, ∀ call' ∈ calls, ∀ s s', call.1.settings L = .ok s → call'.1.settings L = .ok s' →
    makeCacheKey s.cachePayload = makeCacheKey s'.cachePayload → s.cachePayload = s'.cachePayload

/-- Calls that share a key agree on what it leaves out, unless they read
nothing. -/
def KeysAgree (calls : List (Call × Database α)) : Prop :=
  ∀ call ∈ calls, ∀ call' ∈ calls, ∀ s s', call.1.settings L = .ok s → call'.1.settings L = .ok s' →
    makeCacheKey s.cachePayload = makeCacheKey s'.cachePayload → s.Unread ∨ s.spec.Agrees s'.spec

variable {L makeCacheKey}

theorem transparent_of_keysAgree {calls : List (Call × Database α)} (hdigests : DigestsApart L makeCacheKey calls)
    (hkeys : KeysAgree L makeCacheKey calls) : Transparent L makeCacheKey calls := by
  rintro before c db later rfl hhit
  obtain ⟨k, row, hkey, hget, hsuccess⟩ := run_hit hhit
  obtain ⟨earlier, origin, between, hsplit, hfills, horigin⟩ := rows_filled before hget hsuccess
  refine ⟨⟨earlier, origin, between, hsplit, hfills, horigin.trans hkey.symm⟩, ?_⟩
  rintro earlier origin between rfl hfills hsame
  obtain ⟨s, hs, rfl⟩ := map_eq_ok.mp hkey
  rw [hkey] at hsame
  obtain ⟨s₀, hs₀, heq⟩ := map_eq_ok.mp hsame
  have hmem : (c, db) ∈ (earlier ++ origin :: between) ++ (c, db) :: later := by simp
  have hmem₀ : origin ∈ (earlier ++ origin :: between) ++ (c, db) :: later := by simp
  have hdigest := (Prod.mk.inj heq).2
  have hpayload := hdigests origin hmem₀ (c, db) hmem s₀ s hs₀ hs hdigest
  have hagrees := (hkeys origin hmem₀ (c, db) hmem s₀ s hs₀ hs hdigest).resolve_left (hfills.read hs₀)
  rw [Call.infer, Call.infer, hs, hs₀]
  exact (Settings.infer_congr hpayload hagrees origin.2).symm

/-- Answers from the cache are those of a fresh run as long as calls that share
a key agree on presence links and limits, and only then do such calls always
look for links in the same features. -/
theorem cached_runs_transparent (L : Libraries α) (makeCacheKey : CachePayload → String) (calls : List (Call × Database α))
    (hdigests : DigestsApart L makeCacheKey calls) :
    (KeysAgree L makeCacheKey calls → Transparent L makeCacheKey calls) ∧
      ∀ call ∈ calls, ∀ call' ∈ calls, ∀ s s' params params', call.1.settings L = .ok s → call'.1.settings L = .ok s' →
        buildSliceSpecFromStepParams L params = .ok s.spec → buildSliceSpecFromStepParams L params' = .ok s'.spec →
        makeCacheKey s.cachePayload = makeCacheKey s'.cachePayload →
          ((∀ db : Database α, s.sliceFeatures L db = s'.sliceFeatures L db) ↔ s.Unread ∨ s.spec.Agrees s'.spec) := by
  refine ⟨transparent_of_keysAgree hdigests, ?_⟩
  intro call hcall call' hcall' s s' params params' hs hs' hbuilt hbuilt' hkey
  exact sliceFeatures_iff (settings_sound hs hbuilt) (settings_sound hs' hbuilt')
    (hdigests call hcall call' hcall' s s' hs hs' hkey)

end Exactness

/-- Runs over integers that are too short to find a link. -/
def brief : Libraries Int where
  numerics := integers
  lower := id
  upper := id
  title := id
  parseInt text := [("1", 1), ("2", 2)].lookup text
  listing := String.intercalate ", "
  discover _ _ _ := .ok []

def entityParams (presence : Bool) : StepParams :=
  ⟨none, none, none, none, some "entity:alice", none, none, none, some presence⟩

def entitySpec (presence : Bool) : CausalSliceSpec :=
  ⟨"entity:alice", 7 * 86400 * second, "1h", 20000, 20000, 1, 2, 500, presence⟩

def outcomeCall (presence : Bool) : Call :=
  ⟨⟨"acme", some (entitySpec presence), some "e.presence", none, "acme", by decide⟩, none, none, none, 3600 * second⟩

def outcomeSettings (presence : Bool) : Settings :=
  ⟨"acme", entitySpec presence, "e.presence", none, 3600 * second, 3600 * second - 7 * 86400 * second, 3600 * second⟩

theorem entitySpec_built (presence : Bool) :
    buildSliceSpecFromStepParams brief (entityParams presence) = .ok (entitySpec presence) := by
  cases presence
  · rfl
  · rfl

theorem outcomeCall_settings (presence : Bool) : (outcomeCall presence).settings brief = .ok (outcomeSettings presence) := by
  cases presence
  · rfl
  · rfl

theorem outcomeSettings_sound (presence : Bool) : (outcomeSettings presence).Sound :=
  settings_sound (outcomeCall_settings presence) (entitySpec_built presence)

theorem Settings.infer_of_sliceFeatures {α : Type} {L : Libraries α} {s : Settings} {db : Database α}
    {frame : List (String × Column α)}
    (h : s.sliceFeatures L db = .ok (.ok frame)) (htarget : s.targetOutcome ∈ frame.map Prod.fst)
    (hdiscover : L.discover frame s.targetOutcome s.analysisWindow = .ok []) : s.infer L db = .ok (.analyzed frame []) := by
  obtain ⟨sliced, hslice, h⟩ := bind_eq_ok.mp h
  cases sliced with
  | error reason => cases pure_eq_ok.mp h
  | ok w =>
      obtain ⟨prepared, hprepared, h⟩ := bind_eq_ok.mp h
      obtain ⟨frame', hframe, h⟩ := bind_eq_ok.mp h
      obtain rfl := Except.ok.inj (pure_eq_ok.mp h)
      have hanalyzed : analyzeObservationWindow L w s.targetOutcome s.analysisWindow = .ok (frame', []) := by
        rw [analyzeObservationWindow, hprepared, ok_bind, hframe, ok_bind, resolveTarget]
        simp only [if_pos htarget, ok_bind, hdiscover]
        rfl
      rw [infer, hslice, ok_bind]
      simp only [hanalyzed]
      rfl

theorem acme_normalized : normalizeTenantId "acme" = .ok "acme" := by decide

theorem alice_target : parseEntityTarget "entity:alice" = some "alice" := by decide

def appearance : Database Int := star brief "alice" "acme" (3600 * second) 1 0

theorem outcomeSettings_infer (presence : Bool) :
    ∃ frame, (outcomeSettings presence).infer brief appearance = .ok (.analyzed frame []) ∧
      ((Dictionary.get "relationship.APPEARS_IN" frame).isSome ↔ presence = true) := by
  obtain ⟨frame, hframe, hcolumns⟩ := @sliceFeatures_star _ brief (outcomeSettings presence) "acme" "alice" 1 0
    (outcomeSettings_sound presence) acme_normalized alice_target (.inl Nat.one_pos)
  have htarget : "e.presence" ∈ frame.map Prod.fst := by
    rw [← Lib.Grouping.get_isSome_iff, hcolumns]
    exact .inr (.inr (.inl ⟨0, by simp [outcomeSettings, entitySpec], rfl⟩))
  refine ⟨frame, Settings.infer_of_sliceFeatures hframe htarget rfl, ?_⟩
  have hmarker : ∀ i name, featureColumn (marker i) name ≠ "relationship.APPEARS_IN" :=
    relationshipColumn_ne_marker id "APPEARS_IN"
  rw [hcolumns]
  simp [hmarker, outcomeSettings, entitySpec, brief, ObservationWindow.relationshipColumn]

/-- The first successful run under a key is recorded. -/
theorem run_success {α : Type} {L : Libraries α} {makeCacheKey : CachePayload → String} {c : Call} {s : Settings} {db : Database α}
    {frame : List (String × Column α)} {links : List CausalLink} (hs : c.settings L = .ok s)
    (htenant : normalizeTenantId s.tenantId = .ok s.tenantId) (hinfer : s.infer L db = .ok (.analyzed frame links)) :
    run L makeCacheKey c db [] = (.ok (.success links),
      [((s.tenantId, makeCacheKey s.cachePayload), ⟨s.spec.target, s.windowStart, s.windowEnd, .success⟩)]) := by
  have hcached : cacheGet [] s.tenantId (makeCacheKey s.cachePayload) = .ok none := by
    rw [cacheGet, htenant, ok_bind, if_pos rfl]
    rfl
  have hput : cachePut s (makeCacheKey s.cachePayload) .success [] =
      .ok [((s.tenantId, makeCacheKey s.cachePayload), ⟨s.spec.target, s.windowStart, s.windowEnd, .success⟩)] := by
    rw [cachePut, htenant, ok_bind, decide_eq_true rfl, ensure_true, ok_bind]
    rfl
  unfold run
  rw [hs]
  simp only [hcached, Option.map_none, reduceCtorEq, if_false]
  unfold runAfresh
  rw [hinfer]
  unfold recorded
  rw [hput]

theorem run_cached {α : Type} {L : Libraries α} {makeCacheKey : CachePayload → String} {c : Call} {s : Settings} {db : Database α}
    {row : CausalRun} {runs : CausalRuns} (hs : c.settings L = .ok s) (htenant : normalizeTenantId s.tenantId = .ok s.tenantId)
    (hget : Dictionary.get (s.tenantId, makeCacheKey s.cachePayload) runs = some row) (hstatus : row.status = .success) :
    run L makeCacheKey c db runs = (.ok .cacheHit, runs) := by
  have hcached : cacheGet runs s.tenantId (makeCacheKey s.cachePayload) = .ok (some row) := by
    rw [cacheGet, htenant, ok_bind, if_pos rfl, hget]
    rfl
  rw [run, hs]
  simp only [hcached, Option.map_some, hstatus, if_true]

theorem cached_run_repeats :
    Transparent brief (fun payload => payload.target) [(outcomeCall true, appearance), (outcomeCall true, appearance)] := by
  have hsettings : ∀ call ∈ [(outcomeCall true, appearance), (outcomeCall true, appearance)], ∀ s, call.1.settings brief = .ok s →
      s = outcomeSettings true := by
    intro call hcall s hs
    have hcall' : call = (outcomeCall true, appearance) := by simpa using hcall
    rw [hcall', outcomeCall_settings] at hs
    exact (Except.ok.inj hs).symm
  refine (cached_runs_transparent brief _ _ ?_).1 ?_
  · intro call hcall call' hcall' s s' hs hs' _
    rw [hsettings call hcall s hs, hsettings call' hcall' s' hs']
  · intro call hcall call' hcall' s s' hs hs' _
    rw [hsettings call hcall s hs, hsettings call' hcall' s' hs']
    exact .inr ⟨rfl, rfl, rfl⟩

/-- A run without presence links is answered by one with them. -/
theorem cached_run_differs :
    let key := fun payload : CachePayload => payload.target
    ¬ Transparent brief key [(outcomeCall true, appearance), (outcomeCall false, appearance)] ∧
      buildSliceSpecFromStepParams brief (entityParams true) = .ok (entitySpec true) ∧
      buildSliceSpecFromStepParams brief (entityParams false) = .ok (entitySpec false) := by
  intro key
  refine ⟨fun htransparent => ?_, entitySpec_built true, entitySpec_built false⟩
  obtain ⟨frame, hinfer, hcolumn⟩ := outcomeSettings_infer true
  obtain ⟨frame', hinfer', hcolumn'⟩ := outcomeSettings_infer false
  have hfirst := @run_success _ brief key _ _ appearance frame [] (outcomeCall_settings true) acme_normalized hinfer
  have hfills : Fills brief key [] (outcomeCall true, appearance) := ⟨[], congrArg Prod.fst hfirst⟩
  have hhit : (run brief key (outcomeCall false) appearance (after brief key [(outcomeCall true, appearance)])).1 =
    .ok .cacheHit := by
    have hafter : after brief key [(outcomeCall true, appearance)] = (run brief key (outcomeCall true) appearance []).2 := rfl
    have hget : Dictionary.get ((outcomeSettings false).tenantId, key (outcomeSettings false).cachePayload)
        (run brief key (outcomeCall true) appearance []).2 =
          some ⟨"entity:alice", 3600 * second - 7 * 86400 * second, 3600 * second, .success⟩ := by
      rw [hfirst]
      exact Dictionary.get_assign_self _ _ []
    rw [hafter, run_cached (outcomeCall_settings false) acme_normalized hget rfl]
  have hkey : (outcomeCall true).key brief key = (outcomeCall false).key brief key := by
    rw [Call.key, Call.key, outcomeCall_settings, outcomeCall_settings]
    rfl
  have hsame := (htransparent [(outcomeCall true, appearance)] (outcomeCall false) appearance [] rfl hhit).2 [] _ [] rfl hfills hkey
  rw [Call.infer, Call.infer, outcomeCall_settings, outcomeCall_settings, ok_bind, ok_bind, hinfer, hinfer'] at hsame
  cases hsame
  exact absurd (hcolumn'.mp (hcolumn.mpr rfl)) (by decide)

end Galadril.Vision
