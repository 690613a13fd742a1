import Galadril.Execution.Handling
import Galadril.Lib.Text
import Galadril.Registry.Identity

namespace Galadril.Execution

open Json Lib.Checked Lib.Text Registry.Identity

/-- Identifiers as texts: how a text is read as one, how one is derived from
another and a name, and the namespace of the names without a parent. -/
structure Identifiers where
  parse : String → Option String
  uuid5 : String → String → String
  namespaceUrl : String

def stripped (value : String) : String := String.ofList (trimBy isWhitespace value.toList)

def eventText (value : String) : Except String String := do
  ensure (1 ≤ (stripped value).length && (stripped value).length ≤ 255) "ValidationError"
  return stripped value

def optionalText : Option String → Except String (Option String)
  | none => .ok none
  | some value => do
      let text ← eventText value
      return some text

def PipelineCommand.validated (c : PipelineCommand) : Except String PipelineCommand := do
  let tenantId ← eventText c.tenantId
  let entityId ← optionalText c.entityId
  let pipeline ← eventText c.pipeline
  let step ← eventText c.step
  return { c with
    tenantId := tenantId
    entityId := entityId
    pipeline := pipeline
    step := step }

structure ObservationLineage where
  ingestionId : String
  traceId : Option String
  spanId : Option String
  correlationId : String
  idempotencyKey : String

structure CanonicalRecord where
  recordId : String
  tenantId : String
  inputType : String
  concurrentGroupId : Option String
  lineage : Option ObservationLineage
  document : Value

def CanonicalRecord.sourceCorrelationId (ids : Identifiers) (record : CanonicalRecord) : Option String :=
  record.lineage.bind fun lineage => ids.parse lineage.correlationId

def recordCorrelationId (ids : Identifiers) (record : CanonicalRecord) (sourceId : String) : String :=
  match record.sourceCorrelationId ids with
  | some source => ids.uuid5 source (sourceId ++ ":" ++ record.recordId)
  | none => ids.uuid5 ids.namespaceUrl (record.tenantId ++ ":" ++ sourceId ++ ":" ++ record.recordId)

def optionalString (value : Option String) : Value := value.elim .null .string

def ObservationLineage.attributes (lineage : ObservationLineage) : Members :=
  [("ingestion_id", .string lineage.ingestionId), ("source_correlation_id", .string lineage.correlationId),
    ("trace_id", optionalString lineage.traceId), ("span_id", optionalString lineage.spanId),
    ("observation_idempotency_key", .string lineage.idempotencyKey)]

def CanonicalRecord.attributes (record : CanonicalRecord) (sourceId topic : String) : Members :=
  [("source_id", .string sourceId), ("source_topic", .string topic), ("input_type", .string record.inputType),
    ("concurrent_group_id", optionalString record.concurrentGroupId)] ++ (record.lineage.map ObservationLineage.attributes).getD []

structure IngressHandler where
  pipeline : String
  routes : RouteTable

variable (ids : Identifiers)

def IngressHandler.command (h : IngressHandler) (sourceId topic : String) (record : CanonicalRecord) (step : String) :
    Except String PipelineCommand := do
  let correlation := recordCorrelationId ids record sourceId
  let route ← h.routes.route step
  PipelineCommand.validated
    { eventId := ids.uuid5 correlation ("pipeline" ++ ":" ++ h.pipeline ++ ":" ++ "step" ++ ":" ++ step)
      correlationId := correlation
      causationId := some correlation
      tenantId := record.tenantId
      entityId := some record.recordId
      pipeline := h.pipeline
      step := route.step
      stepType := route.stepType
      resourceClass := route.resourceClass
      attempt := 0
      payload := [("record", record.document)]
      attributes := record.attributes sourceId topic }

def IngressHandler.commands (h : IngressHandler) (sourceId topic : String) (record : CanonicalRecord) :
    Except String (List PipelineCommand) := do
  let steps ← h.routes.entrySteps sourceId
  steps.mapM (h.command ids sourceId topic record)

structure Occurrence where
  year : Nat
  month : Nat
  day : Nat
  hour : Nat
  minute : Nat
  second : Nat
  microsecond : Nat
  date : 1 ≤ year ∧ year ≤ 9999 ∧ 1 ≤ month ∧ month ≤ 12 ∧ 1 ≤ day ∧ day ≤ 31
  time : hour ≤ 23 ∧ minute ≤ 59 ∧ second ≤ 59 ∧ microsecond ≤ 999999
deriving DecidableEq

def digitChar (n : Nat) : Char := Char.ofNat (48 + n % 10)

def padded : Nat → Nat → List Char
  | 0, _ => []
  | digits + 1, n => padded digits (n / 10) ++ [digitChar n]

def Occurrence.clock (o : Occurrence) : List Char :=
  padded 2 o.hour ++ ':' :: (padded 2 o.minute ++ ':' :: (padded 2 o.second ++
    ((if o.microsecond = 0 then [] else '.' :: padded 6 o.microsecond) ++ "+00:00".toList)))

def Occurrence.isoformat (o : Occurrence) : String :=
  String.ofList (padded 4 o.year ++ '-' :: (padded 2 o.month ++ '-' :: (padded 2 o.day ++ 'T' :: o.clock)))

theorem length_padded (digits n : Nat) : (padded digits n).length = digits := by
  induction digits generalizing n with
  | zero => rfl
  | succ digits ih => rw [padded, List.length_append, ih, List.length_singleton]

theorem digitChar_inj {m n : Nat} (h : digitChar m = digitChar n) : m % 10 = n % 10 := by
  have hall : ∀ a < 10, ∀ b < 10, Char.ofNat (48 + a) = Char.ofNat (48 + b) → a = b := by decide
  exact hall _ (Nat.mod_lt _ (by decide)) _ (Nat.mod_lt _ (by decide)) h

theorem digitChar_ne (n : Nat) : digitChar n ≠ ':' := by
  have hall : ∀ a < 10, Char.ofNat (48 + a) ≠ ':' := by decide
  exact hall _ (Nat.mod_lt _ (by decide))

theorem padded_inj {digits m n : Nat} (h : padded digits m = padded digits n) : m % 10 ^ digits = n % 10 ^ digits := by
  induction digits generalizing m n with
  | zero => simp [Nat.mod_one]
  | succ digits ih =>
      rw [padded, padded] at h
      obtain ⟨hrest, hlast⟩ := List.append_inj h (by rw [length_padded, length_padded])
      have hdigit := digitChar_inj (List.cons.inj hlast).1
      have hdiv := ih hrest
      rw [Nat.pow_succ', Nat.mod_mul, Nat.mod_mul, hdigit, hdiv]

theorem padded_eq {digits m n : Nat} (h : padded digits m = padded digits n) (hm : m < 10 ^ digits)
    (hn : n < 10 ^ digits) : m = n := by
  have hmod := padded_inj h
  rwa [Nat.mod_eq_of_lt hm, Nat.mod_eq_of_lt hn] at hmod

/-- A number in fixed digits before more text. -/
theorem padded_append {digits m n : Nat} {x y : List Char} (h : padded digits m ++ x = padded digits n ++ y) (hm : m < 10 ^ digits)
    (hn : n < 10 ^ digits) : m = n ∧ x = y := by
  obtain ⟨hdigits, hrest⟩ := List.append_inj h (by rw [length_padded, length_padded])
  exact ⟨padded_eq hdigits hm hn, hrest⟩

theorem clock_inj {o o' : Occurrence} (h : o.clock = o'.clock) :
    o.hour = o'.hour ∧ o.minute = o'.minute ∧ o.second = o'.second ∧ o.microsecond = o'.microsecond := by
  have ht := o.time
  have ht' := o'.time
  obtain ⟨hhour, h⟩ := padded_append h (by omega) (by omega)
  obtain ⟨hminute, h⟩ := padded_append (List.cons.inj h).2 (by omega) (by omega)
  obtain ⟨hsecond, h⟩ := padded_append (List.cons.inj h).2 (by omega) (by omega)
  have hfraction := List.append_cancel_right h
  refine ⟨hhour, hminute, hsecond, ?_⟩
  by_cases hz : o.microsecond = 0
  · by_cases hz' : o'.microsecond = 0
    · rw [hz, hz']
    · simp [hz, hz'] at hfraction
  · by_cases hz' : o'.microsecond = 0
    · simp [hz, hz'] at hfraction
    · rw [if_neg hz, if_neg hz'] at hfraction
      exact padded_eq (List.cons.inj hfraction).2 (by omega) (by omega)

theorem isoformat_inj {o o' : Occurrence} (h : o.isoformat.toList = o'.isoformat.toList) : o = o' := by
  have hd := o.date
  have hd' := o'.date
  simp only [Occurrence.isoformat, String.toList_ofList] at h
  obtain ⟨hyear, h⟩ := padded_append h (by omega) (by omega)
  obtain ⟨hmonth, h⟩ := padded_append (List.cons.inj h).2 (by omega) (by omega)
  obtain ⟨hday, h⟩ := padded_append (List.cons.inj h).2 (by omega) (by omega)
  obtain ⟨hhour, hminute, hsecond, hmicrosecond⟩ := clock_inj (List.cons.inj h).2
  cases o
  cases o'
  simp only [Occurrence.mk.injEq]
  exact ⟨hyear, hmonth, hday, hhour, hminute, hsecond, hmicrosecond⟩

theorem length_isoformat (o : Occurrence) : o.isoformat.toList.length = 25 ∨ o.isoformat.toList.length = 32 := by
  by_cases h : o.microsecond = 0 <;> simp [Occurrence.isoformat, Occurrence.clock, length_padded, h]

/-- A shorter spelling does not end a longer one behind a colon. -/
theorem isoformat_shorter {x y : List Char} {o o' : Occurrence} (hshort : o.isoformat.toList.length = 25)
    (hlong : o'.isoformat.toList.length = 32) : x ++ ':' :: o.isoformat.toList ≠ y ++ ':' :: o'.isoformat.toList := by
  intro h
  have hmonth : o'.isoformat.toList = padded 4 o'.year ++ '-' :: (padded 1 (o'.month / 10) ++ [digitChar o'.month]) ++
      '-' :: (padded 2 o'.day ++ 'T' :: o'.clock) := by
    simp [Occurrence.isoformat, padded]
  rw [hmonth] at h hlong
  have hsplit : (x ++ [':']) ++ o.isoformat.toList =
    (y ++ ':' :: (padded 4 o'.year ++ '-' :: padded 1 (o'.month / 10)) ++ [digitChar o'.month]) ++
      '-' :: (padded 2 o'.day ++ 'T' :: o'.clock) := by
    simpa using h
  have hlength : o.isoformat.toList.length = ('-' :: (padded 2 o'.day ++ 'T' :: o'.clock)).length := by
    simp only [List.length_append, List.length_cons, length_padded, List.length_nil] at hlong ⊢
    omega
  obtain ⟨hcolon, -⟩ := List.append_inj' hsplit hlength
  obtain ⟨-, hlast⟩ := List.append_inj' hcolon rfl
  exact digitChar_ne _ (List.cons.inj hlast).1.symm

/-- What stands before the last moment of a text. -/
theorem before_isoformat {x y : List Char} {o o' : Occurrence}
    (h : x ++ ':' :: o.isoformat.toList = y ++ ':' :: o'.isoformat.toList) :
    x = y ∧ o = o' := by
  have hsame : o.isoformat.toList.length = o'.isoformat.toList.length := by
    rcases length_isoformat o with ho | ho <;> rcases length_isoformat o' with ho' | ho'
    · rw [ho, ho']
    · exact absurd h (isoformat_shorter ho ho')
    · exact absurd h.symm (isoformat_shorter ho' ho)
    · rw [ho, ho']
  obtain ⟨hxy, hrest⟩ := List.append_inj' h (by rw [List.length_cons, List.length_cons, hsame])
  exact ⟨hxy, isoformat_inj (List.cons.inj hrest).2⟩

inductive Trigger
  | manual
  | cron
  | onDemand
deriving DecidableEq

/-- What the timer reads of a step: its trigger, its cron expression and its
other parameters. -/
structure ConfiguredStep where
  step : String
  trigger : Trigger
  cron : Option String
  extra : Members

structure CronSchedule where
  step : String
  expression : String
  targets : List (Option String)

def configuredTargets (extra : Members) : List (Option String) :=
  match extra.field "targets" with
  | some (.array targets) => (targets.filterMap Value.asStr).filterMap fun target => if target = "" then none
      else some (some target)
  | _ => []

def scheduleOf (s : ConfiguredStep) : Except String CronSchedule := do
  let cron ← context s.cron ("Scheduled step '" ++ s.step ++ "' is missing cron")
  let targets := configuredTargets s.extra
  return ⟨s.step, cron, if targets.isEmpty then [none] else targets⟩

structure ScheduledCommandFactory where
  tenant : Option String
  pipeline : String
  routes : RouteTable
  schedules : List CronSchedule

def ScheduledCommandFactory.new (name : String) (steps : List ConfiguredStep) (routes : RouteTable) (tenant : Option String) :
    Except String ScheduledCommandFactory := do
  let schedules ← (steps.filter fun s => s.trigger = .cron).mapM scheduleOf
  return ⟨tenant, name, routes, schedules⟩

def ScheduledCommandFactory.command (f : ScheduledCommandFactory) (tenantId step : String) (route : StepRoute) (o : Occurrence)
    (target : Option String) : Except String PipelineCommand :=
  let name := f.pipeline ++ ":" ++ step ++ ":" ++ ((target.filter (· ≠ "")).getD "-") ++ ":" ++ o.isoformat
  let correlation := ids.uuid5 ids.namespaceUrl name
  PipelineCommand.validated
    { eventId := ids.uuid5 correlation ("step:" ++ step)
      correlationId := correlation
      causationId := some correlation
      tenantId := tenantId
      entityId := target
      pipeline := f.pipeline
      step := route.step
      stepType := route.stepType
      resourceClass := route.resourceClass
      attempt := 0
      payload := ("scheduled_for", .string o.isoformat) :: (target.map fun target => ("target", .string target)).toList
      attributes := [] }

def ScheduledCommandFactory.commandsFor (f : ScheduledCommandFactory) (schedule : CronSchedule) (scheduledFor : Option Occurrence) :
    Except String (List PipelineCommand) := do
  let o ← context scheduledFor "scheduled_for must include a timezone"
  let tenantId ← context f.tenant "scheduled pipelines require a tenant identity"
  let route ← f.routes.route schedule.step
  schedule.targets.mapM (f.command ids tenantId schedule.step route o)

theorem targets_nonempty {name : String} {steps : List ConfiguredStep} {routes : RouteTable} {tenant : Option String}
    {f : ScheduledCommandFactory} (h : ScheduledCommandFactory.new name steps routes tenant = .ok f) {schedule : CronSchedule}
    (hs : schedule ∈ f.schedules) {target : Option String} (ht : target ∈ schedule.targets) : target ≠ some "" := by
  simp only [ScheduledCommandFactory.new, bind_eq_ok, pure_eq_ok] at h
  obtain ⟨schedules, hmap, rfl⟩ := h
  obtain ⟨s, -, hschedule⟩ := mapM_eq_ok_mem hmap hs
  simp only [scheduleOf, bind_eq_ok, context_eq_ok, pure_eq_ok] at hschedule
  obtain ⟨cron, -, rfl⟩ := hschedule
  rintro rfl
  simp only at ht
  split at ht
  · simp at ht
  · simp only [configuredTargets] at ht
    split at ht
    · simp [List.mem_filterMap] at ht
    · cases ht

end Galadril.Execution
