import Galadril.Execution.Schedules
import Galadril.Lib.Dictionary
import Galadril.Lib.Mapping

namespace Galadril.Execution

open Json Lib Lib.Checked

deriving instance DecidableEq for CronSchedule

def Occurrence.stamp (o : Occurrence) : Nat :=
  (((((o.year * 13 + o.month) * 32 + o.day) * 24 + o.hour) * 60 + o.minute) * 60 + o.second) * 1000000 + o.microsecond

theorem positional_inj {m a b x y : Nat} (hx : x < m) (hy : y < m) (h : a * m + x = b * m + y) : a = b ∧ x = y := by
  have hdiv := congrArg (· / m) h
  have hmod := congrArg (· % m) h
  simp only [Nat.mul_comm _ m, Nat.mul_add_div (Nat.zero_lt_of_lt hx), Nat.div_eq_of_lt hx, Nat.div_eq_of_lt hy,
    Nat.mul_add_mod, Nat.mod_eq_of_lt hx, Nat.mod_eq_of_lt hy, Nat.add_zero] at hdiv hmod
  exact ⟨hdiv, hmod⟩

theorem stamp_inj {o o' : Occurrence} (h : o.stamp = o'.stamp) : o = o' := by
  have hd := o.date
  have hd' := o'.date
  have ht := o.time
  have ht' := o'.time
  unfold Occurrence.stamp at h
  obtain ⟨h, hmicrosecond⟩ := positional_inj (by omega) (by omega) h
  obtain ⟨h, hsecond⟩ := positional_inj (by omega) (by omega) h
  obtain ⟨h, hminute⟩ := positional_inj (by omega) (by omega) h
  obtain ⟨h, hhour⟩ := positional_inj (by omega) (by omega) h
  obtain ⟨h, hday⟩ := positional_inj (by omega) (by omega) h
  obtain ⟨hyear, hmonth⟩ := positional_inj (by omega) (by omega) h
  cases o
  cases o'
  simp only [Occurrence.mk.injEq]
  exact ⟨hyear, hmonth, hday, hhour, hminute, hsecond, hmicrosecond⟩

structure LineageEvent where
  eventId : String
  correlationId : String
  causationId : Option String
  tenantId : String
  entityId : Option String
  pipeline : String
  commandId : String
  step : String
  stepType : StepType
  resourceClass : ResourceClass
  status : EventStatus
  attempt : Nat
  deriving DecidableEq

variable (ids : Identifiers)

def acceptedLineage (command : PipelineCommand) : LineageEvent where
  eventId := ids.uuid5 command.eventId "lineage:accepted:0"
  correlationId := command.correlationId
  causationId := some command.eventId
  tenantId := "default"
  entityId := command.entityId
  pipeline := command.pipeline
  commandId := command.eventId
  step := command.step
  stepType := command.stepType
  resourceClass := command.resourceClass
  status := .accepted
  attempt := 0

structure Publication where
  schedule : CronSchedule
  scheduledFor : Occurrence
  command : PipelineCommand
  lineage : LineageEvent

def ScheduledCommandFactory.publish (f : ScheduledCommandFactory) (schedule : CronSchedule) (scheduledFor : Occurrence) :
    Except String (List Publication) := do
  let commands ← f.commandsFor ids schedule (some scheduledFor)
  return commands.map fun command => ⟨schedule, scheduledFor, command, acceptedLineage ids command⟩

/-- When an expression occurs, and the occurrence that is returned for a
reference time, if it has one. -/
structure Croniter where
  occurs : String → Occurrence → Prop
  getNext : String → Occurrence → Option Occurrence

/-- The first occurrence strictly after the reference time is returned. -/
structure Croniter.Lawful (croniter : Croniter) : Prop where
  next : ∀ expression after due, croniter.getNext expression after = some due →
    croniter.occurs expression due ∧ after.stamp < due.stamp ∧
      ∀ o, croniter.occurs expression o → after.stamp < o.stamp → due.stamp ≤ o.stamp

variable (croniter : Croniter)

def nextRun (expression : String) (after : Occurrence) : Except String Occurrence :=
  context (croniter.getNext expression after) "CroniterBadDateError"

structure CronCommandPublisher where
  factory : ScheduledCommandFactory
  nextRuns : List (CronSchedule × Occurrence)
  published : List Publication

def readings (schedules : List CronSchedule) (clock : Nat → Occurrence) : List (CronSchedule × Occurrence) :=
  schedules.zipIdx.map fun entry => (entry.1, clock entry.2)

def startedAt (schedules : List CronSchedule) (clock : Nat → Occurrence) : List (CronSchedule × Occurrence) :=
  (readings schedules clock).foldl (fun starts entry => Dictionary.assign entry.1 entry.2 starts) []

def planned (runs : List (CronSchedule × Occurrence)) (reading : CronSchedule × Occurrence) :
    Except String (List (CronSchedule × Occurrence)) := do
  let due ← nextRun croniter reading.1.expression reading.2
  return Dictionary.assign reading.1 due runs

def CronCommandPublisher.start (f : ScheduledCommandFactory) (clock : Nat → Occurrence) : Except String CronCommandPublisher := do
  let nextRuns ← (readings f.schedules clock).foldlM (planned croniter) []
  return ⟨f, nextRuns, []⟩

def CronCommandPublisher.publishDue (now : Occurrence) (p : CronCommandPublisher) (schedule : CronSchedule) :
    Except String CronCommandPublisher := do
  let scheduledFor ← context (Dictionary.get schedule p.nextRuns) "KeyError"
  let issued ← p.factory.publish ids schedule scheduledFor
  let next ← nextRun croniter schedule.expression now
  return { p with nextRuns := Dictionary.assign schedule next p.nextRuns, published := p.published ++ issued }

def CronCommandPublisher.due (p : CronCommandPublisher) (now : Occurrence) : List CronSchedule :=
  (p.nextRuns.filter fun entry => entry.2.stamp ≤ now.stamp).map Prod.fst

def CronCommandPublisher.wake (p : CronCommandPublisher) (now : Occurrence) : Except String CronCommandPublisher :=
  (p.due now).foldlM (fun p schedule => p.publishDue ids croniter now schedule) p

def CronCommandPublisher.run (p : CronCommandPublisher) (wakes : List Occurrence) : Except String CronCommandPublisher :=
  wakes.foldlM (fun p now => p.wake ids croniter now) p

def CronCommandPublisher.issued (p : CronCommandPublisher) (schedule : CronSchedule) (o : Occurrence) : List Publication :=
  p.published.filter fun publication => publication.schedule = schedule ∧ publication.scheduledFor = o

section Entries

variable {ids : Identifiers} {croniter : Croniter} {now : Occurrence} {p p' : CronCommandPublisher} {schedule : CronSchedule}

theorem publish_eq_ok {f : ScheduledCommandFactory} {o : Occurrence} {issued : List Publication}
    (h : f.publish ids schedule o = .ok issued) :
    f.commandsFor ids schedule (some o) = .ok (issued.map (·.command)) ∧
      ∀ publication ∈ issued, publication.schedule = schedule ∧ publication.scheduledFor = o ∧
        publication.lineage = acceptedLineage ids publication.command := by
  simp only [ScheduledCommandFactory.publish, bind_eq_ok, pure_eq_ok] at h
  obtain ⟨commands, hcommands, rfl⟩ := h
  constructor
  · rw [List.map_map, hcommands]
    exact congrArg _ (List.map_id commands).symm
  · intro publication hmem
    obtain ⟨command, -, rfl⟩ := List.mem_map.mp hmem
    exact ⟨rfl, rfl, rfl⟩

theorem publishDue_eq_ok (h : p.publishDue ids croniter now schedule = .ok p') :
    ∃ due next issued, Dictionary.get schedule p.nextRuns = some due ∧ p.factory.publish ids schedule due = .ok issued ∧
      croniter.getNext schedule.expression now = some next ∧
      p' = { p with nextRuns := Dictionary.assign schedule next p.nextRuns, published := p.published ++ issued } := by
  simp only [CronCommandPublisher.publishDue, nextRun, bind_eq_ok, context_eq_ok, pure_eq_ok] at h
  obtain ⟨due, hdue, issued, hissued, next, hnext, rfl⟩ := h
  exact ⟨due, next, issued, hdue, hissued, hnext, rfl⟩

theorem publishDue_factory (h : p.publishDue ids croniter now schedule = .ok p') : p'.factory = p.factory := by
  obtain ⟨due, next, issued, -, -, -, rfl⟩ := publishDue_eq_ok h
  rfl

theorem publishDue_other {other : CronSchedule} (h : p.publishDue ids croniter now schedule = .ok p') (hne : other ≠ schedule) :
    Dictionary.get other p'.nextRuns = Dictionary.get other p.nextRuns ∧ ∀ o, p'.issued other o = p.issued other o := by
  obtain ⟨due, next, issued, -, hissued, -, rfl⟩ := publishDue_eq_ok h
  refine ⟨Dictionary.get_assign_ne hne next p.nextRuns, fun o => ?_⟩
  have hnone : issued.filter (fun publication => publication.schedule = other ∧ publication.scheduledFor = o) = [] := by
    apply List.filter_eq_nil_iff.mpr
    intro publication hmem
    have hschedule := ((publish_eq_ok hissued).2 publication hmem).1
    simp [hschedule, hne.symm]
  rw [CronCommandPublisher.issued, List.filter_append, hnone, List.append_nil]
  rfl

theorem publishDue_nodup (h : p.publishDue ids croniter now schedule = .ok p') (hnodup : (p.nextRuns.map Prod.fst).Nodup) :
    (p'.nextRuns.map Prod.fst).Nodup := by
  obtain ⟨due, next, issued, -, -, -, rfl⟩ := publishDue_eq_ok h
  exact Dictionary.nodup_assign schedule next hnodup

theorem foldlM_other {schedules : List CronSchedule} {other : CronSchedule} (hnot : other ∉ schedules)
    (h : schedules.foldlM (fun p schedule => p.publishDue ids croniter now schedule) p = .ok p') :
    Dictionary.get other p'.nextRuns = Dictionary.get other p.nextRuns ∧ ∀ o, p'.issued other o = p.issued other o := by
  induction schedules generalizing p with
  | nil =>
      obtain rfl := pure_eq_ok.mp h
      exact ⟨rfl, fun _ => rfl⟩
  | cons schedule schedules ih =>
      rw [List.mem_cons, not_or] at hnot
      rw [List.foldlM_cons, bind_eq_ok] at h
      obtain ⟨q, hq, hrest⟩ := h
      obtain ⟨hget, hissued⟩ := publishDue_other hq hnot.1
      obtain ⟨hget', hissued'⟩ := ih hnot.2 hrest
      exact ⟨hget'.trans hget, fun o => (hissued' o).trans (hissued o)⟩

theorem foldlM_frame {schedules : List CronSchedule}
    (h : schedules.foldlM (fun p schedule => p.publishDue ids croniter now schedule) p = .ok p')
    (hnodup : (p.nextRuns.map Prod.fst).Nodup) :
    p'.factory = p.factory ∧ (p'.nextRuns.map Prod.fst).Nodup := by
  induction schedules generalizing p with
  | nil =>
      obtain rfl := pure_eq_ok.mp h
      exact ⟨rfl, hnodup⟩
  | cons schedule schedules ih =>
      rw [List.foldlM_cons, bind_eq_ok] at h
      obtain ⟨q, hq, hrest⟩ := h
      obtain ⟨hfactory, hkeys⟩ := ih hrest (publishDue_nodup hq hnodup)
      exact ⟨hfactory.trans (publishDue_factory hq), hkeys⟩

end Entries

section Coverage

variable (ids : Identifiers) (croniter : Croniter)

structure Covered (p : CronCommandPublisher) (schedule : CronSchedule) (start bound : Occurrence) : Prop where
  before : ∀ o, croniter.occurs schedule.expression o → start.stamp < o.stamp → o.stamp < bound.stamp →
    p.factory.publish ids schedule o = .ok (p.issued schedule o)
  after : ∀ o, bound.stamp ≤ o.stamp → p.issued schedule o = []

def Scheduled (p : CronCommandPublisher) (schedule : CronSchedule) (start : Occurrence) : Prop :=
  ∃ due, Dictionary.get schedule p.nextRuns = some due ∧ croniter.occurs schedule.expression due ∧ start.stamp < due.stamp ∧
    Covered ids croniter p schedule start due

/-- At most one occurrence of each schedule has come since the last time it was
looked at, and what is due is of the tenant that lineage events name. -/
def Met (p : CronCommandPublisher) (now : Occurrence) : Prop :=
  ∀ schedule due, Dictionary.get schedule p.nextRuns = some due → due.stamp ≤ now.stamp →
    (∀ o, croniter.occurs schedule.expression o → due.stamp < o.stamp → now.stamp < o.stamp) ∧
      ∀ tenant, p.factory.tenant = some tenant → eventText tenant = .ok "default"

variable {ids croniter} {now : Occurrence} {p p' : CronCommandPublisher} {schedule : CronSchedule} {start : Occurrence}

theorem Covered.congr {due : Occurrence} (h : Covered ids croniter p schedule start due) (hfactory : p'.factory = p.factory)
    (hissued : ∀ o, p'.issued schedule o = p.issued schedule o) : Covered ids croniter p' schedule start due :=
  ⟨fun o hoccurs hstart hdue => by rw [hfactory, hissued]; exact h.before o hoccurs hstart hdue,
    fun o hdue => (hissued o).trans (h.after o hdue)⟩

theorem Scheduled.congr (h : Scheduled ids croniter p schedule start) (hfactory : p'.factory = p.factory)
    (hget : Dictionary.get schedule p'.nextRuns = Dictionary.get schedule p.nextRuns)
    (hissued : ∀ o, p'.issued schedule o = p.issued schedule o) : Scheduled ids croniter p' schedule start := by
  obtain ⟨due, hdue, hoccurs, hstart, hcovered⟩ := h
  exact ⟨due, hget.trans hdue, hoccurs, hstart, hcovered.congr hfactory hissued⟩

theorem filter_publish {f : ScheduledCommandFactory} {o o' : Occurrence} {issued : List Publication}
    (h : f.publish ids schedule o = .ok issued) :
    issued.filter (fun publication => publication.schedule = schedule ∧ publication.scheduledFor = o') =
      if o' = o then issued else [] := by
  have hfields := (publish_eq_ok h).2
  split
  next he =>
    apply List.filter_eq_self.mpr
    intro publication hmem
    obtain ⟨hschedule, hfor, -⟩ := hfields publication hmem
    simp [hschedule, hfor, he]
  next he =>
    apply List.filter_eq_nil_iff.mpr
    intro publication hmem
    obtain ⟨hschedule, hfor, -⟩ := hfields publication hmem
    simp [hfor, Ne.symm he]

/-- A timely publication carries a schedule past the wake-up. -/
theorem publishDue_covers (hlawful : croniter.Lawful) (hs : Scheduled ids croniter p schedule start)
    (hdue : ∀ due, Dictionary.get schedule p.nextRuns = some due → due.stamp ≤ now.stamp ∧
      ∀ o, croniter.occurs schedule.expression o → due.stamp < o.stamp → now.stamp < o.stamp)
    (h : p.publishDue ids croniter now schedule = .ok p') :
    Scheduled ids croniter p' schedule start ∧
      ∃ next, Dictionary.get schedule p'.nextRuns = some next ∧ now.stamp < next.stamp := by
  obtain ⟨due, next, issued, hget, hpublish, hnext, rfl⟩ := publishDue_eq_ok h
  obtain ⟨_, hget', hoccurs, hstart, hcovered⟩ := hs
  obtain rfl := Option.some.inj (hget.symm.trans hget')
  obtain ⟨hlate, htimely⟩ := hdue due hget
  obtain ⟨hnextOccurs, hnow, hfirst⟩ := hlawful.next _ _ _ hnext
  have hissued (o : Occurrence) : CronCommandPublisher.issued
      { p with nextRuns := Dictionary.assign schedule next p.nextRuns, published := p.published ++ issued } schedule o =
      p.issued schedule o ++ if o = due then issued else [] := by
    rw [CronCommandPublisher.issued, List.filter_append, filter_publish hpublish]
    rfl
  refine ⟨⟨next, Dictionary.get_assign_self schedule next p.nextRuns, hnextOccurs, by omega, ?_, ?_⟩,
    next, Dictionary.get_assign_self schedule next p.nextRuns, hnow⟩
  · intro o ho hafter hbefore
    rw [hissued]
    rcases lt_trichotomy o.stamp due.stamp with hlt | heq | hgt
    · have hne : o ≠ due := fun he => absurd (congrArg Occurrence.stamp he) (by omega)
      rw [if_neg hne, List.append_nil]
      exact hcovered.before o ho hafter hlt
    · obtain rfl := stamp_inj heq
      rw [if_pos rfl, hcovered.after o le_rfl, List.nil_append]
      exact hpublish
    · have hlater := htimely o ho hgt
      have hle := hfirst o ho hlater
      omega
  · intro o hle
    have hne : o ≠ due := fun he => absurd (congrArg Occurrence.stamp he) (by omega)
    rw [hissued, if_neg hne, List.append_nil]
    exact hcovered.after o (by omega)

/-- Each due schedule is carried past the wake-up. -/
theorem foldlM_covers (hlawful : croniter.Lawful) {schedules : List CronSchedule} (hnodup : schedules.Nodup)
    (hmem : schedule ∈ schedules) (hs : Scheduled ids croniter p schedule start)
    (hdue : ∀ due, Dictionary.get schedule p.nextRuns = some due → due.stamp ≤ now.stamp ∧
      ∀ o, croniter.occurs schedule.expression o → due.stamp < o.stamp → now.stamp < o.stamp)
    (h : schedules.foldlM (fun p schedule => p.publishDue ids croniter now schedule) p = .ok p')
    (hkeys : (p.nextRuns.map Prod.fst).Nodup) :
    Scheduled ids croniter p' schedule start ∧
      ∃ next, Dictionary.get schedule p'.nextRuns = some next ∧ now.stamp < next.stamp := by
  induction schedules generalizing p with
  | nil => cases hmem
  | cons first schedules ih =>
      obtain ⟨hfirst, hnodup⟩ := List.nodup_cons.mp hnodup
      rw [List.foldlM_cons, bind_eq_ok] at h
      obtain ⟨q, hq, hrest⟩ := h
      have hqkeys := publishDue_nodup hq hkeys
      by_cases he : schedule = first
      · subst he
        obtain ⟨hscheduled, next, hnext, hnow⟩ := publishDue_covers hlawful hs hdue hq
        obtain ⟨hget, hissued⟩ := foldlM_other hfirst hrest
        exact ⟨hscheduled.congr (foldlM_frame hrest hqkeys).1 hget hissued, next, hget.trans hnext, hnow⟩
      · obtain ⟨hget, hissued⟩ := publishDue_other hq he
        have hin : schedule ∈ schedules := (List.mem_cons.mp hmem).resolve_left he
        exact ih hnodup hin (hs.congr (publishDue_factory hq) hget hissued) (fun due h => hdue due (hget ▸ h)) hrest hqkeys

/-- After a timely wake-up every schedule is covered past it. -/
theorem wake_covers (hlawful : croniter.Lawful) (hmet : Met croniter p now) (hs : Scheduled ids croniter p schedule start)
    (hkeys : (p.nextRuns.map Prod.fst).Nodup) (h : p.wake ids croniter now = .ok p') :
    Scheduled ids croniter p' schedule start ∧
      ∃ next, Dictionary.get schedule p'.nextRuns = some next ∧ now.stamp < next.stamp := by
  have hnodup : (p.due now).Nodup := hkeys.sublist (List.filter_sublist.map Prod.fst)
  obtain ⟨due, hget, hrest⟩ := id hs
  by_cases hlate : due.stamp ≤ now.stamp
  · have hmem : schedule ∈ p.due now :=
      List.mem_map.mpr ⟨(schedule, due), List.mem_filter.mpr ⟨Dictionary.mem_of_get hget, by simpa using hlate⟩, rfl⟩
    refine foldlM_covers hlawful hnodup hmem hs (fun due' hget' => ?_) h hkeys
    obtain rfl := Option.some.inj (hget.symm.trans hget')
    exact ⟨hlate, (hmet schedule due hget hlate).1⟩
  · have hnot : schedule ∉ p.due now := by
      intro hmem
      obtain ⟨⟨_, due'⟩, hfilter, rfl⟩ := List.mem_map.mp hmem
      obtain ⟨hentry, hle⟩ := List.mem_filter.mp hfilter
      rw [Dictionary.get_of_mem hkeys hentry] at hget
      obtain rfl := Option.some.inj hget
      exact hlate (by simpa using hle)
    obtain ⟨hget', hissued⟩ := foldlM_other hnot h
    exact ⟨hs.congr (foldlM_frame h hkeys).1 hget' hissued, due, hget'.trans hget, by omega⟩

end Coverage

section Tenants

variable {ids : Identifiers} {croniter : Croniter} {now : Occurrence} {p p' : CronCommandPublisher}

def Attributed (published : List Publication) : Prop :=
  ∀ publication ∈ published, publication.lineage.tenantId = publication.command.tenantId

theorem validated_tenant {c command : PipelineCommand} (h : c.validated = .ok command) :
    eventText c.tenantId = .ok command.tenantId := by
  simp only [PipelineCommand.validated, bind_eq_ok, pure_eq_ok] at h
  obtain ⟨tenantId, htenant, -, -, -, -, -, -, rfl⟩ := h
  exact htenant

theorem publish_attributed {f : ScheduledCommandFactory} {schedule : CronSchedule} {o : Occurrence} {issued : List Publication}
    (h : f.publish ids schedule o = .ok issued) (htenant : ∀ tenant, f.tenant = some tenant → eventText tenant = .ok "default") :
    Attributed issued := by
  obtain ⟨hcommands, hfields⟩ := publish_eq_ok h
  intro publication hmem
  obtain ⟨-, -, hlineage⟩ := hfields publication hmem
  simp only [ScheduledCommandFactory.commandsFor, bind_eq_ok, context_eq_ok] at hcommands
  obtain ⟨_, -, tenantId, hf, route, -, hmap⟩ := hcommands
  obtain ⟨target, -, hcommand⟩ := mapM_eq_ok_mem hmap (List.mem_map_of_mem hmem)
  have hvalid := validated_tenant hcommand
  rw [htenant tenantId hf] at hvalid
  rw [hlineage]
  exact Except.ok.inj hvalid

theorem publishDue_attributed {schedule : CronSchedule} (h : p.publishDue ids croniter now schedule = .ok p')
    (htenant : ∀ tenant, p.factory.tenant = some tenant → eventText tenant = .ok "default") (hp : Attributed p.published) :
    Attributed p'.published := by
  obtain ⟨due, next, issued, -, hissued, -, rfl⟩ := publishDue_eq_ok h
  intro publication hmem
  rcases List.mem_append.mp hmem with hmem | hmem
  · exact hp publication hmem
  · exact publish_attributed hissued htenant publication hmem

theorem foldlM_attributed {schedules : List CronSchedule}
    (h : schedules.foldlM (fun p schedule => p.publishDue ids croniter now schedule) p = .ok p')
    (htenant : ∀ schedule ∈ schedules, ∀ tenant, p.factory.tenant = some tenant → eventText tenant = .ok "default")
    (hp : Attributed p.published) : Attributed p'.published := by
  induction schedules generalizing p with
  | nil =>
      obtain rfl := pure_eq_ok.mp h
      exact hp
  | cons schedule schedules ih =>
      rw [List.foldlM_cons, bind_eq_ok] at h
      obtain ⟨q, hq, hrest⟩ := h
      refine ih hrest (fun other hmem => ?_) (publishDue_attributed hq (htenant schedule List.mem_cons_self) hp)
      rw [publishDue_factory hq]
      exact htenant other (List.mem_cons_of_mem _ hmem)

theorem wake_attributed (hmet : Met croniter p now) (hkeys : (p.nextRuns.map Prod.fst).Nodup)
    (h : p.wake ids croniter now = .ok p') (hp : Attributed p.published) : Attributed p'.published := by
  refine foldlM_attributed h (fun schedule hmem => ?_) hp
  obtain ⟨⟨_, due⟩, hfilter, rfl⟩ := List.mem_map.mp hmem
  obtain ⟨hentry, hle⟩ := List.mem_filter.mp hfilter
  exact (hmet _ due (Dictionary.get_of_mem hkeys hentry) (by simpa using hle)).2

end Tenants

section Runs

variable (ids : Identifiers) (croniter : Croniter)

def MetAlong (p : CronCommandPublisher) : List Occurrence → Prop
  | [] => True
  | now :: wakes => Met croniter p now ∧ ∀ p', p.wake ids croniter now = .ok p' → MetAlong p' wakes

def PipelineCommand.isFor (target : Option String) (command : PipelineCommand) : Bool :=
  decide (command.payload.field "target" = target.map Value.string)

/-- Every occurrence of every schedule after its start and up to now has the
commands of the factory published, one for each target and none for anything
else, with lineage of their tenant. -/
def Complete (starts : List (CronSchedule × Occurrence)) (p : CronCommandPublisher) (now : Occurrence) : Prop :=
  ∀ schedule ∈ p.factory.schedules, ∃ start, Dictionary.get schedule starts = some start ∧
    ∀ o, croniter.occurs schedule.expression o → start.stamp < o.stamp → o.stamp ≤ now.stamp →
      p.factory.commandsFor ids schedule (some o) = .ok ((p.issued schedule o).map (·.command)) ∧
        (∀ target ∈ schedule.targets, ((p.issued schedule o).filter (·.command.isFor target)).length = 1) ∧
        (∀ publication ∈ p.issued schedule o, ∃ target ∈ schedule.targets, publication.command.isFor target = true) ∧
        Attributed (p.issued schedule o)

structure Punctual (starts : List (CronSchedule × Occurrence)) (p : CronCommandPublisher) : Prop where
  keys : (p.nextRuns.map Prod.fst).Nodup
  started : ∀ schedule ∈ p.factory.schedules, ∃ start, Dictionary.get schedule starts = some start ∧
    Scheduled ids croniter p schedule start
  attributed : Attributed p.published

variable {ids croniter} {now : Occurrence} {p p' : CronCommandPublisher} {starts : List (CronSchedule × Occurrence)}

theorem commandsFor_targets {f : ScheduledCommandFactory} {schedule : CronSchedule} {o : Occurrence}
    {commands : List PipelineCommand}
    (h : f.commandsFor ids schedule (some o) = .ok commands) :
    List.Forall₂ (fun target command => command.payload.field "target" = target.map Value.string) schedule.targets commands := by
  simp only [ScheduledCommandFactory.commandsFor, bind_eq_ok, context_eq_ok] at h
  obtain ⟨_, hsome, tenantId, -, route, -, hmap⟩ := h
  obtain rfl := Option.some.inj hsome
  refine (mapM_eq_ok.mp hmap).imp fun target command hcommand => ?_
  simp only [ScheduledCommandFactory.command, PipelineCommand.validated, bind_eq_ok, pure_eq_ok] at hcommand
  obtain ⟨_, -, _, -, _, -, _, -, rfl⟩ := hcommand
  cases target <;> rfl

theorem isFor_eq {target target' : Option String} {command : PipelineCommand}
    (h : command.payload.field "target" = target.map Value.string) : command.isFor target' = true ↔ target' = target := by
  rw [PipelineCommand.isFor, decide_eq_true_eq, h]
  cases target <;> cases target' <;> simp [eq_comm]

theorem length_filter_isFor {targets : List (Option String)} {issued : List Publication} (hdistinct : targets.Nodup)
    (h : List.Forall₂ (fun target publication =>
      publication.command.payload.field "target" = target.map Value.string) targets issued)
    {target : Option String} (hmem : target ∈ targets) : (issued.filter (·.command.isFor target)).length = 1 := by
  induction h with
  | nil => cases hmem
  | @cons first publication targets issued hfirst hrest ih =>
      obtain ⟨hnot, hdistinct⟩ := List.nodup_cons.mp hdistinct
      by_cases he : target = first
      · have hnone : issued.filter (·.command.isFor target) = [] := by
          refine List.filter_eq_nil_iff.mpr fun other hother hfor => ?_
          obtain ⟨target', htarget', hpayload⟩ := Mapping.forall₂_mem_right hrest hother
          exact hnot (he ▸ (isFor_eq hpayload).mp hfor ▸ htarget')
        rw [List.filter_cons, if_pos ((isFor_eq hfirst).mpr he), hnone]
        rfl
      · rw [List.filter_cons, if_neg fun hfor => he ((isFor_eq hfirst).mp hfor)]
        exact ih hdistinct ((List.mem_cons.mp hmem).resolve_left he)

theorem Punctual.wake (hlawful : croniter.Lawful) (h : Punctual ids croniter starts p)
    (hdistinct : ∀ schedule ∈ p.factory.schedules, schedule.targets.Nodup) (hmet : Met croniter p now)
    (hwake : p.wake ids croniter now = .ok p') : Punctual ids croniter starts p' ∧ Complete ids croniter starts p' now := by
  obtain ⟨hfactory, hkeys⟩ := foldlM_frame hwake h.keys
  have hattributed := wake_attributed hmet h.keys hwake h.attributed
  constructor
  · refine ⟨hkeys, fun schedule hmem => ?_, hattributed⟩
    obtain ⟨start, hstart, hscheduled⟩ := h.started schedule (hfactory ▸ hmem)
    exact ⟨start, hstart, (wake_covers hlawful hmet hscheduled h.keys hwake).1⟩
  · intro schedule hmem
    obtain ⟨start, hstart, hscheduled⟩ := h.started schedule (hfactory ▸ hmem)
    obtain ⟨⟨due, hdue, -, -, hcovered⟩, next, hnext, hlater⟩ := wake_covers hlawful hmet hscheduled h.keys hwake
    obtain rfl := Option.some.inj (hdue.symm.trans hnext)
    refine ⟨start, hstart, fun o hoccurs hafter hle => ?_⟩
    have hcommands := (publish_eq_ok (hcovered.before o hoccurs hafter (by omega))).1
    have htargets := List.forall₂_map_right_iff.mp (commandsFor_targets hcommands)
    refine ⟨hcommands, fun target htarget => ?_, fun publication hin => ?_, fun publication hin => ?_⟩
    · exact length_filter_isFor (hdistinct schedule (hfactory ▸ hmem)) htargets htarget
    · obtain ⟨target, htarget, hpayload⟩ := Mapping.forall₂_mem_right htargets hin
      exact ⟨target, htarget, (isFor_eq hpayload).mpr rfl⟩
    · exact hattributed publication (List.mem_filter.mp hin).1

theorem Punctual.run (hlawful : croniter.Lawful) {wakes : List Occurrence} (h : Punctual ids croniter starts p)
    (hdistinct : ∀ schedule ∈ p.factory.schedules, schedule.targets.Nodup)
    (hmet : MetAlong ids croniter p (wakes ++ [now])) (hrun : p.run ids croniter (wakes ++ [now]) = .ok p') :
    Complete ids croniter starts p' now := by
  induction wakes generalizing p with
  | nil =>
      rw [CronCommandPublisher.run, List.nil_append, List.foldlM_cons, bind_eq_ok] at hrun
      obtain ⟨q, hq, hlast⟩ := hrun
      obtain rfl := pure_eq_ok.mp hlast
      exact (h.wake hlawful hdistinct hmet.1 hq).2
  | cons first wakes ih =>
      rw [CronCommandPublisher.run, List.cons_append, List.foldlM_cons, bind_eq_ok] at hrun
      obtain ⟨q, hq, hrest⟩ := hrun
      have hfactory := (foldlM_frame hq h.keys).1
      exact ih (h.wake hlawful hdistinct hmet.1 hq).1 (hfactory ▸ hdistinct) (hmet.2 q hq) hrest

/-- The first occurrences are reckoned from the readings that count. -/
theorem start_spec {entries starts' runs runs' : List (CronSchedule × Occurrence)}
    (hrel : ∀ schedule start, Dictionary.get schedule starts' = some start →
      ∃ due, Dictionary.get schedule runs = some due ∧ croniter.getNext schedule.expression start = some due)
    (hnodup : (runs.map Prod.fst).Nodup)
    (h : entries.foldlM (planned croniter) runs = .ok runs') :
    (runs'.map Prod.fst).Nodup ∧ ∀ schedule start,
      Dictionary.get schedule (entries.foldl (fun starts entry => Dictionary.assign entry.1 entry.2 starts) starts') = some start →
        ∃ due, Dictionary.get schedule runs' = some due ∧ croniter.getNext schedule.expression start = some due := by
  induction entries generalizing runs starts' with
  | nil =>
      obtain rfl := pure_eq_ok.mp h
      exact ⟨hnodup, hrel⟩
  | cons entry entries ih =>
      rw [List.foldlM_cons, bind_eq_ok] at h
      obtain ⟨next, hnext, hrest⟩ := h
      simp only [planned, nextRun, bind_eq_ok, context_eq_ok, pure_eq_ok] at hnext
      obtain ⟨due, hdue, rfl⟩ := hnext
      refine ih ?_ (Dictionary.nodup_assign entry.1 due hnodup) hrest
      intro schedule start hget
      rw [Dictionary.get_assign] at hget ⊢
      split at hget
      next he =>
        obtain rfl := Option.some.inj hget
        exact ⟨due, if_pos he, he ▸ hdue⟩
      next he =>
        rw [if_neg he]
        exact hrel schedule start hget

theorem get_startedAt {schedules : List CronSchedule} {clock : Nat → Occurrence} {schedule : CronSchedule}
    (hmem : schedule ∈ schedules) : ∃ start, Dictionary.get schedule (startedAt schedules clock) = some start := by
  have hfold (entries starts : List (CronSchedule × Occurrence))
      (h : schedule ∈ entries.map Prod.fst ∨ ∃ start, Dictionary.get schedule starts = some start) :
      ∃ start, Dictionary.get schedule
        (entries.foldl (fun starts entry => Dictionary.assign entry.1 entry.2 starts) starts) = some start := by
    induction entries generalizing starts with
    | nil => exact h.resolve_left List.not_mem_nil
    | cons entry entries ih =>
        refine ih _ ?_
        by_cases he : schedule = entry.1
        · exact .inr ⟨entry.2, by rw [he, Dictionary.get_assign_self]⟩
        · refine h.imp (fun hin => (List.mem_cons.mp hin).resolve_left he) ?_
          rintro ⟨start, hstart⟩
          exact ⟨start, by rw [Dictionary.get_assign_ne he, hstart]⟩
  refine hfold _ [] (.inl ?_)
  have hkeys : (readings schedules clock).map Prod.fst = schedules := by
    rw [readings, List.map_map]
    exact List.zipIdx_map_fst 0 schedules
  rwa [hkeys]

theorem start_factory {f : ScheduledCommandFactory} {clock : Nat → Occurrence}
    (h : CronCommandPublisher.start croniter f clock = .ok p) : p.factory = f := by
  simp only [CronCommandPublisher.start, bind_eq_ok, pure_eq_ok] at h
  obtain ⟨runs, -, rfl⟩ := h
  rfl

theorem start_punctual (hlawful : croniter.Lawful) {f : ScheduledCommandFactory} {clock : Nat → Occurrence}
    (h : CronCommandPublisher.start croniter f clock = .ok p) : Punctual ids croniter (startedAt f.schedules clock) p := by
  simp only [CronCommandPublisher.start, bind_eq_ok, pure_eq_ok] at h
  obtain ⟨runs, hruns, rfl⟩ := h
  obtain ⟨hnodup, hrel⟩ := @start_spec croniter _ [] [] runs (fun _ _ hget => absurd hget (by simp)) List.nodup_nil hruns
  refine ⟨hnodup, fun schedule hmem => ?_, fun _ hin => absurd hin List.not_mem_nil⟩
  obtain ⟨start, hstart⟩ := @get_startedAt _ clock schedule hmem
  obtain ⟨due, hdue, hnext⟩ := hrel schedule start hstart
  obtain ⟨hoccurs, hafter, hfirst⟩ := hlawful.next _ _ _ hnext
  refine ⟨start, hstart, due, hdue, hoccurs, hafter, ⟨fun o ho hlater hbefore => ?_, fun _ _ => rfl⟩⟩
  have hle := hfirst o ho hlater
  omega

/-- As long as no wake-up finds two occurrences of a schedule, the tenant is the
default one and no schedule names a target twice, the publisher misses no
occurrence. -/
theorem occurrences_published (ids : Identifiers) (croniter : Croniter) (hlawful : croniter.Lawful) (f : ScheduledCommandFactory)
    (clock : Nat → Occurrence) (wakes : List Occurrence) (now : Occurrence) (p₀ p : CronCommandPublisher)
    (hdistinct : ∀ schedule ∈ f.schedules, schedule.targets.Nodup)
    (hstart : CronCommandPublisher.start croniter f clock = .ok p₀) (hmet : MetAlong ids croniter p₀ (wakes ++ [now]))
    (hrun : p₀.run ids croniter (wakes ++ [now]) = .ok p) :
    Complete ids croniter (startedAt f.schedules clock) p now := by
  exact (start_punctual hlawful hstart).run hlawful (start_factory hstart ▸ hdistinct) hmet hrun

end Runs

def newYear (year : Nat) (h : 1 ≤ year ∧ year ≤ 9999) : Occurrence := ⟨year, 1, 1, 0, 0, 0, 0, by omega, by omega⟩

def yearly : Croniter where
  occurs expression o := expression = "0 0 1 1 *" ∧ o.month = 1 ∧ o.day = 1 ∧ o.hour = 0 ∧ o.minute = 0 ∧
    o.second = 0 ∧ o.microsecond = 0
  getNext expression after :=
    if h : expression = "0 0 1 1 *" ∧ after.year < 9999 then some (newYear (after.year + 1) ⟨Nat.le_add_left 1 _, h.2⟩) else none

theorem yearly_lawful : yearly.Lawful := by
  constructor
  intro expression after due h
  simp only [yearly] at h
  split at h
  next hexpression =>
    obtain rfl := Option.some.inj h
    have hd := after.date
    have ht := after.time
    refine ⟨⟨hexpression.1, rfl, rfl, rfl, rfl, rfl, rfl⟩, ?_, ?_⟩
    · simp only [newYear, Occurrence.stamp]
      omega
    · rintro o ⟨-, hmonth, hday, hhour, hminute, hsecond, hmicrosecond⟩ hlater
      simp only [newYear, Occurrence.stamp, hmonth, hday, hhour, hminute, hsecond, hmicrosecond] at hlater ⊢
      have hyear : after.year < o.year := by
        by_contra hle
        omega
      omega
  next => cases h

def report : CronSchedule := ⟨"report", "0 0 1 1 *", [none]⟩

def reportFactory (tenant : String) : ScheduledCommandFactory :=
  ⟨some tenant, "reports", ⟨[⟨"report", .algorithm, .cpu, [], [], true, 0⟩], [], [], []⟩, [report]⟩

def reportCommand (ids : Identifiers) (tenant : String) (o : Occurrence) : PipelineCommand where
  eventId := ids.uuid5 (ids.uuid5 ids.namespaceUrl ("reports" ++ ":" ++ "report" ++ ":" ++ "-" ++ ":" ++
    o.isoformat)) ("step:" ++ "report")
  correlationId := ids.uuid5 ids.namespaceUrl ("reports" ++ ":" ++ "report" ++ ":" ++ "-" ++ ":" ++ o.isoformat)
  causationId := some (ids.uuid5 ids.namespaceUrl ("reports" ++ ":" ++ "report" ++ ":" ++ "-" ++ ":" ++ o.isoformat))
  tenantId := tenant
  entityId := none
  pipeline := "reports"
  step := "report"
  stepType := .algorithm
  resourceClass := .cpu
  attempt := 0
  payload := [("scheduled_for", .string o.isoformat)]
  attributes := []

def reported (ids : Identifiers) (tenant : String) (o : Occurrence) : Publication :=
  ⟨report, o, reportCommand ids tenant o, acceptedLineage ids (reportCommand ids tenant o)⟩

variable {tenant : String}

theorem publish_report (htenant : eventText tenant = .ok tenant) (o : Occurrence) :
    (reportFactory tenant).publish ids report o = .ok [reported ids tenant o] := by
  have hpipeline : eventText "reports" = .ok "reports" := by decide
  have hstep : eventText "report" = .ok "report" := by decide
  have hroute : (reportFactory tenant).routes.route "report" = .ok ⟨"report", .algorithm, .cpu, [], [], true, 0⟩ := rfl
  have hcommand : (reportFactory tenant).command ids tenant "report" ⟨"report", .algorithm, .cpu, [], [], true, 0⟩ o none =
      .ok (reportCommand ids tenant o) := by
    simp only [ScheduledCommandFactory.command, PipelineCommand.validated, reportFactory, htenant, optionalText, hpipeline, hstep]
    rfl
  simp only [ScheduledCommandFactory.publish, ScheduledCommandFactory.commandsFor, context_some, ok_bind]
  have hcontext : context (reportFactory tenant).tenant "scheduled pipelines require a tenant identity" = .ok tenant := rfl
  rw [hcontext, ok_bind, show report.step = "report" from rfl, hroute, ok_bind]
  change ([none].mapM _ >>= _) = _
  rw [List.mapM_cons, List.mapM_nil, hcommand]
  rfl

def june (year : Nat) (h : 1 ≤ year ∧ year ≤ 9999) : Occurrence := ⟨year, 6, 1, 0, 0, 0, 0, by omega, by omega⟩

def waiting (tenant : String) : CronCommandPublisher := ⟨reportFactory tenant, [(report, newYear 2026 (by decide))], []⟩

theorem start_waiting : CronCommandPublisher.start yearly (reportFactory tenant)
    (fun _ => june 2025 (by decide)) = .ok (waiting tenant) := rfl

theorem wake_waiting (htenant : eventText tenant = .ok tenant) {year : Nat} (h : 2026 ≤ year ∧ year < 9999) :
    (waiting tenant).wake ids yearly (june year ⟨by omega, by omega⟩) =
      .ok ⟨reportFactory tenant, [(report, newYear (year + 1) ⟨by omega, by omega⟩)],
        [reported ids tenant (newYear 2026 (by decide))]⟩ := by
  have hdue : (waiting tenant).due (june year ⟨by omega, by omega⟩) = [report] := by
    have hle : (newYear 2026 (by decide)).stamp ≤ (june year ⟨by omega, by omega⟩).stamp := by
      simp only [newYear, june, Occurrence.stamp]
      omega
    simp [CronCommandPublisher.due, waiting, hle]
  have hget : Dictionary.get report (waiting tenant).nextRuns = some (newYear 2026 (by decide)) := by
    simp [waiting, Dictionary.get]
  have hnext : nextRun yearly report.expression (june year ⟨by omega, by omega⟩) =
    .ok (newYear (year + 1) ⟨by omega, by omega⟩) := by
    have hexpression : report.expression = "0 0 1 1 *" ∧ (june year ⟨by omega, by omega⟩).year < 9999 := ⟨rfl, h.2⟩
    simp only [nextRun, yearly, dif_pos hexpression, context_some]
    rfl
  have hpublish : (waiting tenant).factory.publish ids report (newYear 2026 (by decide)) =
    .ok [reported ids tenant (newYear 2026 (by decide))] :=
    publish_report ids htenant _
  have hone : (waiting tenant).publishDue ids yearly (june year ⟨by omega, by omega⟩) report =
      .ok ⟨reportFactory tenant, [(report, newYear (year + 1) ⟨by omega, by omega⟩)],
        [reported ids tenant (newYear 2026 (by decide))]⟩ := by
    simp only [CronCommandPublisher.publishDue, hget, context_some, ok_bind, hpublish, hnext]
    simp [waiting, Dictionary.assign]
  rw [CronCommandPublisher.wake, hdue, List.foldlM_cons, hone]
  rfl

theorem run_waiting (htenant : eventText tenant = .ok tenant) {year : Nat} (h : 2026 ≤ year ∧ year < 9999) :
    (waiting tenant).run ids yearly [june year ⟨by omega, by omega⟩] =
      .ok ⟨reportFactory tenant, [(report, newYear (year + 1) ⟨by omega, by omega⟩)],
        [reported ids tenant (newYear 2026 (by decide))]⟩ := by
  rw [CronCommandPublisher.run, List.foldlM_cons, wake_waiting ids htenant h]
  rfl

theorem startedAt_report : Dictionary.get report (startedAt (reportFactory tenant).schedules fun _ => june 2025 (by decide)) =
    some (june 2025 (by decide)) := by
  simp [startedAt, readings, reportFactory, Dictionary.get, Dictionary.assign]

theorem occurs_newYear (year : Nat) (h : 1 ≤ year ∧ year ≤ 9999) : yearly.occurs report.expression (newYear year h) :=
  ⟨rfl, rfl, rfl, rfl, rfl, rfl, rfl⟩

def joinedIds : Identifiers := ⟨fun _ => none, fun parent name => parent ++ "/" ++ name, "url"⟩

/-- A wake-up that finds one occurrence of the default tenant. -/
theorem occurrences_published_default :
    Complete joinedIds yearly (startedAt (reportFactory "default").schedules fun _ => june 2025 (by decide))
      ⟨reportFactory "default", [(report, newYear 2027 (by decide))], [reported joinedIds "default" (newYear 2026 (by decide))]⟩
      (june 2026 (by decide)) := by
  have htenant : eventText "default" = .ok "default" := by decide
  refine occurrences_published joinedIds yearly yearly_lawful (reportFactory "default") (fun _ => june 2025 (by decide)) []
    (june 2026 (by decide)) (waiting "default") _ (by decide) start_waiting ⟨?_, fun _ _ => trivial⟩
    (run_waiting joinedIds htenant ⟨by decide, by decide⟩)
  intro schedule due hget hle
  obtain ⟨rfl, rfl⟩ := Prod.mk.inj (List.mem_singleton.mp (Dictionary.mem_of_get hget))
  constructor
  · rintro o ⟨-, hmonth, hday, hhour, hminute, hsecond, hmicrosecond⟩ hlater
    simp only [newYear, june, Occurrence.stamp, hmonth, hday, hhour, hminute, hsecond, hmicrosecond] at hlater ⊢
    omega
  · intro tenant hfactory
    obtain rfl := Option.some.inj hfactory
    exact htenant

/-- A late wake-up skips an occurrence, and lineage of another tenant is filed
under the default one. -/
theorem occurrences_missed : yearly.Lawful ∧ ∀ ids : Identifiers,
    (∃ p, (waiting "default").run ids yearly [june 2027 (by decide)] = .ok p ∧
      ¬ Complete ids yearly (startedAt (reportFactory "default").schedules fun _ => june 2025 (by decide)) p
      (june 2027 (by decide))) ∧
    ∃ p, (waiting "acme").run ids yearly [june 2026 (by decide)] = .ok p ∧
      ¬ Complete ids yearly (startedAt (reportFactory "acme").schedules fun _ => june 2025 (by decide)) p
      (june 2026 (by decide)) := by
  refine ⟨yearly_lawful, fun ids => ⟨⟨_, run_waiting ids (by decide) ⟨by decide, by decide⟩, fun h => ?_⟩,
    ⟨_, run_waiting ids (by decide) ⟨by decide, by decide⟩, fun h => ?_⟩⟩⟩
  · obtain ⟨start, hstart, hcovered⟩ := h report List.mem_cons_self
    obtain rfl := Option.some.inj (hstart.symm.trans startedAt_report)
    obtain ⟨hcommands, -⟩ := hcovered (newYear 2027 (by decide)) (occurs_newYear 2027 _) (by decide) (by decide)
    have htenant : eventText "default" = .ok "default" := by decide
    have hone := (publish_eq_ok (publish_report ids htenant (newYear 2027 (by decide)))).1
    have hsame := hcommands.symm.trans hone
    simp [CronCommandPublisher.issued, reported, newYear] at hsame
  · obtain ⟨start, hstart, hcovered⟩ := h report List.mem_cons_self
    obtain rfl := Option.some.inj (hstart.symm.trans startedAt_report)
    obtain ⟨-, -, -, hattributed⟩ := hcovered (newYear 2026 (by decide)) (occurs_newYear 2026 _) (by decide) (by decide)
    have hin : reported ids "acme" (newYear 2026 (by decide)) ∈ CronCommandPublisher.issued
        ⟨reportFactory "acme", [(report, newYear 2027 (by decide))], [reported ids "acme" (newYear 2026 (by decide))]⟩
        report (newYear 2026 (by decide)) := List.mem_filter.mpr ⟨List.mem_singleton_self _, by simp [reported]⟩
    have htenant : "default" = "acme" := hattributed _ hin
    exact absurd htenant (by decide)

end Galadril.Execution
