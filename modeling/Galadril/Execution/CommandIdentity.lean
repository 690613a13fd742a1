import Galadril.Execution.Schedules
import Galadril.Lib.Text

namespace Galadril.Execution

open Json Lib.Checked Lib.Text Registry.Identity

def pieces (value : String) : List (List Char) := value.toList.splitOn ':'

theorem pieces_append (a b : String) : pieces (a ++ ":" ++ b) = pieces a ++ pieces b := by
  rw [pieces, String.toList_append, String.toList_append, List.append_assoc]
  exact List.splitOn_append_cons_self _ _

theorem pieces_inj {a b : String} : pieces a = pieces b ↔ a = b := by
  refine ⟨fun h => ?_, fun h => by rw [h]⟩
  have hjoined := congrArg [':'].intercalate h
  rw [pieces, pieces, List.intercalate_splitOn, List.intercalate_splitOn] at hjoined
  exact String.toList_inj.mp hjoined

theorem pieces_plain {a : String} (h : ':' ∉ a.toList) : pieces a = [a.toList] := List.splitOn_eq_singleton h

theorem stripped_stripped (value : String) : stripped (stripped value) = stripped value := by
  rw [stripped, stripped, String.toList_ofList, Lib.Characters.trimBy_trimBy]

theorem count_dropWhile {c : Char} {p : Char → Bool} (h : p c = false) (value : List Char) :
    (value.dropWhile p).count c = value.count c := by
  induction value with
  | nil => rfl
  | cons d value ih =>
      by_cases hd : p d = true
      · have hne : d ≠ c := by
          rintro rfl
          rw [h] at hd
          cases hd
        rw [List.dropWhile_cons_of_pos hd, ih, List.count_cons_of_ne hne]
      · rw [List.dropWhile_cons_of_neg hd]

theorem count_trimBy {c : Char} {p : Char → Bool} (h : p c = false) (value : List Char) :
    (trimBy p value).count c = value.count c := by
  rw [trimBy, List.count_reverse, count_dropWhile h, List.count_reverse, count_dropWhile h]

/-- Texts that begin a common text up to a colon and are the same without
blanks around them are the same. -/
theorem before_colon {a b x y : String} (htext : a ++ ":" ++ x = b ++ ":" ++ y) (hstripped : stripped a = stripped b) : a = b := by
  have hcount : a.toList.count ':' = b.toList.count ':' := by
    have hcolon : isWhitespace ':' = false := by decide
    have hlists := congrArg String.toList hstripped
    simp only [stripped, String.toList_ofList] at hlists
    rw [← count_trimBy hcolon a.toList, ← count_trimBy hcolon b.toList, hlists]
  have hlists := congrArg String.toList htext
  simp only [String.toList_append, List.append_assoc] at hlists
  rw [← String.toList_inj]
  rcases List.append_eq_append_iff.mp hlists with ⟨rest, hb, hrest⟩ | ⟨rest, ha, hrest⟩
  · cases rest with
    | nil => rw [hb, List.append_nil]
    | cons d rest =>
        have hd : ':' = d := (List.cons.inj hrest).1
        rw [hb, ← hd, List.count_append, List.count_cons_self] at hcount
        omega
  · cases rest with
    | nil => rw [ha, List.append_nil]
    | cons d rest =>
        have hd : ':' = d := (List.cons.inj hrest).1
        rw [ha, ← hd, List.count_append, List.count_cons_self] at hcount
        omega

variable {ids : Identifiers}

structure Identifiers.Lawful (ids : Identifiers) : Prop where
  injective : ∀ parent name parent' name', ids.uuid5 parent name = ids.uuid5 parent' name' → parent = parent' ∧ name = name'
  plain : ∀ parent name, ':' ∉ (ids.uuid5 parent name).toList

theorem Identifiers.Lawful.uuid5_inj (h : ids.Lawful) {parent name parent' name' : String} :
    ids.uuid5 parent name = ids.uuid5 parent' name' ↔ parent = parent' ∧ name = name' := by
  refine ⟨h.injective _ _ _ _, ?_⟩
  rintro ⟨rfl, rfl⟩
  rfl

def Identified (c c' : PipelineCommand) : Prop := c.eventId = c'.eventId ∧ c.idempotencyKey = c'.idempotencyKey

theorem pieces_key (c : PipelineCommand) : pieces c.idempotencyKey = pieces c.eventId ++ (pieces c.pipeline ++ pieces c.step) := by
  rw [PipelineCommand.idempotencyKey, pieces_append, pieces_append, List.append_assoc]

theorem identified_iff {c c' : PipelineCommand} :
    Identified c c' ↔ c.eventId = c'.eventId ∧ pieces c.pipeline ++ pieces c.step = pieces c'.pipeline ++ pieces c'.step := by
  refine and_congr_right fun h => ?_
  rw [← pieces_inj, pieces_key, pieces_key, h, List.append_cancel_left_eq]

theorem eventText_eq_ok {value text : String} : eventText value = .ok text → text = stripped value := by
  simp only [eventText, bind_eq_ok, ensure_eq_ok, pure_eq_ok]
  rintro ⟨-, -, rfl⟩
  rfl

/-- What a command keeps through its validation. -/
theorem validated_eq_ok {c d : PipelineCommand} (h : c.validated = .ok d) :
    d.eventId = c.eventId ∧ d.pipeline = stripped c.pipeline ∧ d.step = stripped c.step := by
  simp only [PipelineCommand.validated, bind_eq_ok, pure_eq_ok] at h
  obtain ⟨tenantId, -, entityId, -, pipeline, hpipeline, step, hstep, rfl⟩ := h
  exact ⟨rfl, eventText_eq_ok hpipeline, eventText_eq_ok hstep⟩

theorem route_step {table : RouteTable} {step : String} {route : StepRoute} (h : table.route step = .ok route) :
    route.step = step := by
  rw [RouteTable.route, context_eq_ok] at h
  simpa using List.find?_some h

theorem mem_zip_mapM {α β : Type} {f : α → Except String β} {xs : List α} {ys : List β} (h : xs.mapM f = .ok ys) {x : α} {y : β}
    (hp : (x, y) ∈ xs.zip ys) : f x = .ok y := by
  exact (List.forall₂_iff_zip.mp (mapM_eq_ok.mp h)).2 hp

def IngressHandler.Builds (ids : Identifiers) (h : IngressHandler) (sourceId topic : String)
    (record : CanonicalRecord) (step : String)
    (c : PipelineCommand) : Prop :=
  ∃ steps commands, h.routes.entrySteps sourceId = .ok steps ∧ h.commands ids sourceId topic record = .ok commands ∧
    (step, c) ∈ steps.zip commands

/-- The work that a command stands for. -/
structure IngressWork where
  tenant : String
  pipeline : String
  source : String
  record : String
  /-- The identifier of the source object, where the lineage names one. -/
  lineage : Option String
  step : String
deriving DecidableEq

def IngressHandler.work (ids : Identifiers) (h : IngressHandler) (sourceId : String) (record : CanonicalRecord) (step : String) :
    IngressWork := ⟨record.tenantId, h.pipeline, sourceId, record.recordId, record.sourceCorrelationId ids, step⟩

def IngressWork.parent (ids : Identifiers) (w : IngressWork) : String := w.lineage.getD ids.namespaceUrl

def IngressWork.fields (w : IngressWork) : List String :=
  match w.lineage with
  | some _ => [w.source, w.record]
  | none => [w.tenant, w.source, w.record]

structure Blurred (ids : Identifiers) (w w' : IngressWork) : Prop where
  parent : w.parent ids = w'.parent ids
  record : w.fields.flatMap pieces = w'.fields.flatMap pieces
  named : pieces w.pipeline ++ pieces "step" ++ pieces w.step = pieces w'.pipeline ++ pieces "step" ++ pieces w'.step
  keyed : pieces (stripped w.pipeline) ++ pieces (stripped w.step) = pieces (stripped w'.pipeline) ++ pieces (stripped w'.step)

theorem eq_replicate_of_comm {α : Type} {x : α} {xs : List α} (h : x :: xs = xs ++ [x]) : xs = List.replicate xs.length x := by
  induction xs with
  | nil => rfl
  | cons y ys ih =>
      obtain ⟨rfl, hrest⟩ := List.cons.inj h
      rw [List.length_cons, List.replicate_succ, ← ih hrest]

/-- Between names without blanks around them only pieces that read `step` can
have moved. -/
theorem Blurred.moved {w w' : IngressWork} (h : Blurred ids w w') (hpipeline : stripped w.pipeline = w.pipeline)
    (hstep : stripped w.step = w.step) (hpipeline' : stripped w'.pipeline = w'.pipeline) (hstep' : stripped w'.step = w'.step) :
    ∃ n, (pieces w'.pipeline = pieces w.pipeline ++ List.replicate n "step".toList ∧
        pieces w.step = List.replicate n "step".toList ++ pieces w'.step) ∨
      (pieces w.pipeline = pieces w'.pipeline ++ List.replicate n "step".toList ∧
        pieces w'.step = List.replicate n "step".toList ++ pieces w.step) := by
  have hword : pieces "step" = ["step".toList] := pieces_plain (by decide)
  have hnamed := h.named
  have hkeyed := h.keyed
  rw [hword] at hnamed
  rw [hpipeline, hstep, hpipeline', hstep'] at hkeyed
  rcases List.append_eq_append_iff.mp hkeyed with ⟨moved, hp, hs⟩ | ⟨moved, hp, hs⟩
  · rw [hp, hs] at hnamed
    simp only [List.append_assoc, List.append_cancel_left_eq] at hnamed
    have hcomm : "step".toList :: moved = moved ++ ["step".toList] := by
      apply @List.append_cancel_right _ _ (pieces w'.step)
      simpa using hnamed
    have hmoved := eq_replicate_of_comm hcomm
    exact ⟨moved.length, .inl ⟨by rw [hp, ← hmoved], by rw [hs, ← hmoved]⟩⟩
  · rw [hp, hs] at hnamed
    simp only [List.append_assoc, List.append_cancel_left_eq] at hnamed
    have hcomm : "step".toList :: moved = moved ++ ["step".toList] := by
      apply @List.append_cancel_right _ _ (pieces w.step)
      simpa using hnamed.symm
    have hmoved := eq_replicate_of_comm hcomm
    exact ⟨moved.length, .inr ⟨by rw [hp, ← hmoved], by rw [hs, ← hmoved]⟩⟩

theorem builds_command {h : IngressHandler} {sourceId topic : String} {record : CanonicalRecord} {step : String}
    {c : PipelineCommand}
    (hbuilds : h.Builds ids sourceId topic record step c) :
    c.eventId = ids.uuid5 (recordCorrelationId ids record sourceId)
        ("pipeline" ++ ":" ++ h.pipeline ++ ":" ++ "step" ++ ":" ++ step) ∧
      c.pipeline = stripped h.pipeline ∧ c.step = stripped step := by
  obtain ⟨steps, commands, hsteps, hcommands, hmem⟩ := hbuilds
  simp only [IngressHandler.commands, hsteps, ok_bind] at hcommands
  have hcommand := mem_zip_mapM hcommands hmem
  simp only [IngressHandler.command, bind_eq_ok] at hcommand
  obtain ⟨route, hroute, hvalidated⟩ := hcommand
  obtain ⟨hevent, hpipeline, hstep⟩ := validated_eq_ok hvalidated
  rw [route_step hroute] at hstep
  exact ⟨hevent, hpipeline, hstep⟩

theorem recordCorrelationId_inj (hids : ids.Lawful) {h h' : IngressHandler} {sourceId sourceId' step step' : String}
    {record record' : CanonicalRecord} :
    recordCorrelationId ids record sourceId = recordCorrelationId ids record' sourceId' ↔
      (h.work ids sourceId record step).parent ids = (h'.work ids sourceId' record' step').parent ids ∧
        (h.work ids sourceId record step).fields.flatMap pieces = (h'.work ids sourceId' record' step').fields.flatMap pieces := by
  simp only [recordCorrelationId, IngressHandler.work, IngressWork.parent, IngressWork.fields]
  cases record.sourceCorrelationId ids <;> cases record'.sourceCorrelationId ids <;>
    simp [hids.uuid5_inj, ← pieces_inj, pieces_append]

/-- Commands of records are taken for one exactly when their works read alike. -/
theorem identified_ingress (hids : ids.Lawful) {h h' : IngressHandler} {sourceId sourceId' topic topic' step step' : String}
    {record record' : CanonicalRecord} {c c' : PipelineCommand} (hc : h.Builds ids sourceId topic record step c)
    (hc' : h'.Builds ids sourceId' topic' record' step' c') :
    Identified c c' ↔ Blurred ids (h.work ids sourceId record step) (h'.work ids sourceId' record' step') := by
  obtain ⟨hevent, hpipeline, hstep⟩ := builds_command hc
  obtain ⟨hevent', hpipeline', hstep'⟩ := builds_command hc'
  have hnames : "pipeline" ++ ":" ++ h.pipeline ++ ":" ++ "step" ++ ":" ++ step =
        "pipeline" ++ ":" ++ h'.pipeline ++ ":" ++ "step" ++ ":" ++ step' ↔
      pieces h.pipeline ++ pieces "step" ++ pieces step = pieces h'.pipeline ++ pieces "step" ++ pieces step' := by
    rw [← pieces_inj]
    simp only [pieces_append, List.append_assoc, List.append_cancel_left_eq]
  rw [identified_iff, hevent, hevent', hids.uuid5_inj, hnames, hpipeline, hpipeline', hstep, hstep',
    @recordCorrelationId_inj ids hids h h' sourceId sourceId' step step' record record']
  constructor
  · rintro ⟨⟨⟨hparent, hrecord⟩, hnamed⟩, hkeyed⟩
    exact ⟨hparent, hrecord, hnamed, hkeyed⟩
  · rintro ⟨hparent, hrecord, hnamed, hkeyed⟩
    exact ⟨⟨⟨hparent, hrecord⟩, hnamed⟩, hkeyed⟩

theorem blurred_refl (ids : Identifiers) (w : IngressWork) : Blurred ids w w := ⟨rfl, rfl, rfl, rfl⟩

def ScheduledCommandFactory.Builds (ids : Identifiers) (f : ScheduledCommandFactory) (step : String) (target : Option String)
    (o : Occurrence) (c : PipelineCommand) : Prop :=
  (∃ name steps routes tenant, ScheduledCommandFactory.new name steps routes tenant = .ok f) ∧
    ∃ schedule ∈ f.schedules, schedule.step = step ∧ ∃ commands, f.commandsFor ids schedule (some o) = .ok commands ∧
      (target, c) ∈ schedule.targets.zip commands

def shown (target : Option String) : String := (target.filter (· ≠ "")).getD "-"

theorem builds_scheduled {f : ScheduledCommandFactory} {step : String} {target : Option String} {o : Occurrence}
    {c : PipelineCommand}
    (hbuilds : f.Builds ids step target o c) :
    target ≠ some "" ∧
      c.eventId = ids.uuid5 (ids.uuid5 ids.namespaceUrl (f.pipeline ++ ":" ++ step ++ ":" ++ shown target ++ ":" ++ o.isoformat))
        ("step:" ++ step) ∧
      c.pipeline = stripped f.pipeline ∧ c.step = stripped step := by
  obtain ⟨⟨name, steps, routes, tenant, hnew⟩, schedule, hschedule, rfl, commands, hcommands, hmem⟩ := hbuilds
  simp only [ScheduledCommandFactory.commandsFor, bind_eq_ok, context_eq_ok] at hcommands
  obtain ⟨o', ho, tenantId, -, route, hroute, hmap⟩ := hcommands
  obtain rfl := Option.some.inj ho
  obtain ⟨hevent, hpipeline, hstep⟩ := validated_eq_ok (mem_zip_mapM hmap hmem)
  rw [route_step hroute] at hstep
  exact ⟨targets_nonempty hnew hschedule (List.of_mem_zip hmem).1, hevent, hpipeline, hstep⟩

/-- A target and its absence are written alike when the target is a hyphen. -/
theorem shown_inj {target target' : Option String} (h : target ≠ some "") (h' : target' ≠ some "") :
    shown target = shown target' ↔
      target = target' ∨ (target = none ∧ target' = some "-") ∨ (target = some "-" ∧ target' = none) := by
  have hsome : ∀ text, some text ≠ some "" → shown (some text) = text := by
    intro text htext
    have hne : text ≠ "" := fun hempty => htext (by rw [hempty])
    simp [shown, Option.filter, hne]
  have hnone : shown none = "-" := rfl
  cases target with
  | none =>
      cases target' with
      | none => simp
      | some text' =>
          rw [hnone, hsome text' h']
          simp [eq_comm]
  | some text =>
      cases target' with
      | none =>
          rw [hnone, hsome text h]
          simp
      | some text' =>
          rw [hsome text h, hsome text' h']
          simp

theorem identified_scheduled (hids : ids.Lawful) {f f' : ScheduledCommandFactory} {step step' : String}
    {target target' : Option String}
    {o o' : Occurrence} {c c' : PipelineCommand} (hc : f.Builds ids step target o c) (hc' : f'.Builds ids step' target' o' c') :
    Identified c c' ↔ f.pipeline = f'.pipeline ∧ step = step' ∧ shown target = shown target' ∧ o = o' := by
  obtain ⟨-, hevent, hpipeline, hstep⟩ := builds_scheduled hc
  obtain ⟨-, hevent', hpipeline', hstep'⟩ := builds_scheduled hc'
  rw [identified_iff, hevent, hevent', hids.uuid5_inj, hids.uuid5_inj, hpipeline, hpipeline', hstep, hstep']
  constructor
  · rintro ⟨⟨⟨-, hname⟩, hsteps⟩, hkeyed⟩
    have hstepEq : step = step' := by
      have hlists := congrArg String.toList hsteps
      rw [String.toList_append, String.toList_append] at hlists
      exact String.toList_inj.mp (List.append_cancel_left hlists)
    subst hstepEq
    have hstripped := pieces_inj.mp (List.append_cancel_right hkeyed)
    have hpipelineEq : f.pipeline = f'.pipeline := by
      refine @before_colon _ _ (step ++ ":" ++ shown target ++ ":" ++ o.isoformat)
        (step ++ ":" ++ shown target' ++ ":" ++ o'.isoformat)
        ?_ hstripped
      simpa [String.append_assoc] using hname
    rw [hpipelineEq] at hname
    have hlists := congrArg String.toList hname
    simp only [String.toList_append, List.append_assoc, List.append_cancel_left_eq] at hlists
    obtain ⟨hshown, ho⟩ := before_isoformat hlists
    exact ⟨hpipelineEq, rfl, String.toList_inj.mp hshown, ho⟩
  · rintro ⟨hpipelines, rfl, hshown, rfl⟩
    rw [hpipelines, hshown]
    exact ⟨⟨⟨rfl, rfl⟩, rfl⟩, rfl⟩

inductive Issued (ids : Identifiers) : PipelineCommand → Prop
  | ingress {h : IngressHandler} {sourceId topic : String} {record : CanonicalRecord} {step : String} {c : PipelineCommand}
      (hc : h.Builds ids sourceId topic record step c) : Issued ids c
  | scheduled {f : ScheduledCommandFactory} {step : String} {target : Option String} {o : Occurrence} {c : PipelineCommand}
      (hc : f.Builds ids step target o c) : Issued ids c
  | successor {c d : PipelineCommand} {result : StepResult} {route : StepRoute} (hc : Issued ids c)
      (hd : (downstream ids.uuid5 c result route).validated = .ok d) : Issued ids d

theorem downstream_validated {c d : PipelineCommand} {result : StepResult} {route : StepRoute}
    (h : (downstream ids.uuid5 c result route).validated = .ok d) :
    d.eventId = ids.uuid5 c.eventId ("step:" ++ route.step) ∧ d.pipeline = stripped c.pipeline ∧ d.step = stripped route.step :=
  validated_eq_ok h

theorem issued_named {c : PipelineCommand} (h : Issued ids c) :
    ∃ parent name step, c.eventId = ids.uuid5 parent name ∧ c.step = stripped step ∧ stripped c.pipeline = c.pipeline ∧
      (name = "step:" ++ step ∨
        ∃ pipeline, name = "pipeline" ++ ":" ++ pipeline ++ ":" ++ "step" ++ ":" ++ step ∧ c.pipeline = stripped pipeline) := by
  cases h with
  | ingress hc =>
      obtain ⟨hevent, hpipeline, hstep⟩ := builds_command hc
      exact ⟨_, _, _, hevent, hstep, by rw [hpipeline, stripped_stripped], .inr ⟨_, rfl, hpipeline⟩⟩
  | scheduled hc =>
      obtain ⟨-, hevent, hpipeline, hstep⟩ := builds_scheduled hc
      exact ⟨_, _, _, hevent, hstep, by rw [hpipeline, stripped_stripped], .inl rfl⟩
  | successor _ hd =>
      obtain ⟨hevent, hpipeline, hstep⟩ := downstream_validated hd
      exact ⟨_, _, _, hevent, hstep, by rw [hpipeline, stripped_stripped], .inl rfl⟩

theorem step_name_inj {a b : String} (h : "step:" ++ a = "step:" ++ b) : a = b := by
  have hlists := congrArg String.toList h
  rw [String.toList_append, String.toList_append] at hlists
  exact String.toList_inj.mp (List.append_cancel_left hlists)

theorem step_name_ne {a pipeline b : String} : "step:" ++ a ≠ "pipeline" ++ ":" ++ pipeline ++ ":" ++ "step" ++ ":" ++ b := by
  intro h
  have hhead := congrArg (fun name => name.toList.head?) h
  simp [String.toList_append] at hhead

theorem issued_step (hids : ids.Lawful) {c c' : PipelineCommand} (h : Issued ids c) (h' : Issued ids c')
    (hevent : c.eventId = c'.eventId)
    (hpipeline : c.pipeline = c'.pipeline) : c.step = c'.step := by
  obtain ⟨parent, name, step, hc, hstep, -, hname⟩ := issued_named h
  obtain ⟨parent', name', step', hc', hstep', -, hname'⟩ := issued_named h'
  rw [hc, hc', hids.uuid5_inj] at hevent
  obtain ⟨-, rfl⟩ := hevent
  rw [hstep, hstep']
  rcases hname with rfl | ⟨pipeline, rfl, hp⟩ <;> rcases hname' with hname' | ⟨pipeline', hname', hp'⟩
  · rw [step_name_inj hname']
  · exact absurd hname' step_name_ne
  · exact absurd hname'.symm step_name_ne
  · have hpieces := congrArg pieces hname'
    simp only [pieces_append, List.append_assoc, List.append_cancel_left_eq] at hpieces
    have hstart : pipeline ++ ":" ++ ("step" ++ ":" ++ step) = pipeline' ++ ":" ++ ("step" ++ ":" ++ step') := by
      rw [← pieces_inj]
      simpa only [pieces_append, List.append_assoc] using hpieces
    have hsame := before_colon hstart (by rw [← hp, ← hp', hpipeline])
    rw [hsame, List.append_cancel_left_eq, List.append_cancel_left_eq, pieces_inj] at hpieces
    rw [hpieces]

/-- Commands that follow different commands, or lead to different steps, differ. -/
theorem successors_differ (hids : ids.Lawful) {c c' d d' : PipelineCommand} {result result' : StepResult} {route route' : StepRoute}
    (h : Issued ids c) (h' : Issued ids c') (hd : (downstream ids.uuid5 c result route).validated = .ok d)
    (hd' : (downstream ids.uuid5 c' result' route').validated = .ok d') (hsame : Identified d d') :
    Identified c c' ∧ route.step = route'.step := by
  obtain ⟨hevent, hpipeline, hstep⟩ := downstream_validated hd
  obtain ⟨hevent', hpipeline', hstep'⟩ := downstream_validated hd'
  rw [identified_iff, hevent, hevent', hids.uuid5_inj, hpipeline, hpipeline', hstep, hstep'] at hsame
  obtain ⟨⟨hparent, hname⟩, hkeyed⟩ := hsame
  have hroute := step_name_inj hname
  rw [hroute] at hkeyed
  have hpipelines := pieces_inj.mp (List.append_cancel_right hkeyed)
  obtain ⟨-, -, -, -, -, hstripped, -⟩ := issued_named h
  obtain ⟨-, -, -, -, -, hstripped', -⟩ := issued_named h'
  rw [hstripped, hstripped'] at hpipelines
  have hsteps := issued_step hids h h' hparent hpipelines
  refine ⟨identified_iff.mpr ⟨hparent, ?_⟩, hroute⟩
  rw [hpipelines, hsteps]

/-- The ledger's key tells the identifier. -/
theorem identified_of_key (hids : ids.Lawful) {c c' : PipelineCommand} (h : Issued ids c) (h' : Issued ids c')
    (hkey : c.idempotencyKey = c'.idempotencyKey) : Identified c c' := by
  obtain ⟨parent, name, -, hevent, -⟩ := issued_named h
  obtain ⟨parent', name', -, hevent', -⟩ := issued_named h'
  refine ⟨?_, hkey⟩
  have hpieces := congrArg pieces hkey
  rw [pieces_key, pieces_key, hevent, hevent', pieces_plain (hids.plain _ _), pieces_plain (hids.plain _ _)] at hpieces
  rw [hevent, hevent']
  exact String.toList_inj.mp (List.cons.inj hpieces).1

/-- Commands of records are told apart unless their different works read alike,
those of schedules unless a hyphen stands for a target once and for none once,
and those of successors always. -/
theorem command_identity (ids : Identifiers) (hids : ids.Lawful) :
    (∀ (h h' : IngressHandler) (sourceId sourceId' topic topic' step step' : String) (record record' : CanonicalRecord)
      (c c' : PipelineCommand), h.Builds ids sourceId topic record step c → h'.Builds ids sourceId' topic' record' step' c' →
      ((Identified c c' ↔ h.work ids sourceId record step = h'.work ids sourceId' record' step') ↔
        (Blurred ids (h.work ids sourceId record step) (h'.work ids sourceId' record' step') →
          h.work ids sourceId record step = h'.work ids sourceId' record' step'))) ∧
    (∀ (f f' : ScheduledCommandFactory) (step step' : String) (target target' : Option String) (o o' : Occurrence)
      (c c' : PipelineCommand), f.Builds ids step target o c → f'.Builds ids step' target' o' c' →
      ((Identified c c' ↔ f.pipeline = f'.pipeline ∧ step = step' ∧ target = target' ∧ o = o') ↔
        ¬(f.pipeline = f'.pipeline ∧ step = step' ∧ o = o' ∧
          ((target = none ∧ target' = some "-") ∨ (target = some "-" ∧ target' = none))))) ∧
    (∀ (c c' d d' : PipelineCommand) (result result' : StepResult) (route route' : StepRoute), Issued ids c → Issued ids c' →
      (downstream ids.uuid5 c result route).validated = .ok d → (downstream ids.uuid5 c' result' route').validated = .ok d' →
      Identified d d' → Identified c c' ∧ route.step = route'.step) ∧
    ∀ c c' : PipelineCommand, Issued ids c → Issued ids c' → c.idempotencyKey = c'.idempotencyKey → Identified c c' := by
  refine ⟨?_, ?_, ?_, fun c c' h h' => identified_of_key hids h h'⟩
  · intro h h' sourceId sourceId' topic topic' step step' record record' c c' hc hc'
    rw [identified_ingress hids hc hc']
    refine ⟨fun h => h.mp, fun h => ⟨h, fun hsame => ?_⟩⟩
    rw [hsame]
    exact blurred_refl ids _
  · intro f f' step step' target target' o o' c c' hc hc'
    have hshown := shown_inj (builds_scheduled hc).1 (builds_scheduled hc').1
    rw [identified_scheduled hids hc hc', hshown]
    constructor
    · rintro h ⟨hpipeline, hstep, ho, hhyphen⟩
      obtain ⟨-, -, hsame, -⟩ := h.mp ⟨hpipeline, hstep, .inr hhyphen, ho⟩
      rw [hsame] at hhyphen
      rcases hhyphen with ⟨hnone, hsome⟩ | ⟨hsome, hnone⟩
      · rw [hnone] at hsome
        cases hsome
      · rw [hnone] at hsome
        cases hsome
    · intro h
      constructor
      · rintro ⟨hpipeline, hstep, hsame | hhyphen, ho⟩
        · exact ⟨hpipeline, hstep, hsame, ho⟩
        · exact absurd ⟨hpipeline, hstep, ho, hhyphen⟩ h
      · rintro ⟨hpipeline, hstep, hsame, ho⟩
        exact ⟨hpipeline, hstep, .inl hsame, ho⟩
  · intro c c' d d' result result' route route' h h' hd hd' hsame
    exact successors_differ hids h h' hd hd' hsame

def mergeRoutes : RouteTable :=
  ⟨[⟨"merge", .forward, .cpu, ["mail", "mail:eu"], [], false, 0⟩], [("mail", ["merge"]), ("mail:eu", ["merge"])], [], []⟩

def mergeHandler : IngressHandler := ⟨"acme/mail/revision-000000000001", mergeRoutes⟩

def mailRecord (recordId : String) : CanonicalRecord := ⟨recordId, "acme", "text", none, none, .null⟩

def mergeCommand (ids : Identifiers) (sourceId recordId : String) : PipelineCommand where
  eventId := ids.uuid5 (ids.uuid5 ids.namespaceUrl ("acme" ++ ":" ++ sourceId ++ ":" ++ recordId))
    ("pipeline" ++ ":" ++ "acme/mail/revision-000000000001" ++ ":" ++ "step" ++ ":" ++ "merge")
  correlationId := ids.uuid5 ids.namespaceUrl ("acme" ++ ":" ++ sourceId ++ ":" ++ recordId)
  causationId := some (ids.uuid5 ids.namespaceUrl ("acme" ++ ":" ++ sourceId ++ ":" ++ recordId))
  tenantId := "acme"
  entityId := some recordId
  pipeline := "acme/mail/revision-000000000001"
  step := "merge"
  stepType := .forward
  resourceClass := .cpu
  attempt := 0
  payload := [("record", .null)]
  attributes := (mailRecord recordId).attributes sourceId "raw"

theorem mergeCommand_built (ids : Identifiers) {sourceId recordId : String}
    (hsource : mergeRoutes.entrySteps sourceId = .ok ["merge"])
    (hrecord : eventText recordId = .ok recordId) :
    mergeHandler.Builds ids sourceId "raw" (mailRecord recordId) "merge" (mergeCommand ids sourceId recordId) := by
  have htenant : eventText "acme" = .ok "acme" := by decide
  have hpipeline : eventText "acme/mail/revision-000000000001" = .ok "acme/mail/revision-000000000001" := by decide
  have hstep : eventText "merge" = .ok "merge" := by decide
  refine ⟨["merge"], [mergeCommand ids sourceId recordId], hsource, ?_, by simp⟩
  have hroute : mergeRoutes.route "merge" = .ok ⟨"merge", .forward, .cpu, ["mail", "mail:eu"], [], false, 0⟩ := rfl
  simp only [IngressHandler.commands, mergeHandler, hsource, ok_bind, List.mapM_cons, List.mapM_nil, IngressHandler.command, hroute,
    PipelineCommand.validated, mailRecord, htenant, optionalText, hrecord, hpipeline, hstep]
  rfl

/-- Each character as a run, and a pair behind the length of its first text. -/
def spell (value : String) : List Char := value.toList.flatMap fun c => List.replicate c.toNat 'a' ++ ['b']

theorem run_inj {m n : Nat} {x y : List Char} (h : List.replicate m 'a' ++ 'b' :: x = List.replicate n 'a' ++ 'b' :: y) :
    m = n ∧ x = y := by
  induction m generalizing n with
  | zero =>
      cases n with
      | zero => exact ⟨rfl, (List.cons.inj h).2⟩
      | succ n => exact absurd (List.cons.inj h).1 (by decide)
  | succ m ih =>
      cases n with
      | zero => exact absurd (List.cons.inj h).1 (by decide)
      | succ n =>
          obtain ⟨hmn, hxy⟩ := ih (List.cons.inj h).2
          exact ⟨by rw [hmn], hxy⟩

theorem spell_inj {a b : String} (h : spell a = spell b) : a = b := by
  rw [← String.toList_inj]
  simp only [spell] at h
  generalize a.toList = cs at h
  generalize b.toList = ds at h
  induction cs generalizing ds with
  | nil =>
      cases ds with
      | nil => rfl
      | cons d ds => simp at h
  | cons c cs ih =>
      cases ds with
      | nil => simp at h
      | cons d ds =>
          simp only [List.flatMap_cons, List.append_assoc, List.singleton_append] at h
          obtain ⟨hcd, hrest⟩ := run_inj h
          rw [Char.toNat_inj.mp hcd, ih ds hrest]

def spelled : Identifiers where
  parse := fun _ => none
  uuid5 := fun parent name => String.ofList (List.replicate parent.length 'a' ++ 'b' :: spell (parent ++ name))
  namespaceUrl := "6ba7b811-9dad-11d1-80b4-00c04fd430c8"

/-- A colon of a source and a colon of a record. -/
theorem mail_records_confused :
    mergeHandler.Builds spelled "mail" "raw" (mailRecord "eu:7") "merge" (mergeCommand spelled "mail" "eu:7") ∧
      mergeHandler.Builds spelled "mail:eu" "raw" (mailRecord "7") "merge" (mergeCommand spelled "mail:eu" "7") ∧
      Identified (mergeCommand spelled "mail" "eu:7") (mergeCommand spelled "mail:eu" "7") ∧
      mergeHandler.work spelled "mail" (mailRecord "eu:7") "merge" ≠
        mergeHandler.work spelled "mail:eu" (mailRecord "7") "merge" := by
  refine ⟨mergeCommand_built spelled rfl (by decide), mergeCommand_built spelled rfl (by decide), ⟨?_, ?_⟩, ?_⟩
  · have hname : "acme" ++ ":" ++ "mail" ++ ":" ++ "eu:7" = "acme" ++ ":" ++ "mail:eu" ++ ":" ++ "7" := rfl
    simp only [mergeCommand, hname]
  · have hname : "acme" ++ ":" ++ "mail" ++ ":" ++ "eu:7" = "acme" ++ ":" ++ "mail:eu" ++ ":" ++ "7" := rfl
    simp only [PipelineCommand.idempotencyKey, mergeCommand, hname]
  · intro h
    have hsource : "mail" = "mail:eu" := congrArg IngressWork.source h
    exact absurd hsource (by decide)

theorem spelled_lawful : spelled.Lawful := by
  constructor
  · intro parent name parent' name' h
    obtain ⟨hlength, hspelled⟩ := run_inj (String.ofList_injective h)
    have hlists := congrArg String.toList (spell_inj hspelled)
    rw [String.toList_append, String.toList_append] at hlists
    obtain ⟨hparent, hname⟩ := List.append_inj hlists hlength
    exact ⟨String.toList_inj.mp hparent, String.toList_inj.mp hname⟩
  · intro parent name hmem
    have hplain : ∀ n, ':' ∉ List.replicate n 'a' := fun n h => absurd (List.eq_of_mem_replicate h) (by decide)
    simp [spelled, spell, hplain] at hmem

/-- Two records of one source, of which neither is taken for the other. -/
theorem command_identity_records :
    spelled.Lawful ∧
      (Identified (mergeCommand spelled "mail" "7") (mergeCommand spelled "mail" "8") ↔
        mergeHandler.work spelled "mail" (mailRecord "7") "merge" = mergeHandler.work spelled "mail" (mailRecord "8") "merge") := by
  refine ⟨spelled_lawful, ((command_identity spelled spelled_lawful).1 mergeHandler mergeHandler "mail" "mail" "raw" "raw" "merge"
    "merge" (mailRecord "7") (mailRecord "8") _ _ (mergeCommand_built spelled rfl (by decide))
    (mergeCommand_built spelled rfl (by decide))).mpr fun h => ?_⟩
  exact absurd h.record (by decide)

end Galadril.Execution
