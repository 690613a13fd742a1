import Galadril.Pengolo.Deletion
import Galadril.Pengolo.Logs

namespace Galadril.Pengolo

open Json Lib.Checked Lib.Transitions

variable {env : Engine} {g g' : Generation} {log : List OutputEvent} {event : OutputEvent}

def Generation.over (base g : Generation) : Generation :=
  { base with
    sequence := g.sequence
    response := g.response
    toolCheckpoints := g.toolCheckpoints
    activityKinds := g.activityKinds
    emailDrafts := g.emailDrafts }

def Generation.blank (g : Generation) : Generation :=
  { g with
    sequence := 0
    response := ""
    toolCheckpoints := []
    activityKinds := []
    emailDrafts := [] }

def Replays (env : Engine) (g : Generation) (log : List OutputEvent) : Prop := log.foldlM (advance env) g.blank = .ok g

def written (log : List OutputEvent) : String := (log.filter (·.kind = .content)).foldl (fun text e => text ++ e.content) ""

theorem advance_over (base g : Generation) (event : OutputEvent) :
    advance env (base.over g) event = (advance env g event).map base.over := by
  simp only [advance]
  have hsequence : (base.over g).sequence = g.sequence := rfl
  rw [hsequence]
  by_cases hgap : (event.sequence == (g.sequence : Int) + 1) = true
  · simp only [ensure, hgap, if_true]
    cases event.kind with
    | content =>
        simp only [addContent, ensure]
        have hresponse : ((base.over g).withSequence (g.sequence + 1)).response = (g.withSequence (g.sequence + 1)).response := rfl
        rw [hresponse]
        split <;> rfl
    | tool =>
        simp only [addTool, ensure]
        split
        · have hcheckpoints : ((base.over g).withSequence (g.sequence + 1)).toolCheckpoints =
            (g.withSequence (g.sequence + 1)).toolCheckpoints := rfl
          rw [hcheckpoints]
          change Except.ok _ = Except.map _ (Except.ok _)
          rw [Except.map]
          congr 1
          split <;> rfl
        · rfl
    | activity =>
        simp only [addActivity]
        cases env.activity event.content with
        | error e => rfl
        | ok activity =>
            cases activity with
            | emailDraft =>
                change Except.bind _ _ = Except.map _ (Except.bind _ _)
                have hdrafts : ((base.over g).withSequence (g.sequence + 1)).emailDrafts =
                  (g.withSequence (g.sequence + 1)).emailDrafts := rfl
                simp only [ensure, hdrafts]
                split <;> rfl
            | webResearch | warning | python | question | silent => rfl
    | completed | failed | cancelled => rfl
    | heartbeat | other => rfl
  · simp only [ensure, if_neg hgap]
    rfl

theorem foldlM_over (base : Generation) (g : Generation) (log : List OutputEvent) :
    log.foldlM (advance env) (base.over g) = (log.foldlM (advance env) g).map base.over := by
  induction log generalizing g with
  | nil => rfl
  | cons e log ih =>
      rw [List.foldlM_cons, List.foldlM_cons, advance_over]
      cases advance env g e with
      | error _ => rfl
      | ok a => exact ih a

/-- A record may change beside its output. -/
theorem Replays.over (h : Replays env g log) (hg : g'.over g = g') : Replays env g' log := by
  have hblank : g'.blank = g'.over g.blank := rfl
  rw [Replays, hblank, foldlM_over, h]
  exact congrArg Except.ok hg

theorem advance_blank (h : advance env g event = .ok g') : g'.blank = g.blank ∧ g.over g' = g' := by
  have hover : advance env (g.over g) event = (advance env g event).map g.over := advance_over g g event
  have hself : g.over g = g := rfl
  rw [hself, h] at hover
  have heq : g' = g.over g' := Except.ok.inj hover
  refine ⟨?_, heq.symm⟩
  rw [heq]
  rfl

theorem Replays.snoc (h : Replays env g log) (ha : advance env g event = .ok g') : Replays env g' (log ++ [event]) := by
  rw [Replays, (advance_blank ha).1, List.foldlM_append, h]
  change Except.bind (advance env g event) _ = _
  rw [ha]
  rfl

section Turns

structure Line where
  role : Role
  generationId : String
  text : String
  status : Status
deriving DecidableEq

def Message.line (m : Message) : Line := ⟨m.role, m.generationId, m.text, m.status⟩

def Generation.outcome (g : Generation) : Option Status := if g.status.terminal = true then some g.status else none

def Generation.turn (g : Generation) : List Line :=
  ⟨.user, g.id, g.input.prompt, g.outcome.getD .pending⟩ :: g.outcome.toList.map fun outcome =>
    ⟨.assistant, g.id, g.response, outcome⟩

structure Logged (env : Engine) (g : Generation) (log : List OutputEvent) : Prop where
  replays : Replays env g log
  ended : (log.getLast?.bind fun e => e.kind.outcome) = g.outcome
  earlier : ∀ e ∈ log.dropLast, e.kind.outcome = none

/-- A conversation tells the turns of its generations in their order, and only
the last one may be without an answer. -/
structure Transcript (s : Store) (t : Bool) (c : Chat) (gs : List Generation) : Prop where
  rows : ∀ g, g ∈ gs ↔ s.generations t g.id = some g ∧ g.chatId = c.id
  distinct : (gs.map Generation.id).Nodup
  told : c.messages.map Message.line = gs.flatMap Generation.turn
  named : ∀ m ∈ c.messages, m.role = .user → m.id = m.generationId
  apart : ∀ m ∈ c.messages, m.role = .assistant → ∀ g ∈ gs, m.id ≠ g.id
  answered : ∀ g ∈ gs.dropLast, g.outcome ≠ none
  active : c.activeGeneration = (gs.getLast?.filter fun g => g.outcome.isNone).map Generation.id

variable {env : Engine} {s s' : Store} {t : Bool} {c c' : Chat} {g g' : Generation} {gs : List Generation} {log : List OutputEvent}

theorem outcome_eq_none : g.outcome = none ↔ g.status.terminal = false := by
  rw [Generation.outcome]
  split
  · next h => simp [h]
  · next h => simpa using h

theorem kind_outcome_terminal {kind : EventKind} {outcome : Status} (h : kind.outcome = some outcome) :
    outcome.terminal = true := by
  cases kind <;> simp [EventKind.outcome] at h <;> subst h <;> rfl

theorem outcome_of_event {event : OutputEvent} (h : g.status = event.kind.outcome.getD .running) :
    g.outcome = event.kind.outcome := by
  rw [Generation.outcome, h]
  cases ho : event.kind.outcome with
  | none => rfl
  | some outcome => rw [Option.getD_some, if_pos (kind_outcome_terminal ho)]

theorem Logged.over (h : Logged env g log) (hg : g'.over g = g') (houtcome : g'.outcome = g.outcome) : Logged env g' log :=
  ⟨h.replays.over hg, h.ended.trans houtcome.symm, h.earlier⟩

/-- No event of a running generation ends it. -/
theorem Logged.quiet (h : Logged env g log) (hlive : g.outcome = none) : ∀ e ∈ log, e.kind.outcome = none := by
  intro e he
  rcases List.eq_nil_or_concat log with rfl | ⟨init, last, rfl⟩
  · exact absurd he List.not_mem_nil
  · have hlast := h.ended
    have hearlier := h.earlier
    rw [List.concat_eq_append] at he hlast hearlier
    rw [List.getLast?_append_of_ne_nil _ (List.cons_ne_nil _ _), hlive] at hlast
    rw [List.dropLast_concat] at hearlier
    rcases List.mem_append.mp he with he | he
    · exact hearlier e he
    · obtain rfl := List.mem_singleton.mp he
      exact hlast

theorem Logged.snoc (h : Logged env g log) (hlive : g.outcome = none) {event : OutputEvent} {a : Generation}
    (ha : advance env g event = .ok a) (hg : g'.over a = g') (houtcome : g'.outcome = event.kind.outcome) :
    Logged env g' (log ++ [event]) where
  replays := (h.replays.snoc ha).over hg
  ended := by
    rw [List.getLast?_append_of_ne_nil _ (List.cons_ne_nil _ _), houtcome]
    rfl
  earlier := by
    rw [List.dropLast_concat]
    exact h.quiet hlive

theorem mem_of_lines {ms ms' : List Message} (h : ms'.map (fun m => (m.id, m.line)) = ms.map fun m => (m.id, m.line)) {m' : Message}
    (hm' : m' ∈ ms') : ∃ m ∈ ms, m.id = m'.id ∧ m.line = m'.line := by
  have hmem : (m'.id, m'.line) ∈ ms.map fun m => (m.id, m.line) := h ▸ List.mem_map_of_mem hm'
  obtain ⟨m, hm, heq⟩ := List.mem_map.mp hmem
  exact ⟨m, hm, congrArg Prod.fst heq, congrArg Prod.snd heq⟩

/-- Rows and conversation may change beside what is told. -/
theorem Transcript.mapped (h : Transcript s t c gs) (hk : Keyed s) {f : Generation → Generation}
    (hrows : ∀ i, s'.generations t i = (s.generations t i).map f)
    (hf : ∀ g, s.generations t g.id = some g → (f g).id = g.id ∧ (f g).chatId = g.chatId ∧ (f g).turn = g.turn ∧
      (f g).outcome = g.outcome)
    (hid : c'.id = c.id) (hactive : c'.activeGeneration = c.activeGeneration)
    (hmessages : c'.messages.map (fun m => (m.id, m.line)) = c.messages.map fun m => (m.id, m.line)) :
    Transcript s' t c' (gs.map f) := by
  have hgs : ∀ g ∈ gs, (f g).id = g.id ∧ (f g).chatId = g.chatId ∧ (f g).turn = g.turn ∧ (f g).outcome = g.outcome :=
    fun g hg => hf g ((h.rows g).mp hg).1
  have hlines : c'.messages.map Message.line = c.messages.map Message.line := by
    have hsnd := congrArg (List.map Prod.snd) hmessages
    rw [List.map_map, List.map_map] at hsnd
    exact hsnd
  refine ⟨fun g' => ⟨fun hg' => ?_, ?_⟩, ?_, ?_, fun m' hm' hrole => ?_, fun m' hm' hrole g' hg' => ?_, fun g' hg' => ?_, ?_⟩
  · obtain ⟨g, hg, rfl⟩ := List.mem_map.mp hg'
    obtain ⟨hgid, hchat, -⟩ := hgs g hg
    obtain ⟨hrow, hhere⟩ := (h.rows g).mp hg
    exact ⟨by rw [hrows, hgid, hrow, Option.map_some], by rw [hchat, hhere, hid]⟩
  · rintro ⟨hrow, hhere⟩
    rw [hrows] at hrow
    obtain ⟨g, hg, rfl⟩ := Option.map_eq_some_iff.mp hrow
    have hkey := hk.generation t _ g hg
    rw [← hkey] at hg
    exact List.mem_map_of_mem ((h.rows g).mpr ⟨hg, by rw [← (hf g hg).2.1, hhere, hid]⟩)
  · have hids : (gs.map f).map Generation.id = gs.map Generation.id := by
      rw [List.map_map]
      exact List.map_congr_left fun g hg => (hgs g hg).1
    rw [hids]
    exact h.distinct
  · rw [hlines, h.told, List.flatMap_map]
    exact List.flatMap_congr fun g hg => ((hgs g hg).2.2.1).symm
  · obtain ⟨m, hm, hmid, hline⟩ := mem_of_lines hmessages hm'
    rw [← hmid, h.named m hm ((congrArg Line.role hline).trans hrole)]
    exact congrArg Line.generationId hline
  · obtain ⟨m, hm, hmid, hline⟩ := mem_of_lines hmessages hm'
    obtain ⟨g, hg, rfl⟩ := List.mem_map.mp hg'
    rw [← hmid, (hgs g hg).1]
    exact h.apart m hm ((congrArg Line.role hline).trans hrole) g hg
  · rw [← List.map_dropLast] at hg'
    obtain ⟨g, hg, rfl⟩ := List.mem_map.mp hg'
    rw [(hgs g (List.mem_of_mem_dropLast hg)).2.2.2]
    exact h.answered g hg
  · rw [hactive, h.active, List.getLast?_map]
    cases hlast : gs.getLast? with
    | none => rfl
    | some g =>
        obtain ⟨hgid, -, -, houtcome⟩ := hgs g (List.mem_of_getLast? hlast)
        simp only [Option.map_some, Option.filter_some, houtcome]
        split <;> simp [hgid]

theorem Transcript.congr (h : Transcript s t c gs)
    (hrows : ∀ g, g.chatId = c.id → (s'.generations t g.id = some g ↔ s.generations t g.id = some g)) : Transcript s' t c gs :=
  ⟨fun g => (h.rows g).trans (and_congr_left fun hg => (hrows g hg).symm), h.distinct, h.told, h.named, h.apart,
    h.answered, h.active⟩

theorem Transcript.prompted (h : Transcript s t c gs) (hg : g ∈ gs) : ∃ m ∈ c.messages, m.role = .user ∧ m.id = g.id := by
  have hline : (⟨.user, g.id, g.input.prompt, g.outcome.getD .pending⟩ : Line) ∈ c.messages.map Message.line := by
    rw [h.told]
    exact List.mem_flatMap.mpr ⟨g, hg, List.mem_cons_self⟩
  obtain ⟨m, hm, hmline⟩ := List.mem_map.mp hline
  have hrole : m.role = .user := congrArg Line.role hmline
  exact ⟨m, hm, hrole, (h.named m hm hrole).trans (congrArg Line.generationId hmline)⟩

/-- A running generation is the last one. -/
theorem Transcript.eq_snoc (h : Transcript s t c gs) (hg : g ∈ gs) (hlive : g.outcome = none) : ∃ init, gs = init ++ [g] := by
  rcases List.eq_nil_or_concat gs with rfl | ⟨init, last, rfl⟩
  · exact absurd hg List.not_mem_nil
  · rw [List.concat_eq_append] at hg ⊢
    have hanswered := h.answered
    rw [List.concat_eq_append, List.dropLast_concat] at hanswered
    rcases List.mem_append.mp hg with hg | hg
    · exact absurd hlive (hanswered g hg)
    · exact ⟨init, by rw [List.mem_singleton.mp hg]⟩

theorem markMessage_snoc {id : String} {status : Status} {ms : List Message} (hms : ∀ m ∈ ms, m.id ≠ id)
    {m : Message} (hm : m.id = id) :
    markMessage id status (ms ++ [m]) = ms ++ [{ m with status }] := by
  induction ms with
  | nil => rw [List.nil_append, markMessage, if_pos hm, List.nil_append]
  | cons x ms ih =>
      rw [List.cons_append, markMessage, if_neg (hms x List.mem_cons_self), ih fun m hm => hms m (List.mem_cons_of_mem _ hm)]
      rfl

def HasRow (s s' : Store) (t : Bool) (g : Generation) : Prop :=
  ∀ i, s'.generations t i = if i = g.id then some g else s.generations t i

/-- The end of a generation marks its prompt and adds its answer. -/
theorem Transcript.conclude (h : Transcript s t c gs) (c' : Chat) (hg : g ∈ gs) (hlive : g.outcome = none)
    (hrows : HasRow s s' t g')
    (hid : g'.id = g.id) (hchat : g'.chatId = g.chatId) (hprompt : g'.input.prompt = g.input.prompt) {outcome : Status}
    (houtcome : g'.outcome = some outcome) (hcid : c'.id = c.id) (hactive : c'.activeGeneration = none) {m : Message}
    (hmessages : c'.messages = markMessage g.id outcome c.messages ++ [m])
    (hm : m.line = ⟨.assistant, g.id, g'.response, outcome⟩) (hfresh : ∀ x ∈ c.messages, x.id ≠ m.id) :
    ∃ init, Transcript s' t c' (init ++ [g']) := by
  obtain ⟨init, rfl⟩ := h.eq_snoc hg hlive
  have hdistinct := h.distinct
  rw [List.map_append, List.nodup_append] at hdistinct
  have hother : ∀ x ∈ init, x.id ≠ g.id := fun x hx => hdistinct.2.2 _ (List.mem_map_of_mem hx) _ (by simp)
  have htold := h.told
  rw [List.flatMap_append, List.flatMap_singleton, Generation.turn, hlive] at htold
  obtain ⟨ms, last, hsplit, hms, hlast⟩ := List.map_eq_append_iff.mp htold
  obtain ⟨prompt, rfl, hprompted⟩ := List.map_eq_singleton_iff.mp hlast
  have hrole : prompt.role = .user := congrArg Line.role hprompted
  have hmem : ∀ x ∈ ms, x ∈ c.messages := fun x hx => hsplit ▸ List.mem_append_left _ hx
  have hpmem : prompt ∈ c.messages := hsplit ▸ List.mem_append_right _ (List.mem_singleton_self _)
  have hpid : prompt.id = g.id := (h.named prompt hpmem hrole).trans (congrArg Line.generationId hprompted)
  have hmsid : ∀ x ∈ ms, x.id ≠ g.id := by
    intro x hx
    cases hxrole : x.role with
    | assistant => exact h.apart x (hmem x hx) hxrole g hg
    | user =>
        rw [h.named x (hmem x hx) hxrole]
        have hline : x.line ∈ init.flatMap Generation.turn := hms ▸ List.mem_map_of_mem hx
        obtain ⟨y, hy, hyline⟩ := List.mem_flatMap.mp hline
        have hyid : x.generationId = y.id := by
          rcases List.mem_cons.mp hyline with heq | heq
          · exact congrArg Line.generationId heq
          · obtain ⟨o, -, heq⟩ := List.mem_map.mp heq
            exact (congrArg Line.generationId heq).symm
        rw [hyid]
        exact hother y hy
  rw [hsplit, markMessage_snoc hmsid hpid] at hmessages
  have hmrole : m.role = .assistant := congrArg Line.role hm
  refine ⟨init, fun x => ?_, ?_, ?_, fun x hx hxrole => ?_, fun x hx hxrole y hy => ?_, fun x hx => ?_, ?_⟩
  · rw [hrows, List.mem_append, List.mem_singleton]
    by_cases hx : x.id = g'.id
    · rw [if_pos hx]
      have hnot : x ∉ init := fun hin => hother x hin (hx.trans hid)
      constructor
      · intro hmem
        obtain rfl := hmem.resolve_left hnot
        exact ⟨rfl, hchat.trans (((h.rows g).mp hg).2.trans hcid.symm)⟩
      · rintro ⟨heq, -⟩
        exact .inr (Option.some.inj heq).symm
    · rw [if_neg hx, hcid, ← h.rows x, List.mem_append, List.mem_singleton]
      refine or_congr_right ⟨fun heq => absurd (congrArg Generation.id heq) hx, ?_⟩
      rintro rfl
      exact absurd hid.symm hx
  · rw [List.map_append, List.map_singleton, hid, List.nodup_append]
    exact hdistinct
  · rw [hmessages, List.flatMap_append, List.flatMap_singleton, Generation.turn, houtcome, List.map_append, List.map_append, hms,
      List.append_assoc]
    refine congrArg _ ?_
    have hpline : ({ prompt with status := outcome } : Message).line = ⟨.user, g'.id, g'.input.prompt, outcome⟩ := by
      rw [hid, hprompt]
      exact congrArg (fun line : Line => { line with status := outcome }) hprompted
    simp only [List.map_singleton, hpline, hm, hid]
    rfl
  · rw [hmessages] at hx
    rcases List.mem_append.mp hx with hx | hx
    · rcases List.mem_append.mp hx with hx | hx
      · exact h.named x (hmem x hx) hxrole
      · obtain rfl := List.mem_singleton.mp hx
        exact h.named prompt hpmem hrole
    · obtain rfl := List.mem_singleton.mp hx
      rw [hmrole] at hxrole
      cases hxrole
  · have hyid : ∃ z ∈ init ++ [g], z.id = y.id := by
      rcases List.mem_append.mp hy with hy | hy
      · exact ⟨y, List.mem_append_left _ hy, rfl⟩
      · exact ⟨g, hg, by rw [List.mem_singleton.mp hy, hid]⟩
    obtain ⟨z, hz, hzid⟩ := hyid
    rw [← hzid]
    rw [hmessages] at hx
    rcases List.mem_append.mp hx with hx | hx
    · rcases List.mem_append.mp hx with hx | hx
      · exact h.apart x (hmem x hx) hxrole z hz
      · obtain rfl := List.mem_singleton.mp hx
        rw [show prompt.role = .assistant from hxrole] at hrole
        cases hrole
    · obtain ⟨p, hp, -, hpz⟩ := h.prompted hz
      rw [List.mem_singleton.mp hx, ← hpz]
      exact (hfresh p hp).symm
  · have hanswered := h.answered
    rw [List.dropLast_concat] at hx hanswered
    exact hanswered x hx
  · rw [hactive, List.getLast?_concat, Option.filter_some, houtcome]
    rfl

theorem Transcript.prompt (h : Transcript s t c gs) (c' : Chat) (habsent : s.generations t g.id = none) (hrows : HasRow s s' t g)
    (hchat : g.chatId = c.id) (hlive : g.outcome = none) (hidle : c.activeGeneration = none) (hcid : c'.id = c.id)
    (hactive : c'.activeGeneration = some g.id) {m : Message} (hmessages : c'.messages = c.messages ++ [m])
    (hm : m.line = ⟨.user, g.id, g.input.prompt, .pending⟩) (hmid : m.id = g.id)
    (hapart : ∀ x ∈ c.messages, x.role = .assistant → x.id ≠ g.id) : Transcript s' t c' (gs ++ [g]) := by
  have hnew : ∀ x ∈ gs, x.id ≠ g.id := by
    intro x hx heq
    have hrow := ((h.rows x).mp hx).1
    rw [heq, habsent] at hrow
    cases hrow
  have hmrole : m.role = .user := congrArg Line.role hm
  refine ⟨fun x => ?_, ?_, ?_, fun x hx hxrole => ?_, fun x hx hxrole y hy => ?_, fun x hx => ?_, ?_⟩
  · rw [hrows, List.mem_append, List.mem_singleton]
    by_cases hx : x.id = g.id
    · rw [if_pos hx]
      have hnot : x ∉ gs := fun hin => hnew x hin hx
      constructor
      · intro hmem
        obtain rfl := hmem.resolve_left hnot
        exact ⟨rfl, hchat.trans hcid.symm⟩
      · rintro ⟨heq, -⟩
        exact .inr (Option.some.inj heq).symm
    · rw [if_neg hx, hcid, ← h.rows x]
      refine or_iff_left ?_
      rintro rfl
      exact hx rfl
  · rw [List.map_append, List.map_singleton, List.nodup_append]
    refine ⟨h.distinct, List.nodup_singleton _, fun i hi j hj => ?_⟩
    obtain ⟨x, hx, rfl⟩ := List.mem_map.mp hi
    rw [List.mem_singleton.mp hj]
    exact hnew x hx
  · rw [hmessages, List.map_append, h.told, List.flatMap_append, List.flatMap_singleton, List.map_singleton, hm,
      Generation.turn, hlive]
    rfl
  · rw [hmessages] at hx
    rcases List.mem_append.mp hx with hx | hx
    · exact h.named x hx hxrole
    · obtain rfl := List.mem_singleton.mp hx
      exact hmid.trans (congrArg Line.generationId hm).symm
  · rw [hmessages] at hx
    rcases List.mem_append.mp hx with hx | hx
    · rcases List.mem_append.mp hy with hy | hy
      · exact h.apart x hx hxrole y hy
      · exact List.mem_singleton.mp hy ▸ hapart x hx hxrole
    · obtain rfl := List.mem_singleton.mp hx
      rw [hmrole] at hxrole
      cases hxrole
  · rw [List.dropLast_concat] at hx
    intro hrunning
    obtain ⟨init, rfl⟩ := h.eq_snoc hx hrunning
    have hactive := h.active
    rw [hidle, List.getLast?_concat, Option.filter_some, hrunning] at hactive
    cases hactive
  · rw [hactive, List.getLast?_concat, Option.filter_some, hlive]
    rfl

end Turns

end Galadril.Pengolo
