import Galadril.Pengolo.Protocol

namespace Galadril.Pengolo

open Json Lib.Checked Lib.Transitions

structure Page where
  events : List OutputEvent
  status : Status
  generationId : String
  message : Option Message
  chatRevision : Option Int
  chatUpdatedAt : Option Int
  canAnswer : Bool

def isAnswer (id : String) (m : Message) : Bool := m.role = .assistant && m.generationId = id

def lastOutcome (events : List OutputEvent) : Option Status := events.getLast?.bind fun e => e.kind.outcome

def replayProjection (chat : Chat) (id : String) (status : Status) (events : List OutputEvent) : Page :=
  let status := (lastOutcome events).getD status
  { events
    status
    generationId := id
    message := if status.terminal then chat.messages.find? (isAnswer id) else none
    chatRevision := if status.terminal then some chat.revision else none
    chatUpdatedAt := if status.terminal then some chat.updatedAt else none
    canAnswer := false }

def cursorOf (events : List OutputEvent) (after : Int) : Int := (events.getLast?.map OutputEvent.sequence).getD after

def answerAuthority (owner user : String) (status : Status) : Bool := owner = user && !status.terminal

def replyWith (user : String) (after : Int) (g : Generation) (chat : Chat) (id : String) (events : List OutputEvent) : Page :=
  let status := if (g.sequence : Int) ≤ cursorOf events after then g.status else .running
  { replayProjection chat id status events with canAnswer := answerAuthority g.ownerId user status }

def Chat.visible (visible : Message → Bool) (c : Chat) : Chat := { c with messages := c.messages.filter visible }

/-- The reads of one call, which other transactions may come between. -/
inductive Reading
  | start
  | generation (g : Generation)
  | chat (g : Generation) (c : Chat)
  | again (g : Generation) (c : Chat) (events : List OutputEvent)

def Reading.next (s : Store) (now : Int) (t : Bool) (id user : String) (after : Int) (visible : Message → Bool) :
    Reading → Except String (Reading ⊕ Page)
  | .start => do
      let g ← context (readGeneration s now t id) "Generation unavailable"
      return .inl (.generation g)
  | .generation g => do
      let c ← context (readChat s now t g.chatId) "Conversation unavailable"
      return .inl (.chat g c)
  | .chat g c =>
      let events := events s t id after
      if (lastOutcome events).isSome then .ok (.inl (.again g c events))
      else .ok (.inr (replyWith user after g c id events))
  | .again g c events => do
      let c ← context (readChat s now t c.id) "Conversation unavailable"
      return .inr (replyWith user after g (c.visible visible) id events)

structure Run where
  status : Status
  events : List OutputEvent
  text : String
  error : String
  canAnswer : Bool

def mergeEvents (current incoming : List OutputEvent) : Except String (List OutputEvent) :=
  incoming.foldlM (fun result e =>
    if e.sequence ≤ cursorOf result 0 then .ok result
    else if e.sequence ≠ cursorOf result 0 + 1 then .error "Generation replay has a gap"
    else .ok (result ++ [e])) current

/-- A terminal output stays authoritative across overlapping snapshots. -/
def replayStatus (current incoming : Status) (events : List OutputEvent) : Status :=
  if current.terminal then current else (lastOutcome events).getD incoming

def Run.apply (run : Run) (page : Page) : Except String Run := do
  let events ← mergeEvents run.events page.events
  let status := replayStatus run.status page.status events
  return {
    events
    status
    text := (page.events.filter fun e => cursorOf run.events 0 < e.sequence && e.kind = .content).foldl
      (fun text e => text ++ e.content) run.text
    error := if status = .failed then "Generation failed. Your message has been kept. You can retry." else ""
    canAnswer := page.canAnswer }

/-- A call with the pages that are on their way. A subscription goes on with the
next call until the generation has ended. -/
structure Channel where
  user : String
  following : Bool
  cursor : Int
  status : Option Status
  reading : Option Reading
  pages : List Page

def Channel.answered (ch : Channel) (page : Page) : Channel :=
  let next := cursorOf page.events ch.cursor
  let fresh := ch.cursor < next ∨ ch.status ≠ some page.status
  { ch with
    cursor := next
    status := some page.status
    reading := if ch.following ∧ page.status.terminal = false then some .start else none
    pages := if ch.following = false ∨ fresh then ch.pages ++ [page] else ch.pages }

/-- A dashboard that follows a generation, beside the tables. -/
structure Watch where
  tables : Timed
  run : Run
  channels : List Channel

inductive Act
  | request (r : Request)
  | connect (user : String) (following : Bool)
  | read (k : Nat) (now : Int) (visible : Message → Bool)
  | deliver (k : Nat)
  | drop (k : Nat)

variable (env : Engine) (t : Bool) (id : String)

def Channel.read (s : Store) (now : Int) (visible : Message → Bool) (ch : Channel) : Except String Channel :=
  match ch.reading with
  | none => .ok ch
  | some reading => do
      let result ← reading.next s now t id ch.user ch.cursor visible
      return match result with
        | .inl reading => { ch with reading := some reading }
        | .inr page => ch.answered page

/-- A subscription ends with its generation. A call that fails is the last one of
its channel, and a page that does not fit ends it at once. -/
def Watch.step (w : Watch) : Act → Watch
  | .request r => { w with tables := w.tables.step env r }
  | .connect user following =>
      { w with channels := w.channels ++ [⟨user, following, cursorOf w.run.events 0, none, some .start, []⟩] }
  | .read k now visible =>
      match w.channels[k]? with
      | none => w
      | some ch =>
          { w with
            tables := { w.tables with clock := now }
            channels := match ch.read t id w.tables.store now visible with
              | .ok ch' => w.channels.set k ch'
              | .error _ => w.channels.set k { ch with reading := none } }
  | .deliver k =>
      match w.channels[k]? with
      | none => w
      | some ch =>
          match ch.pages with
          | [] => w
          | page :: rest =>
              match w.run.apply page with
              | .error _ =>
                  { w with
                    run := if ch.following then { w.run with error := "Connection interrupted. Reconnecting…" } else w.run
                    channels := w.channels.eraseIdx k }
              | .ok run =>
                  let channels := w.channels.set k { ch with pages := rest }
                  { w with
                    run
                    channels := if run.status.terminal then channels.filter fun ch => !ch.following else channels }
  | .drop k => { w with channels := w.channels.eraseIdx k }

def Numbered : Nat → List OutputEvent → Prop
  | _, [] => True
  | n, e :: log => e.sequence = n + 1 ∧ Numbered (n + 1) log

theorem numbered_iff {n : Nat} {log : List OutputEvent} :
    Numbered n log ↔ log.map OutputEvent.sequence = (List.range log.length).map fun k : Nat => ((n + k : Nat) : Int) + 1 := by
  induction log generalizing n with
  | nil => exact iff_of_true trivial rfl
  | cons e log ih =>
      have hshift : (List.range log.length).map ((fun k : Nat => ((n + k : Nat) : Int) + 1) ∘ Nat.succ) =
          (List.range log.length).map fun k : Nat => ((n + 1 + k : Nat) : Int) + 1 := by
        refine List.map_congr_left fun k _ => ?_
        simp only [Function.comp_apply]
        push_cast
        omega
      rw [Numbered, ih, List.map_cons, List.length_cons, List.range_succ_eq_map, List.map_cons, List.map_map, hshift,
        List.cons.injEq]
      simp

theorem Logged.numbers {env : Engine} {g : Generation} {log : List OutputEvent} (h : Logged env g log) : Numbered 0 log := by
  obtain ⟨hnumbers, hlength, -⟩ := h.numbered
  rw [numbered_iff, hnumbers, hlength]
  simp

theorem Numbered.drop {n : Nat} {log : List OutputEvent} (h : Numbered n log) (k : Nat) : Numbered (n + k) (log.drop k) := by
  induction log generalizing n k with
  | nil => simp [Numbered]
  | cons e log ih =>
      cases k with
      | zero => exact h
      | succ k =>
          rw [List.drop_succ_cons, Nat.add_comm k 1, ← Nat.add_assoc]
          exact ih h.2 k

theorem Numbered.sequence {n k : Nat} {log : List OutputEvent} (h : Numbered n log) {e : OutputEvent} (he : log[k]? = some e) :
    e.sequence = n + k + 1 := by
  induction log generalizing n k with
  | nil => simp at he
  | cons x log ih =>
      cases k with
      | zero =>
          obtain rfl := Option.some.inj he
          rw [h.1]
          omega
      | succ k =>
          rw [ih h.2 he]
          push_cast
          omega

theorem Numbered.lt {n : Nat} {log : List OutputEvent} (h : Numbered n log) : ∀ e ∈ log, (n : Int) < e.sequence := by
  intro e he
  obtain ⟨k, hk⟩ := List.getElem?_of_mem he
  rw [h.sequence hk]
  omega

theorem Numbered.filter {n k : Nat} {log : List OutputEvent} (h : Numbered n log) (hk : n ≤ k) :
    log.filter (fun e => decide ((k : Int) < e.sequence)) = log.drop (k - n) := by
  induction log generalizing n with
  | nil => simp
  | cons e log ih =>
      rw [List.filter_cons, h.1]
      by_cases hlt : k = n
      · subst hlt
        have hrest : log.filter (fun e => decide ((k : Int) < e.sequence)) = log := by
          refine List.filter_eq_self.mpr fun x hx => decide_eq_true ?_
          have hx := h.2.lt x hx
          push_cast at hx
          omega
        rw [hrest, Nat.sub_self, List.drop_zero, if_pos]
        · exact decide_eq_true (by omega)
      · rw [if_neg, ih h.2 (by omega), show k - n = k - (n + 1) + 1 by omega, List.drop_succ_cons]
        simp only [decide_eq_true_eq]
        omega

theorem Numbered.cursorOf {n : Nat} {log : List OutputEvent} (h : Numbered n log) : cursorOf log n = n + log.length := by
  rcases List.eq_nil_or_concat log with rfl | ⟨init, last, rfl⟩
  · simp [Pengolo.cursorOf]
  · rw [List.concat_eq_append] at h ⊢
    have hlast : (init ++ [last])[init.length]? = some last := by simp
    rw [Pengolo.cursorOf, List.getLast?_concat, Option.map_some, Option.getD_some, h.sequence hlast, List.length_append,
      List.length_singleton]
    push_cast
    omega

theorem Numbered.take {n : Nat} {log : List OutputEvent} (h : Numbered n log) (k : Nat) : Numbered n (log.take k) := by
  induction log generalizing n k with
  | nil => simp [Numbered]
  | cons e log ih =>
      cases k with
      | zero => trivial
      | succ k => exact ⟨h.1, ih h.2 k⟩

theorem Numbered.sorted {n : Nat} {log : List OutputEvent} (h : Numbered n log) :
    log.Pairwise fun a b => a.sequence ≤ b.sequence := by
  induction log generalizing n with
  | nil => exact List.Pairwise.nil
  | cons e log ih =>
      refine List.pairwise_cons.mpr ⟨fun x hx => ?_, ih h.2⟩
      have hlt := h.2.lt x hx
      rw [h.1]
      push_cast at hlt
      omega

/-- A page is the part of the log after its cursor. -/
theorem events_eq {s : Store} {t : Bool} {id : String} {log : List OutputEvent} (hlog : s.outputs t id = log) (h : Numbered 0 log)
    (k : Nat) : events s t id k = (log.drop k).take 64 := by
  have hmax : max (k : Int) 0 = k := by omega
  rw [events, hlog, hmax, h.filter (Nat.zero_le k), Nat.sub_zero, (h.drop k).sorted.insertionSort_eq]

variable {log : List OutputEvent} {b c n : Nat}

theorem cursorOf_take (h : Numbered 0 log) (hc : c ≤ log.length) : cursorOf (log.take c) 0 = c := by
  have hcursor := (h.take c).cursorOf
  rw [List.length_take, Nat.min_eq_left hc] at hcursor
  simpa using hcursor

/-- A later part of the log is added where it goes beyond what is there. -/
theorem mergeEvents_take (h : Numbered 0 log) (hb : b ≤ c) (hc : c ≤ log.length) (hn : n ≤ log.length) :
    mergeEvents (log.take c) ((log.take n).drop b) = .ok (log.take (max c n)) := by
  induction hd : n - b generalizing b c with
  | zero =>
      rw [List.drop_eq_nil_of_le (by rw [List.length_take]; omega), Nat.max_eq_left (by omega)]
      rfl
  | succ d ih =>
      have hlt : b < (log.take n).length := by
        rw [List.length_take]
        omega
      rw [List.drop_eq_getElem_cons hlt, List.getElem_take, mergeEvents, List.foldlM_cons, cursorOf_take h hc]
      have hsequence : log[b].sequence = b + 1 := by
        rw [h.sequence (List.getElem?_eq_getElem (by omega))]
        push_cast
        omega
      by_cases hskip : b + 1 ≤ c
      · rw [if_pos (by omega)]
        exact ih hskip hc (by omega)
      · obtain rfl : b = c := by omega
        rw [if_neg (by omega), if_neg (by omega)]
        have hstep := ih (Nat.le_refl (b + 1)) (by omega) (by omega)
        rw [List.take_add_one, List.getElem?_eq_getElem (by omega), Option.toList_some, Nat.max_eq_right (by omega)] at hstep
        rw [Nat.max_eq_right (by omega)]
        exact hstep

theorem written_append (log more : List OutputEvent) :
    written (log ++ more) = (more.filter (·.kind = .content)).foldl (fun text e => text ++ e.content) (written log) := by
  rw [written, written, List.filter_append, List.foldl_append]

/-- The text goes on with the contents of the events that are new. -/
theorem written_take (h : Numbered 0 log) (hb : b ≤ c) :
    (((log.take n).drop b).filter fun e => (c : Int) < e.sequence && e.kind = .content).foldl (fun text e => text ++ e.content)
      (written (log.take c)) = written (log.take (max c n)) := by
  have hsplit : ((log.take n).drop b).filter (fun e => decide ((c : Int) < e.sequence) && decide (e.kind = .content)) =
      ((log.take n).drop c).filter (·.kind = .content) := by
    rw [← List.filter_filter, List.filter_filter]
    have hnumbered := (h.take n).drop b
    rw [Nat.zero_add] at hnumbered
    have hnew := hnumbered.filter hb
    rw [List.drop_drop, Nat.add_sub_cancel' hb] at hnew
    rw [← hnew, List.filter_filter]
    exact List.filter_congr fun e _ => Bool.and_comm _ _
  rw [hsplit, ← written_append]
  congr 1
  rcases Nat.le_total n c with hle | hle
  · rw [List.drop_eq_nil_of_le (by rw [List.length_take]; omega), List.append_nil, Nat.max_eq_left hle]
  · rw [Nat.max_eq_right hle]
    have hgrown : log.take c = (log.take n).take c := by rw [List.take_take, Nat.min_eq_left hle]
    rw [hgrown, List.take_append_drop]

section Histories

structure History (h : List OutputEvent) : Prop where
  numbers : Numbered 0 h
  earlier : ∀ e ∈ h.dropLast, e.kind.outcome = none

structure Answers (id : String) (h : List OutputEvent) (m : Message) : Prop where
  role : m.role = .assistant
  generationId : m.generationId = id
  text : m.text = written h
  status : lastOutcome h = some m.status

structure Truthful (id : String) (h : List OutputEvent) (n : Nat) (p : Page) : Prop where
  ended : p.status.terminal = true → n = h.length ∧ lastOutcome h = some p.status
  answer : ∀ m, p.message = some m → Answers id h m

def Chain (id : String) (h : List OutputEvent) : Nat → List Page → Nat → Prop
  | b, [], n => b = n
  | b, p :: rest, n => ∃ next, b ≤ next ∧ next ≤ h.length ∧ p.events = (h.take next).drop b ∧ Truthful id h next p ∧
      Chain id h next rest n

variable {env : Engine} {id : String} {h h' : List OutputEvent} {g : Generation} {p : Page} {b c n : Nat}

theorem Logged.history (hg : Logged env g h) : History h := ⟨hg.numbers, hg.earlier⟩

/-- A part of the log with an event that ends it is all of it. -/
theorem History.take_eq (hh : History h) (hlast : (lastOutcome (h.take n)).isSome = true) : h.take n = h := by
  rcases List.eq_nil_or_concat (h.take n) with hnil | ⟨init, last, hsplit⟩
  · rw [hnil] at hlast
    cases hlast
  · rw [List.concat_eq_append] at hsplit
    rw [lastOutcome, hsplit, List.getLast?_concat] at hlast
    cases hrest : h.drop n with
    | nil =>
        have happend := List.take_append_drop n h
        rwa [hrest, List.append_nil] at happend
    | cons e rest =>
        have hmem : last ∈ h.dropLast := by
          rw [← List.take_append_drop n h, hrest, hsplit, List.dropLast_append_of_ne_nil (List.cons_ne_nil _ _)]
          exact List.mem_append_left _ (List.mem_append_right _ (List.mem_singleton_self _))
        have hnone := hh.earlier last hmem
        rw [Option.bind_some, hnone] at hlast
        cases hlast

theorem lastOutcome_drop {log : List OutputEvent} (hlast : (lastOutcome (log.drop b)).isSome = true) :
    lastOutcome (log.drop b) = lastOutcome log := by
  have hne : log.drop b ≠ [] := by
    intro hnil
    rw [hnil] at hlast
    cases hlast
  rw [lastOutcome, lastOutcome, List.getLast?_drop, if_neg]
  intro hle
  exact hne (List.drop_eq_nil_of_le hle)

structure Continues (h h' : List OutputEvent) : Prop where
  more : h <+: h'
  ended : (lastOutcome h).isSome = true → h' = h

theorem Answers.mono {m : Message} (hm : Answers id h m) (hc : Continues h h') : Answers id h' m := by
  rw [hc.ended (by rw [hm.status]; rfl)]
  exact hm

theorem Truthful.mono (hp : Truthful id h n p) (hc : Continues h h') : Truthful id h' n p := by
  refine ⟨fun hterminal => ?_, fun m hm => (hp.answer m hm).mono hc⟩
  obtain ⟨hn, hlast⟩ := hp.ended hterminal
  rw [hc.ended (by rw [hlast]; rfl)]
  exact ⟨hn, hlast⟩

theorem take_of_grown (hgrown : h <+: h') (hn : n ≤ h.length) : h'.take n = h.take n := by
  obtain ⟨more, rfl⟩ := hgrown
  exact List.take_append_of_le_length hn

theorem Chain.mono {pages : List Page} (hp : Chain id h b pages n) (hc : Continues h h') : Chain id h' b pages n := by
  induction pages generalizing b with
  | nil => exact hp
  | cons p rest ih =>
      obtain ⟨next, hb, hnext, hevents, htruthful, hrest⟩ := hp
      refine ⟨next, hb, hnext.trans hc.more.length_le, ?_, htruthful.mono hc, ih hrest⟩
      rw [hevents, take_of_grown hc.more hnext]

theorem Chain.le {pages : List Page} (hp : Chain id h b pages n) : b ≤ n := by
  induction pages generalizing b with
  | nil => exact Nat.le_of_eq hp
  | cons p rest ih =>
      obtain ⟨next, hb, -, -, -, hrest⟩ := hp
      exact hb.trans (ih hrest)

theorem Chain.snoc {pages : List Page} (hp : Chain id h b pages n) {next : Nat} (hn : n ≤ next) (hnext : next ≤ h.length)
    (hevents : p.events = (h.take next).drop n) (htruthful : Truthful id h next p) : Chain id h b (pages ++ [p]) next := by
  induction pages generalizing b with
  | nil =>
      obtain rfl : b = n := hp
      exact ⟨next, hn, hnext, hevents, htruthful, rfl⟩
  | cons q rest ih =>
      obtain ⟨mid, hb, hmid, hq, htrue, hrest⟩ := hp
      exact ⟨mid, hb, hmid, hq, htrue, ih hrest⟩

theorem Chain.of_mem {pages : List Page} (hp : Chain id h b pages n) (hmem : p ∈ pages) : ∃ next, Truthful id h next p := by
  induction pages generalizing b with
  | nil => exact absurd hmem List.not_mem_nil
  | cons q rest ih =>
      obtain ⟨mid, -, -, -, htrue, hrest⟩ := hp
      rcases List.mem_cons.mp hmem with rfl | hmem
      · exact ⟨mid, htrue⟩
      · exact ih hrest hmem

structure Shows (h : List OutputEvent) (run : Run) : Prop where
  events : run.events <+: h
  text : run.text = written run.events
  ended : run.status.terminal = true → run.events = h ∧ lastOutcome h = some run.status

theorem Shows.mono {run : Run} (hr : Shows h run) (hc : Continues h h') : Shows h' run := by
  refine ⟨hr.events.trans hc.more, hr.text, fun hterminal => ?_⟩
  obtain ⟨hevents, hlast⟩ := hr.ended hterminal
  rw [hc.ended (by rw [hlast]; rfl)]
  exact ⟨hevents, hlast⟩

/-- A page is merged without a gap. -/
theorem Shows.apply (hh : History h) {run : Run} (hr : Shows h run) (hb : b ≤ run.events.length) (hn : n ≤ h.length)
    (hevents : p.events = (h.take n).drop b) (hp : Truthful id h n p) :
    ∃ run', run.apply p = .ok run' ∧ Shows h run' ∧ run'.events.length = max run.events.length n := by
  have hc : run.events.length ≤ h.length := hr.events.length_le
  have htake : run.events = h.take run.events.length := List.prefix_iff_eq_take.mp hr.events
  have hmerge : mergeEvents run.events p.events = .ok (h.take (max run.events.length n)) := by
    have hmerged := mergeEvents_take hh.numbers hb hc hn
    rwa [← htake, ← hevents] at hmerged
  have htext : (p.events.filter fun e => decide (cursorOf run.events 0 < e.sequence) && decide (e.kind = .content)).foldl
      (fun text e => text ++ e.content) run.text = written (h.take (max run.events.length n)) := by
    have hcursor : cursorOf run.events 0 = run.events.length := by
      have hlast := cursorOf_take hh.numbers hc
      rwa [← htake] at hlast
    rw [hcursor, hevents, hr.text]
    have hwritten := written_take hh.numbers (n := n) hb
    rwa [← htake] at hwritten
  refine ⟨_, by rw [Run.apply, hmerge]; rfl, ⟨?_, htext, fun hterminal => ?_⟩, ?_⟩
  · exact List.take_prefix _ _
  · have hstatus : (replayStatus run.status p.status (h.take (max run.events.length n))).terminal = true := hterminal
    change h.take (max run.events.length n) = h ∧
      lastOutcome h = some (replayStatus run.status p.status (h.take (max run.events.length n)))
    rw [replayStatus] at hstatus ⊢
    by_cases hcurrent : run.status.terminal = true
    · obtain ⟨hall, hlast⟩ := hr.ended hcurrent
      rw [if_pos hcurrent, hall]
      exact ⟨List.take_of_length_le (Nat.le_max_left _ _), hlast⟩
    · rw [if_neg hcurrent] at hstatus ⊢
      cases hlast : lastOutcome (h.take (max run.events.length n)) with
      | some outcome =>
          have hall := hh.take_eq (n := max run.events.length n) (by rw [hlast]; rfl)
          rw [hall] at hlast ⊢
          exact ⟨rfl, hlast⟩
      | none =>
          rw [hlast, Option.getD_none] at hstatus
          obtain ⟨rfl, hended⟩ := hp.ended hstatus
          rw [List.take_of_length_le (Nat.le_max_right _ _), hended] at hlast
          cases hlast
  · exact List.length_take.trans (Nat.min_eq_left (Nat.max_le.mpr ⟨hc, hn⟩))

end Histories

section Readings

variable {env : Engine} {t : Bool} {id : String} {clock now : Int} {s s' : Store} {h h' : List OutputEvent}
  {g : Generation} {c : Chat} {n : Nat}

structure Snapshot (s : Store) (t : Bool) (id : String) (h : List OutputEvent) (g : Generation) : Prop where
  sequence : g.sequence ≤ h.length
  ended : ∀ outcome, g.outcome = some outcome → g.sequence = h.length ∧ lastOutcome h = some outcome
  chatId : ∀ g', s.generations t id = some g' → g'.chatId = g.chatId

def Faithful (id : String) (h : List OutputEvent) (c : Chat) : Prop := ∀ m ∈ c.messages, isAnswer id m = true → Answers id h m

def ReadingOk (s : Store) (t : Bool) (id : String) (h : List OutputEvent) (n : Nat) : Reading → Prop
  | .start => True
  | .generation g => Snapshot s t id h g
  | .chat g c => Snapshot s t id h g ∧ c.id = g.chatId ∧ Faithful id h c ∧
      (g.outcome ≠ none → (s.generations t id).isSome = true → ∃ m ∈ c.messages, isAnswer id m = true)
  | .again g c events => Snapshot s t id h g ∧ c.id = g.chatId ∧ events = h.drop n ∧ (lastOutcome events).isSome = true

def Current (env : Engine) (s : Store) (t : Bool) (id : String) (h : List OutputEvent) : Prop :=
  ∀ g, s.generations t id = some g → s.outputs t id = h ∧ Logged env g h

theorem mem_turn_answer {g : Generation} {l : Line} (hl : l ∈ g.turn) (hrole : l.role = .assistant) :
    ∃ outcome, g.outcome = some outcome ∧ l = ⟨.assistant, g.id, g.response, outcome⟩ := by
  rcases List.mem_cons.mp hl with rfl | hl
  · cases hrole
  · obtain ⟨outcome, ho, rfl⟩ := List.mem_map.mp hl
    exact ⟨outcome, Option.mem_toList.mp ho, rfl⟩

/-- A conversation that is read holds the answer of an ended generation, and no
other one. -/
theorem read_faithful (hs : Consistent env clock s) (hclock : clock ≤ now) (hcurrent : Current env s t id h) {i : String}
    (hc : readChat s now t i = some c) : Faithful id h c ∧
      ∀ g, s.generations t id = some g → g.chatId = i → g.outcome ≠ none → ∃ m ∈ c.messages, isAnswer id m = true := by
  obtain ⟨hrow, hunexpired⟩ : s.chats t i = some c ∧ unexpired now c.expiresAt = true := Option.filter_eq_some_iff.mp hc
  obtain ⟨gs, hgs⟩ := hs.told t i c hrow (unexpired_mono hclock hunexpired)
  constructor
  · intro m hm hanswer
    simp only [isAnswer, Bool.and_eq_true, decide_eq_true_eq] at hanswer
    obtain ⟨hrole, hid⟩ := hanswer
    have hline : m.line ∈ gs.flatMap Generation.turn := hgs.told ▸ List.mem_map_of_mem hm
    obtain ⟨g, hg, hturn⟩ := List.mem_flatMap.mp hline
    obtain ⟨outcome, houtcome, heq⟩ := mem_turn_answer hturn hrole
    have hgid : m.generationId = g.id := congrArg Line.generationId heq
    have hg' := ((hgs.rows g).mp hg).1
    rw [← hgid, hid] at hg'
    obtain ⟨-, hlogged⟩ := hcurrent g hg'
    refine ⟨hrole, hid, ?_, ?_⟩
    · rw [← hlogged.numbered.2.2]
      exact congrArg Line.text heq
    · refine hlogged.ended.trans (houtcome.trans ?_)
      exact congrArg (fun l : Line => some l.status) heq.symm
  · intro g hg hchat hended
    have hgid : g.id = id := hs.keyed.generation t id g hg
    obtain ⟨outcome, houtcome⟩ := Option.ne_none_iff_exists'.mp hended
    have hmem : g ∈ gs := (hgs.rows g).mpr ⟨hgid ▸ hg, hchat.trans (hs.keyed.chat t i c hrow).symm⟩
    have hline : (⟨.assistant, g.id, g.response, outcome⟩ : Line) ∈ c.messages.map Message.line := by
      rw [hgs.told]
      refine List.mem_flatMap.mpr ⟨g, hmem, List.mem_cons_of_mem _ (List.mem_map.mpr ⟨outcome, ?_, rfl⟩)⟩
      exact Option.mem_toList.mpr houtcome
    obtain ⟨m, hm, hmline⟩ := List.mem_map.mp hline
    refine ⟨m, hm, ?_⟩
    simp only [isAnswer, Bool.and_eq_true, decide_eq_true_eq]
    exact ⟨congrArg Line.role hmline, (congrArg Line.generationId hmline).trans hgid⟩

theorem Snapshot.mono (hg : Snapshot s t id h g) (hc : Continues h h')
    (hchat : ∀ g', s'.generations t id = some g' → ∃ old, s.generations t id = some old ∧ g'.chatId = old.chatId) :
    Snapshot s' t id h' g := by
  refine ⟨hg.sequence.trans hc.more.length_le, fun outcome ho => ?_, fun g' hg' => ?_⟩
  · obtain ⟨hsequence, hlast⟩ := hg.ended outcome ho
    rw [hc.ended (by rw [hlast]; rfl)]
    exact ⟨hsequence, hlast⟩
  · obtain ⟨old, hold, heq⟩ := hchat g' hg'
    exact heq.trans (hg.chatId old hold)

theorem ReadingOk.mono {reading : Reading} (hr : ReadingOk s t id h n reading) (hc : Continues h h')
    (hchat : ∀ g', s'.generations t id = some g' → ∃ old, s.generations t id = some old ∧ g'.chatId = old.chatId) :
    ReadingOk s' t id h' n reading := by
  cases reading with
  | start => trivial
  | generation g => exact Snapshot.mono hr hc hchat
  | chat g c =>
      obtain ⟨hg, hid, hfaithful, hanswer⟩ := hr
      refine ⟨hg.mono hc hchat, hid, fun m hm hm' => (hfaithful m hm hm').mono hc, fun hended hrow => hanswer hended ?_⟩
      obtain ⟨g', hg'⟩ := Option.isSome_iff_exists.mp hrow
      obtain ⟨old, hold, -⟩ := hchat g' hg'
      rw [hold]
      rfl
  | again g c events =>
      obtain ⟨hg, hid, hevents, hlast⟩ := hr
      have hsame : h' = h := by
        rw [hevents] at hlast
        rw [lastOutcome_drop hlast] at hlast
        exact hc.ended hlast
      exact ⟨hg.mono hc hchat, hid, by rw [hevents, hsame], hlast⟩

theorem outcome_of_terminal (hterminal : g.status.terminal = true) : g.outcome = some g.status := if_pos hterminal

/-- The page of a call is part of the log, and tells the end if it gets there. -/
theorem replyWith_truthful (hh : History h) (hg : Snapshot s t id h g) {user : String} {next : Nat} (hn : n ≤ next)
    (hnext : next ≤ h.length)
    {events : List OutputEvent} (hevents : events = (h.take next).drop n) (hfaithful : Faithful id h c) :
    Truthful id h next (replyWith user n g c id events) := by
  have hcursor : cursorOf events n = next := by
    have hnumbers := ((hh.numbers.take next).drop n).cursorOf
    rw [← hevents, Nat.zero_add] at hnumbers
    rw [hnumbers, hevents, List.length_drop, List.length_take]
    omega
  have hstatus : (replyWith user n g c id events).status = (lastOutcome events).getD
    (if g.sequence ≤ next then g.status else .running) := by
    change (lastOutcome events).getD (if (g.sequence : Int) ≤ cursorOf events n then g.status else .running) = _
    rw [hcursor]
    simp only [Nat.cast_le]
  refine ⟨fun hterminal => ?_, fun m hm => ?_⟩
  · rw [hstatus] at hterminal ⊢
    cases hlast : lastOutcome events with
    | some outcome =>
        have hsome : (lastOutcome ((h.take next).drop n)).isSome = true := by
          rw [← hevents, hlast]
          rfl
        have htake := lastOutcome_drop hsome
        rw [htake] at hsome
        have hall := hh.take_eq hsome
        rw [← hevents, hlast, hall] at htake
        refine ⟨?_, htake.symm⟩
        have hlength := congrArg List.length hall
        rw [List.length_take] at hlength
        omega
    | none =>
        rw [hlast, Option.getD_none] at hterminal
        by_cases hreached : g.sequence ≤ next
        · rw [if_pos hreached] at hterminal
          obtain ⟨hsequence, hended⟩ := hg.ended g.status (outcome_of_terminal hterminal)
          rw [Option.getD_none, if_pos hreached]
          exact ⟨by omega, hended⟩
        · rw [if_neg hreached] at hterminal
          cases hterminal
  · have hfound : (if (replyWith user n g c id events).status.terminal = true then c.messages.find? (isAnswer id)
      else none) = some m := hm
    split at hfound
    · exact hfaithful m (List.mem_of_find?_eq_some hfound) (List.find?_some hfound)
    · cases hfound

end Readings

section Invariant

variable {env : Engine} {t : Bool} {id : String} {h h' : List OutputEvent} {w : Watch} {shown : Nat} {s s' : Store} {ch : Channel}

structure Brings (s : Store) (t : Bool) (id : String) (h : List OutputEvent) (shown : Nat) (ch : Channel) : Prop where
  pages : ∃ b n, b ≤ shown ∧ n ≤ h.length ∧ ch.cursor = n ∧ Chain id h b ch.pages n ∧
    ∀ reading, ch.reading = some reading → ReadingOk s t id h n reading

/-- What is shown and what is on its way are parts of one log. -/
structure Watched (env : Engine) (t : Bool) (id : String) (w : Watch) (h : List OutputEvent) : Prop where
  tables : Consistent env w.tables.clock w.tables.store
  history : History h
  current : Current env w.tables.store t id h
  shows : Shows h w.run
  channels : ∀ ch ∈ w.channels, Brings w.tables.store t id h w.run.events.length ch

theorem Brings.later (hb : Brings s t id h shown ch) {more : Nat} (hle : shown ≤ more) : Brings s t id h more ch := by
  obtain ⟨b, n, hshown, hrest⟩ := hb.pages
  exact ⟨b, n, hshown.trans hle, hrest⟩

theorem Brings.mono (hb : Brings s t id h shown ch) (hc : Continues h h')
    (hchat : ∀ g', s'.generations t id = some g' → ∃ old, s.generations t id = some old ∧ g'.chatId = old.chatId) :
    Brings s' t id h' shown ch := by
  obtain ⟨b, n, hshown, hn, hcursor, hchain, hreading⟩ := hb.pages
  exact ⟨b, n, hshown, hn.trans hc.more.length_le, hcursor, hchain.mono hc, fun reading hr => (hreading reading hr).mono hc hchat⟩

/-- A call gets on with its reads, or with its page. -/
theorem Channel.read_brings (hs : Consistent env clock s) {now : Int} (hclock : clock ≤ now) (hh : History h)
    (hcurrent : Current env s t id h) (hb : Brings s t id h shown ch) {visible : Message → Bool} {ch' : Channel}
    (hread : ch.read t id s now visible = .ok ch') : Brings s t id h shown ch' := by
  obtain ⟨b, n, hshown, hn, hcursor, hchain, hreading⟩ := hb.pages
  have hanswered : ∀ {page : Page} {next : Nat}, n ≤ next → next ≤ h.length → page.events = (h.take next).drop n →
      Truthful id h next page → Brings s t id h shown (ch.answered page) := by
    intro page next hle hnext hevents htruthful
    have hnextcursor : cursorOf page.events ch.cursor = next := by
      have hnumbers := ((hh.numbers.take next).drop n).cursorOf
      rw [← hevents, Nat.zero_add] at hnumbers
      rw [hcursor, hnumbers, hevents, List.length_drop, List.length_take]
      omega
    refine ⟨b, next, hshown, hnext, hnextcursor, ?_, fun reading hr => ?_⟩
    · change Chain id h b (if _ then ch.pages ++ [page] else ch.pages) next
      split
      · exact hchain.snoc hle hnext hevents htruthful
      · next hstale =>
          rw [hnextcursor, hcursor] at hstale
          have hsame : next = n := by
            by_contra hne
            exact hstale (.inr (.inl (by omega)))
          rw [hsame]
          exact hchain
    · have hr : (if ch.following = true ∧ page.status.terminal = false then some Reading.start else none) = some reading := hr
      split at hr
      · obtain rfl := Option.some.inj hr
        trivial
      · cases hr
  rw [Channel.read] at hread
  cases hphase : ch.reading with
  | none =>
      rw [hphase] at hread
      exact Except.ok.inj hread ▸ hb
  | some reading =>
      have hok := hreading reading hphase
      rw [hphase] at hread
      obtain ⟨result, hresult, hread⟩ := bind_eq_ok.mp hread
      obtain rfl := Except.ok.inj hread
      have hgo : ∀ reading', ReadingOk s t id h n reading' → Brings s t id h shown { ch with reading := some reading' } :=
        fun reading' hok' => ⟨b, n, hshown, hn, hcursor, hchain, fun r hr => Option.some.inj hr ▸ hok'⟩
      cases reading with
      | start =>
          simp only [Reading.next, bind_eq_ok, context_eq_ok, pure_eq_ok] at hresult
          obtain ⟨g, hg, rfl⟩ := hresult
          obtain ⟨hrow, -⟩ := readGeneration_eq_some hg
          obtain ⟨-, hlogged⟩ := hcurrent g hrow
          obtain ⟨-, hlength, -⟩ := hlogged.numbered
          refine hgo (.generation g) ⟨hlength.ge, fun outcome ho => ⟨hlength.symm, hlogged.ended.trans ho⟩, fun g' hg' => ?_⟩
          rw [Option.some.inj (hrow.symm.trans hg')]
      | generation g =>
          simp only [Reading.next, bind_eq_ok, context_eq_ok, pure_eq_ok] at hresult
          obtain ⟨c, hc, rfl⟩ := hresult
          obtain ⟨hfaithful, hanswer⟩ := read_faithful hs hclock hcurrent hc
          refine hgo (.chat g c) ⟨hok, hs.keyed.chat t _ c (readChat_eq_some hc), hfaithful, fun hended hrow => ?_⟩
          obtain ⟨g', hg'⟩ := Option.isSome_iff_exists.mp hrow
          refine hanswer g' hg' (hok.chatId g' hg') fun hnone => ?_
          obtain ⟨outcome, ho⟩ := Option.ne_none_iff_exists'.mp hended
          have hlast := (hcurrent g' hg').2.ended
          rw [hnone] at hlast
          cases hlast.symm.trans (hok.ended outcome ho).2
      | chat g c =>
          obtain ⟨hg, hid, hfaithful, -⟩ := hok
          simp only [Reading.next, hcursor] at hresult
          obtain ⟨next, hle, hnext, hevents⟩ : ∃ next, n ≤ next ∧ next ≤ h.length ∧ events s t id n = (h.take next).drop n := by
            cases hrow : s.generations t id with
            | some g' =>
                refine ⟨min (n + 64) h.length, by omega, by omega, ?_⟩
                rw [events_eq (hcurrent g' hrow).1 hh.numbers, List.take_drop]
                congr 1
                rcases Nat.le_total (n + 64) h.length with hlong | hlong
                · rw [Nat.min_eq_left hlong]
                · rw [Nat.min_eq_right hlong, List.take_of_length_le hlong, List.take_of_length_le (Nat.le_refl _)]
            | none =>
                refine ⟨n, Nat.le_refl n, hn, ?_⟩
                rw [events_eq (hs.unlogged t id hrow) trivial]
                simp
          split at hresult
          · next hlast =>
              obtain rfl := Except.ok.inj hresult
              refine hgo (.again g c (events s t id n)) ⟨hg, hid, ?_, hlast⟩
              rw [hevents] at hlast ⊢
              rw [hh.take_eq (lastOutcome_drop hlast ▸ hlast)]
          · obtain rfl := Except.ok.inj hresult
            exact hanswered hle hnext hevents (replyWith_truthful hh hg hle hnext hevents hfaithful)
      | again g c events =>
          obtain ⟨hg, hid, hevents, hlast⟩ := hok
          simp only [Reading.next, bind_eq_ok, context_eq_ok, pure_eq_ok] at hresult
          obtain ⟨c', hc', rfl⟩ := hresult
          obtain ⟨hfaithful, -⟩ := read_faithful hs hclock hcurrent hc'
          have hvisible : Faithful id h (c'.visible visible) := fun m hm => hfaithful m (List.mem_of_mem_filter hm)
          have hall : events = (h.take h.length).drop n := by rw [List.take_length, hevents]
          rw [hcursor]
          exact hanswered hn (Nat.le_refl _) hall (replyWith_truthful hh hg hn (Nat.le_refl _) hall hvisible)

end Invariant

section Steps

variable {env : Engine} {t : Bool} {id : String} {h : List OutputEvent} {w : Watch} {s s' : Store} {clock : Int}

def Request.renews (env : Engine) (t : Bool) (id : String) (s : Store) : Request → Prop
  | .reserve _ _ input _ _ => input.temporary = t ∧ env.uuid input.idempotencyKey = some id ∧ s.generations t id = none
  | _ => False

theorem absent_put {rows : Bool → String → Option Generation} {t' : Bool} {i : String} {row : Generation} (hnone : rows t id = none)
    (hne : ¬ (t = t' ∧ id = i)) : put rows t' i (some row) t id = none := by
  rw [put_of_ne _ _ hne, hnone]

/-- Records come with prompts alone. -/
theorem perform_absent (hs : Consistent env clock s) {r : Request} (hr : Orderly env clock s r) (hrenews : ¬ r.renews env t id s)
    (hnone : s.generations t id = none) (hp : perform env s r = .ok s') : s'.generations t id = none := by
  have hrow : ∀ {t' i g}, s.generations t' i = some g → ¬ (t = t' ∧ id = i) := by
    rintro t' i g hg ⟨rfl, rfl⟩
    rw [hnone] at hg
    cases hg
  cases r with
  | reserve now actor input capability freshId =>
      simp only [perform, reserve, bind_eq_ok, context_eq_ok] at hp
      obtain ⟨i, hi, hp⟩ := hp
      split at hp
      · simp only [replayReservation, bind_eq_ok, pure_eq_ok] at hp
        obtain ⟨_, -, _, -, rfl⟩ := hp
        exact hnone
      · simp only [createReservation, bind_eq_ok, pure_eq_ok] at hp
        obtain ⟨_, -, _, -, _, -, _, -, a, hwchat, b, hwgen, _, -, _, -, rfl⟩ := hp
        obtain ⟨⟨revision, hgens⟩, -⟩ := writeGeneration_eq_ok hwgen
        change b.generations t id = none
        rw [hgens, (writeChat_eq_ok hwchat).1.generations]
        refine absent_put hnone fun heq => hrenews ?_
        obtain ⟨rfl, rfl⟩ := heq
        exact ⟨rfl, hi, hnone⟩
  | append now t' i messageId event =>
      simp only [perform, append, bind_eq_ok, context_eq_ok] at hp
      obtain ⟨g, hg, hp⟩ := hp
      obtain ⟨hg, -⟩ := readGeneration_eq_some hg
      split at hp
      · exact Except.ok.inj hp ▸ hnone
      · simp only [bind_eq_ok] at hp
        obtain ⟨e, -, hp⟩ := hp
        split at hp
        · simp only [bind_eq_ok, pure_eq_ok] at hp
          obtain ⟨_, -, rfl⟩ := hp
          exact hnone
        · have hconfined := accept_confined hp
          rw [hs.keyed.generation t' i g hg] at hconfined
          rw [hconfined.generations t id (hrow hg), hnone]
  | recordEvidence now t' i sources =>
      simp only [perform, recordEvidence, bind_eq_ok, context_eq_ok] at hp
      obtain ⟨g, hg, evidence, -, hw⟩ := hp
      obtain ⟨hg, -⟩ := readGeneration_eq_some hg
      obtain ⟨⟨revision, hgens⟩, -⟩ := writeGeneration_eq_ok hw
      rw [hgens]
      refine absent_put hnone ?_
      rw [show ({ g with evidence } : Generation).id = i from hs.keyed.generation t' i g hg]
      exact hrow hg
  | saveChat now t' chat expected =>
      simp only [perform, saveChat, bind_eq_ok, pure_eq_ok] at hp
      obtain ⟨m, hw, rfl⟩ := hp
      exact Option.map_eq_none_iff.mpr (by rw [(writeChat_eq_ok hw).1.generations, hnone])
  | saveGeneration now t' g expected =>
      obtain ⟨-, revision, rfl, -⟩ := hr
      obtain ⟨old, hold, -⟩ := writeGeneration_found hp
      obtain ⟨⟨next, hgens⟩, -⟩ := writeGeneration_eq_ok hp
      rw [hgens]
      exact absent_put hnone (hrow hold)
  | expireTemporary now owner session =>
      obtain rfl := Except.ok.inj hp
      exact Option.map_eq_none_iff.mpr hnone
  | removeChat t' i =>
      obtain rfl := Except.ok.inj hp
      simp only [removeChat, hnone]
      split <;> rfl
  | removeGeneration t' i =>
      obtain rfl := Except.ok.inj hp
      by_cases hi : t = t' ∧ id = i
      · rw [hi.1, hi.2]
        exact put_self _ _ _ _
      · exact (put_of_ne _ _ hi).trans hnone

/-- What may happen: transactions, none of which uses the key of the generation
again after its deletion, and what the clients do. -/
def Act.ok (env : Engine) (t : Bool) (id : String) (w : Watch) : Act → Prop
  | .request r => Orderly env w.tables.clock w.tables.store r ∧ ¬ r.renews env t id w.tables.store
  | .read _ now _ => w.tables.clock ≤ now
  | _ => True

theorem request_watched (hw : Watched env t id w h) {r : Request} (hr : Orderly env w.tables.clock w.tables.store r)
    (hrenews : ¬ r.renews env t id w.tables.store) : ∃ h', Watched env t id { w with tables := w.tables.step env r } h' := by
  obtain ⟨hnext, hextends⟩ := step_consistent hw.tables hr
  have hchat : ∀ g', (w.tables.step env r).store.generations t id = some g' →
      ∃ old, w.tables.store.generations t id = some old ∧ g'.chatId = old.chatId := by
    intro g' hg'
    cases hold : w.tables.store.generations t id with
    | some old =>
        refine ⟨old, rfl, ?_⟩
        rcases hextends t id old hold with hgone | ⟨⟨g'', hg'', hsame⟩, -⟩
        · cases hgone.symm.trans hg'
        · exact Option.some.inj (hg''.symm.trans hg') ▸ hsame
    | none =>
        rw [Timed.step, Store.step] at hg'
        split at hg'
        · next s' hp => cases (perform_absent hw.tables hr hrenews hold hp).symm.trans hg'
        · cases hold.symm.trans hg'
  have hgo : ∀ h', History h' → Current env (w.tables.step env r).store t id h' → Continues h h' →
      ∃ h', Watched env t id { w with tables := w.tables.step env r } h' := fun h' hh hcurrent hc =>
    ⟨h', hnext, hh, hcurrent, hw.shows.mono hc, fun ch hch => (hw.channels ch hch).mono hc hchat⟩
  cases hrow : (w.tables.step env r).store.generations t id with
  | none => exact hgo h hw.history (fun g hg => by cases hrow.symm.trans hg) ⟨List.prefix_refl h, fun _ => rfl⟩
  | some g' =>
      obtain ⟨old, hold, -⟩ := hchat g' hrow
      obtain ⟨hlog, hlogged⟩ := hw.current old hold
      have hlogged' := hnext.logged t id g' hrow
      refine hgo _ hlogged'.history (fun g hg => ?_) ?_
      · obtain rfl := Option.some.inj (hrow.symm.trans hg)
        exact ⟨rfl, hlogged'⟩
      · rcases hextends t id old hold with hgone | ⟨-, hgrown⟩
        · cases hgone.symm.trans hrow
        · rw [hlog] at hgrown
          refine ⟨hgrown, fun hlast => (hlogged.frozen hlogged' hgrown fun hnone => ?_).1⟩
          rw [lastOutcome, hlogged.ended, hnone] at hlast
          cases hlast

theorem step_watched (hw : Watched env t id w h) {a : Act} (ha : a.ok env t id w) :
    ∃ h', Watched env t id (w.step env t id a) h' := by
  obtain ⟨htables, hhistory, hcurrent, hshows, hchannels⟩ := hw
  cases a with
  | request r => exact request_watched ⟨htables, hhistory, hcurrent, hshows, hchannels⟩ ha.1 ha.2
  | connect user following =>
      refine ⟨h, htables, hhistory, hcurrent, hshows, fun ch hch => ?_⟩
      rcases List.mem_append.mp hch with hch | hch
      · exact hchannels ch hch
      · obtain rfl := List.mem_singleton.mp hch
        have hcursor := cursorOf_take hhistory.numbers hshows.events.length_le
        rw [← List.prefix_iff_eq_take.mp hshows.events] at hcursor
        refine ⟨w.run.events.length, w.run.events.length, Nat.le_refl _, hshows.events.length_le, hcursor, rfl,
          fun reading hr => ?_⟩
        obtain rfl := Option.some.inj hr
        trivial
  | read k now visible =>
      rw [Watch.step]
      split
      · exact ⟨h, htables, hhistory, hcurrent, hshows, hchannels⟩
      · next ch hk =>
          have hch := hchannels ch (List.mem_of_getElem? hk)
          have hset : ∀ ch', Brings w.tables.store t id h w.run.events.length ch' →
              ∀ c ∈ w.channels.set k ch', Brings w.tables.store t id h w.run.events.length c := fun ch' hch' c hc =>
            (List.mem_or_eq_of_mem_set hc).elim (hchannels c) fun heq => heq ▸ hch'
          refine ⟨h, htables.later ha, hhistory, hcurrent, hshows, ?_⟩
          cases hread : ch.read t id w.tables.store now visible with
          | ok ch' => exact hset ch' (Channel.read_brings htables ha hhistory hcurrent hch hread)
          | error e =>
              obtain ⟨b, n, hshown, hn, hcursor, hchain, -⟩ := hch.pages
              exact hset _ ⟨b, n, hshown, hn, hcursor, hchain, fun reading hr => by cases hr⟩
  | deliver k =>
      rw [Watch.step]
      split
      · exact ⟨h, htables, hhistory, hcurrent, hshows, hchannels⟩
      · next ch hk =>
          split
          · exact ⟨h, htables, hhistory, hcurrent, hshows, hchannels⟩
          · next page rest hpages =>
              obtain ⟨b, n, hshown, hn, hcursor, hchain, hreading⟩ := (hchannels ch (List.mem_of_getElem? hk)).pages
              rw [hpages] at hchain
              obtain ⟨next, hb, hnext, hevents, htruthful, hrest⟩ := hchain
              obtain ⟨run', happly, hshows', hlength⟩ := hshows.apply hhistory hshown hnext hevents htruthful
              rw [happly]
              refine ⟨h, htables, hhistory, hcurrent, hshows', fun c hc => ?_⟩
              have hmem : c ∈ w.channels.set k { ch with pages := rest } := by
                dsimp only at hc
                split at hc
                · exact List.mem_of_mem_filter hc
                · exact hc
              change Brings w.tables.store t id h run'.events.length c
              rcases List.mem_or_eq_of_mem_set hmem with hc | rfl
              · exact (hchannels c hc).later (by omega)
              · exact ⟨next, n, by omega, hn, hcursor, hrest, hreading⟩
  | drop k =>
      exact ⟨h, htables, hhistory, hcurrent, hshows, fun ch hch => hchannels ch (List.mem_of_mem_eraseIdx hch)⟩

end Steps

section Replays

variable {env : Engine} {t : Bool} {id : String} {h : List OutputEvent} {w : Watch}

structure Replayed (env : Engine) (t : Bool) (id : String) (w : Watch) : Prop where
  numbers : Numbered 0 w.run.events
  text : w.run.text = written w.run.events
  ended : w.run.status.terminal = true → lastOutcome w.run.events = some w.run.status
  merges : ∀ ch ∈ w.channels, ∀ page rest, ch.pages = page :: rest → ∃ run, w.run.apply page = .ok run
  stored : ∀ g, w.tables.store.generations t id = some g → w.run.events <+: w.tables.store.outputs t id ∧
    (w.run.status.terminal = true →
      w.run.events = w.tables.store.outputs t id ∧ w.run.text = g.response ∧ g.outcome = some w.run.status)
  carried : ∀ g, w.tables.store.generations t id = some g → ∀ ch ∈ w.channels, ∀ page ∈ ch.pages, page.status.terminal = true →
    g.outcome = some page.status ∧
      ∀ m, page.message = some m → isAnswer id m = true ∧ m.text = g.response ∧ m.status = page.status
  answered : (w.tables.store.generations t id).isSome = true → ∀ ch ∈ w.channels, ∀ reading, ch.reading = some reading →
    ∀ now page, w.tables.clock ≤ now → reading.next w.tables.store now t id ch.user ch.cursor (fun _ => true) = .ok (.inr page) →
      page.status.terminal = true → page.message.isSome = true

theorem find_answer {messages : List Message} (hm : ∃ m ∈ messages, isAnswer id m = true) :
    (messages.find? (isAnswer id)).isSome = true := by
  obtain ⟨m, hmem, hanswer⟩ := hm
  exact List.find?_isSome.mpr ⟨m, hmem, hanswer⟩

/-- The page that tells the end has the answer with it. -/
theorem Watched.answered (hw : Watched env t id w h) (hrow : (w.tables.store.generations t id).isSome = true) {ch : Channel}
    (hch : ch ∈ w.channels) {reading : Reading} (hreading : ch.reading = some reading) {now : Int} {page : Page}
    (hclock : w.tables.clock ≤ now)
    (hnext : reading.next w.tables.store now t id ch.user ch.cursor (fun _ => true) = .ok (.inr page))
    (hterminal : page.status.terminal = true) : page.message.isSome = true := by
  obtain ⟨b, n, -, -, -, -, hok⟩ := (hw.channels ch hch).pages
  have hok := hok reading hreading
  cases reading with
  | start =>
      simp only [Reading.next, bind_eq_ok, pure_eq_ok] at hnext
      obtain ⟨_, -, heq⟩ := hnext
      cases heq
  | generation g =>
      simp only [Reading.next, bind_eq_ok, pure_eq_ok] at hnext
      obtain ⟨_, -, heq⟩ := hnext
      cases heq
  | chat g c =>
      obtain ⟨-, -, -, hanswer⟩ := hok
      rw [Reading.next] at hnext
      split at hnext
      · cases Except.ok.inj hnext
      · next hlast =>
          have hpage := Sum.inr.inj (Except.ok.inj hnext)
          have hnone := Option.not_isSome_iff_eq_none.mp hlast
          have hstatus : page.status = if (g.sequence : Int) ≤ cursorOf (events w.tables.store t id ch.cursor)
            ch.cursor then g.status else .running := by
            rw [← hpage]
            change (lastOutcome _).getD _ = _
            rw [hnone, Option.getD_none]
          have hended : g.outcome ≠ none := by
            rw [hstatus] at hterminal
            split at hterminal
            · rw [outcome_of_terminal hterminal]
              exact Option.some_ne_none _
            · cases hterminal
          have hmessage : page.message = if page.status.terminal = true then c.messages.find? (isAnswer id) else none := by
            rw [← hpage]
            rfl
          rw [hmessage, if_pos hterminal]
          exact find_answer (hanswer hended hrow)
  | again g c events =>
      obtain ⟨hg, hid, hevents, hlast⟩ := hok
      simp only [Reading.next, bind_eq_ok, context_eq_ok, pure_eq_ok] at hnext
      obtain ⟨c', hc', heq⟩ := hnext
      have hpage := Sum.inr.inj heq
      obtain ⟨g', hg'⟩ := Option.isSome_iff_exists.mp hrow
      obtain ⟨-, hanswer⟩ := read_faithful hw.tables hclock hw.current hc'
      have hmessage : page.message = if page.status.terminal = true then (c'.messages.filter fun _ => true).find?
        (isAnswer id) else none := by
        rw [← hpage]
        rfl
      rw [hmessage, if_pos hterminal, List.filter_true]
      refine find_answer (hanswer g' hg' ((hg.chatId g' hg').trans hid.symm) fun hnone => ?_)
      have hended := (hw.current g' hg').2.ended
      rw [hevents] at hlast
      rw [lastOutcome_drop hlast, lastOutcome, hended, hnone] at hlast
      cases hlast

theorem Watched.replayed (hw : Watched env t id w h) : Replayed env t id w := by
  have hshown : Numbered 0 w.run.events := by
    rw [List.prefix_iff_eq_take.mp hw.shows.events]
    exact hw.history.numbers.take _
  refine ⟨hshown, hw.shows.text, fun hterminal => ?_, fun ch hch page rest hpages => ?_, fun g hg => ⟨?_, fun hterminal => ?_⟩,
    fun g hg ch hch page hpage hterminal => ?_, fun hrow ch hch reading hreading now page hclock hnext hterminal =>
      hw.answered hrow hch hreading hclock hnext hterminal⟩
  · obtain ⟨hall, hlast⟩ := hw.shows.ended hterminal
    rw [hall, hlast]
  · obtain ⟨b, n, hb, -, -, hchain, -⟩ := (hw.channels ch hch).pages
    rw [hpages] at hchain
    obtain ⟨next, -, hnext, hevents, htruthful, -⟩ := hchain
    obtain ⟨run, happly, -⟩ := hw.shows.apply hw.history hb hnext hevents htruthful
    exact ⟨run, happly⟩
  · rw [(hw.current g hg).1]
    exact hw.shows.events
  · obtain ⟨hlog, hlogged⟩ := hw.current g hg
    obtain ⟨hall, hlast⟩ := hw.shows.ended hterminal
    refine ⟨hall.trans hlog.symm, ?_, hlogged.ended.symm.trans hlast⟩
    rw [hw.shows.text, hall]
    exact hlogged.numbered.2.2.symm
  · obtain ⟨-, hlogged⟩ := hw.current g hg
    obtain ⟨b, n, -, -, -, hchain, -⟩ := (hw.channels ch hch).pages
    obtain ⟨next, htruthful⟩ := hchain.of_mem hpage
    obtain ⟨-, hlast⟩ := htruthful.ended hterminal
    refine ⟨hlogged.ended.symm.trans hlast, fun m hm => ?_⟩
    have hanswer := htruthful.answer m hm
    refine ⟨?_, ?_, ?_⟩
    · simp only [isAnswer, Bool.and_eq_true, decide_eq_true_eq]
      exact ⟨hanswer.role, hanswer.generationId⟩
    · rw [hanswer.text]
      exact hlogged.numbered.2.2.symm
    · exact Option.some.inj (hanswer.status.symm.trans hlast)

def Watch.start (tables : Timed) (status : Status) (canAnswer : Bool) : Watch := ⟨tables, ⟨status, [], "", "", canAnswer⟩, []⟩

theorem start_watched {tables : Timed} (hs : Consistent env tables.clock tables.store) {g : Generation}
    (hg : tables.store.generations t id = some g) {status : Status} (hstatus : status.terminal = false) (canAnswer : Bool) :
    Watched env t id (.start tables status canAnswer) (tables.store.outputs t id) := by
  refine ⟨hs, (hs.logged t id g hg).history, fun g' hg' => ⟨rfl, hs.logged t id g' hg'⟩,
    ⟨?_, rfl, fun hterminal => ?_⟩, fun ch hch => ?_⟩
  · exact List.nil_prefix
  · cases hstatus.symm.trans hterminal
  · cases hch

/-- However the calls of subscriptions and single requests come between
transactions, and in whatever order their pages arrive, the dashboard shows the
log of the generation up to some number, with its texts. Every page fits what is
shown, and the end that it tells is the end of the generation, with its answer. -/
theorem replays_truthful (env : Engine) (t : Bool) (id : String) (start : Int) (requests : List Request)
    (hrequests : Along (Timed.step env) (fun w r => Orderly env w.clock w.store r) ⟨start, .empty⟩ requests)
    (hrow : ((Timed.after env start requests).store.generations t id).isSome = true) (status : Status)
    (hstatus : status.terminal = false) (canAnswer : Bool) (acts : List Act)
    (hacts : Along (Watch.step env t id) (Act.ok env t id) (.start (Timed.after env start requests) status canAnswer) acts) :
    Replayed env t id (run (Watch.step env t id) (.start (Timed.after env start requests) status canAnswer) acts) := by
  obtain ⟨g, hg⟩ := Option.isSome_iff_exists.mp hrow
  have hwatched := start_watched (after_consistent hrequests) hg hstatus canAnswer
  have hstep : ∀ (w : Watch) (a : Act), (∃ h, Watched env t id w h) → Act.ok env t id w a →
    ∃ h, Watched env t id (w.step env t id a) h :=
    fun _ _ hw ha => hw.elim fun _ hw => step_watched hw ha
  obtain ⟨h, hw⟩ := run_invariant hstep ⟨_, hwatched⟩ hacts
  exact hw.replayed

end Replays

/-- A dashboard that opens a subscription on a prompt, which is answered while
the subscription reads. -/
def followed : Watch := .start (Timed.after sampleEngine 0 (answeredRun.take 1)) .running false

def followedActs : List Act :=
  [.connect "ada" true, .read 0 0 (fun _ => true), .request (.append 1 false sampleKey "m1" ⟨1, .content, "Hello"⟩),
    .read 0 1 (fun _ => true), .read 0 1 (fun _ => true), .request (.append 2 false sampleKey "m2" ⟨2, .completed, ""⟩),
    .read 0 2 (fun _ => true), .read 0 2 (fun _ => true), .read 0 2 (fun _ => true), .read 0 2 (fun _ => true),
    .deliver 0, .deliver 0]

theorem followedActs_ok : Along (Watch.step sampleEngine false sampleKey)
    (Act.ok sampleEngine false sampleKey) followed followedActs := by
  have hlater : ∀ {clock now : Int}, clock ≤ now → ∀ n, some now = some n → clock ≤ n := fun h n hn => Option.some.inj hn ▸ h
  have happend : ∀ (w : Watch) (now : Int) (messageId : String) (event : OutputEvent), w.tables.clock ≤ now →
      w.tables.store.chats = followed.tables.store.chats → messageId ≠ sampleKey →
      Act.ok sampleEngine false sampleKey w (.request (.append now false sampleKey messageId event)) := by
    intro w now messageId event hclock hchats hfresh
    refine ⟨⟨hlater hclock, ?_⟩, fun hrenews => hrenews⟩
    refine fresh_beside_prompt (c :=
      (withPrompt (freshChat "ada" (sampleInput false) 0 "c1") sampleKey (sampleInput false)).stamped 1 0) ?_ rfl hfresh
    rw [hchats]
    rfl
  refine ⟨trivial, Int.le_refl 0, happend _ 1 "m1" _ (show (0 : Int) ≤ 1 by decide) rfl (by decide), Int.le_refl 1, Int.le_refl 1,
    happend _ 2 "m2" _ (show (1 : Int) ≤ 2 by decide) rfl (by decide), Int.le_refl 2, Int.le_refl 2, Int.le_refl 2, Int.le_refl 2,
    trivial, trivial, trivial⟩

theorem replays_truthful_followed :
    (run (Watch.step sampleEngine false sampleKey) followed followedActs).run.text = "Hello" ∧
      (run (Watch.step sampleEngine false sampleKey) followed followedActs).run.status = .completed ∧
      Replayed sampleEngine false sampleKey (run (Watch.step sampleEngine false sampleKey) followed followedActs) := by
  have hlater : ∀ n, some (0 : Int) = some n → (0 : Int) ≤ n := fun n hn => Option.some.inj hn ▸ Int.le_refl 0
  refine ⟨by decide +kernel, by decide +kernel, ?_⟩
  refine replays_truthful sampleEngine false sampleKey 0 (answeredRun.take 1) ⟨⟨hlater, fun c hc => ?_⟩, trivial⟩
    (by decide +kernel) .running rfl
    false followedActs followedActs_ok
  cases hc

end Galadril.Pengolo
