import Galadril.Conversations.AgentStream
import Galadril.Lib.Transitions

namespace Galadril.Conversations.Streaming

open AgentStream Lib.Checked Lib.Transitions

/-- What the store answers to a batch after earlier ones, and to the assistant
message. -/
structure Store where
  appendEvent : List String → String → Except String Unit
  completeGeneration : String → Except String Unit

variable (store : Store)

def appendGenerationContent (earlier : List String) (content : String) : Except String Unit := do
  ensure (content != "" && content.utf8ByteSize ≤ 65536) "Invalid generation batch"
  store.appendEvent earlier content

/-- The text of a generation, the batch that is not stored yet, and the batches
that are. -/
structure Worker where
  content : String
  batch : String
  appended : List String
  failure : Option String

def Worker.flush (w : Worker) : Worker :=
  match appendGenerationContent store w.appended w.batch with
  | .ok _ => { w with batch := "", appended := w.appended ++ [w.batch] }
  | .error e => { w with failure := some e }

def Worker.make (w : Worker) (fragment : String) : Worker :=
  if 65536 < w.batch.utf8ByteSize + fragment.utf8ByteSize then w.flush store else w

def Worker.push (w : Worker) (fragment : String) : Worker :=
  if w.failure.isSome then w
  else
    let w := { w with batch := w.batch ++ fragment }
    if 4096 ≤ w.batch.utf8ByteSize then w.flush store else w

def maxOutput : Nat := 1024 * 1024

def Worker.absorb (w : Worker) (fragment : String) : Worker :=
  if maxOutput < w.content.utf8ByteSize + fragment.utf8ByteSize then { w with failure := some "Generation output exceeds limit" }
  else (Worker.make store { w with content := w.content ++ fragment } fragment).push store fragment

inductive SendError
  | full
  | closed

abbrev Item := Except String String

/-- The channel between the generation and its subscriber. The subscriber's
stream ends when it has been told whether it lagged. -/
structure Channel where
  sender : Bool
  receiving : Bool
  queue : List Item
  received : List Item
  lagged : Bool
  told : Option Bool

def Channel.trySend (c : Channel) (item : Item) : Except SendError Channel :=
  if !c.receiving then .error .closed
  else if 256 ≤ c.queue.length then .error .full
  else .ok { c with queue := c.queue ++ [item] }

def Channel.publish (c : Channel) (fragment : String) : Channel :=
  if c.sender then
    match c.trySend (.ok fragment) with
    | .ok c => c
    | .error .full => { c with lagged := true, sender := false }
    | .error .closed => { c with sender := false }
  else c

def Channel.report (c : Channel) (e : String) : Channel :=
  if c.sender then
    match c.trySend (.error e) with
    | .ok c => c
    | .error _ => { c with lagged := true }
  else c

structure State where
  rest : List String
  verdict : Except String Unit
  worker : Worker
  channel : Channel
  ended : Bool
  /-- The texts of the assistant messages that the store was asked for. -/
  completions : List String
  completed : Bool
  failed : Bool

def finish (s : State) : State :=
  let w := if s.worker.failure.isNone && s.worker.batch != "" then s.worker.flush store else s.worker
  match w.failure with
  | some _ => { s with worker := w, ended := true, failed := true }
  | none =>
      match store.completeGeneration w.content with
      | .ok _ => { s with worker := w, ended := true, completions := s.completions ++ [w.content], completed := true }
      | .error _ => { s with worker := w, ended := true, completions := s.completions ++ [w.content], failed := true }

def next (s : State) : State :=
  match s.rest with
  | fragment :: rest =>
      let w := s.worker.absorb store fragment
      if w.failure.isSome then finish store { s with rest := rest, worker := w }
      else { s with rest := rest, worker := w, channel := s.channel.publish fragment }
  | [] =>
      match s.verdict with
      | .ok _ => finish store s
      | .error e =>
          finish store { s with worker := { s.worker with failure := some e }, channel := s.channel.report e }

def tick (s : State) : State :=
  let w := s.worker.flush store
  if w.failure.isSome then finish store { s with worker := w } else { s with worker := w }

inductive Event
  | next
  | timer
  | receive
  | detach
  | close

def step (s : State) : Event → State
  | .next => next store s
  | .timer => tick store s
  | .receive =>
      match s.channel.queue with
      | [] => s
      | item :: queue => { s with channel := { s.channel with queue := queue, received := s.channel.received ++ [item] } }
  | .detach => { s with channel := { s.channel with receiving := false } }
  | .close => { s with channel := { s.channel with told := some s.channel.lagged } }

/-- The timer runs while something waits in the batch. The subscriber sees the
end of the channel when it is empty and its sender is gone. -/
def Enabled (s : State) : Event → Prop
  | .next => s.ended = false
  | .timer => s.ended = false ∧ s.worker.batch ≠ ""
  | .receive => s.channel.receiving = true ∧ s.channel.told = none ∧ s.channel.queue ≠ []
  | .detach => s.channel.receiving = true
  | .close => s.channel.receiving = true ∧ s.channel.told = none ∧ s.channel.queue = [] ∧
      (s.ended = true ∨ s.channel.sender = false)

def start (fragments : List String) (verdict : Except String Unit) : State where
  rest := fragments
  verdict := verdict
  worker := ⟨"", "", [], none⟩
  channel := ⟨true, true, [], [], false, none⟩
  ended := false
  completions := []
  completed := false
  failed := false

def Finished (s : State) : Prop := ∀ e, e = .detach ∨ ¬Enabled s e

section Batches

def Open (store : Store) : Prop :=
  ∀ earlier batch, 1 ≤ batch.utf8ByteSize → batch.utf8ByteSize ≤ 65536 → store.appendEvent earlier batch = .ok ()

structure Keeps (text : String) (w : Worker) : Prop where
  stored : String.join w.appended ++ w.batch = text
  sizes : ∀ b ∈ w.appended, 1 ≤ b.utf8ByteSize ∧ b.utf8ByteSize ≤ 65536
  running : w.failure = none

variable {store : Store} {w : Worker} {text fragment : String}

theorem flush_eq (h : Open store) (hleast : 1 ≤ w.batch.utf8ByteSize) (hmost : w.batch.utf8ByteSize ≤ 65536) :
    w.flush store = { w with batch := "", appended := w.appended ++ [w.batch] } := by
  have hne : (w.batch != "") = true := by
    rw [bne_iff_ne]
    intro hempty
    rw [hempty] at hleast
    exact absurd hleast (by decide)
  have hgood : (w.batch != "" && decide (w.batch.utf8ByteSize ≤ 65536)) = true := by rw [hne, decide_eq_true hmost]; rfl
  rw [Worker.flush, appendGenerationContent, hgood, ensure_true, ok_bind, h _ _ hleast hmost]

theorem Keeps.flush (hk : Keeps text w) (h : Open store) (hleast : 1 ≤ w.batch.utf8ByteSize)
    (hmost : w.batch.utf8ByteSize ≤ 65536) : Keeps text (w.flush store) ∧ (w.flush store).batch = "" ∧
      (w.flush store).content = w.content := by
  rw [flush_eq h hleast hmost]
  refine ⟨⟨?_, ?_, hk.running⟩, rfl, rfl⟩
  · rw [String.join_append, String.append_empty, ← hk.stored]
    simp
  · intro b hb
    rcases List.mem_append.mp hb with hb | hb
    · exact hk.sizes b hb
    · obtain rfl := List.mem_singleton.mp hb
      exact ⟨hleast, hmost⟩

theorem Keeps.make (hk : Keeps text w) (h : Open store) (hsmall : w.batch.utf8ByteSize < 4096)
    (hfragment : fragment.utf8ByteSize ≤ 65536) : Keeps text (w.make store fragment) ∧
      (w.make store fragment).batch.utf8ByteSize + fragment.utf8ByteSize ≤ 65536 ∧ (w.make store fragment).content = w.content := by
  rw [Worker.make]
  split
  · obtain ⟨hflushed, hempty, hcontent⟩ := hk.flush h (by omega) (by omega)
    refine ⟨hflushed, ?_, hcontent⟩
    rw [hempty]
    exact (Nat.zero_add _).trans_le hfragment
  · exact ⟨hk, by omega, rfl⟩

theorem Keeps.push (hk : Keeps text w) (h : Open store) (hfits : w.batch.utf8ByteSize + fragment.utf8ByteSize ≤ 65536) :
    Keeps (text ++ fragment) (w.push store fragment) ∧ (w.push store fragment).batch.utf8ByteSize < 4096 ∧
      (w.push store fragment).content = w.content := by
  have hgrown : Keeps (text ++ fragment) { w with batch := w.batch ++ fragment } :=
    ⟨by rw [← String.append_assoc, hk.stored], hk.sizes, hk.running⟩
  have hrunning : ¬w.failure.isSome = true := by rw [hk.running]; exact Bool.false_ne_true
  rw [Worker.push, if_neg hrunning]
  simp only
  split
  · next hlarge =>
    have hsize : (w.batch ++ fragment).utf8ByteSize ≤ 65536 := by rwa [String.utf8ByteSize_append]
    obtain ⟨hflushed, hempty, hcontent⟩ := hgrown.flush h (Nat.le_trans (by decide) hlarge) hsize
    refine ⟨hflushed, ?_, hcontent⟩
    rw [hempty]
    decide
  · next hsmall => exact ⟨hgrown, Nat.not_le.mp hsmall, rfl⟩

theorem Keeps.absorb (hk : Keeps w.content w) (h : Open store) (hsmall : w.batch.utf8ByteSize < 4096)
    (hfragment : fragment.utf8ByteSize ≤ 65536) (hfits : (w.content ++ fragment).utf8ByteSize ≤ maxOutput) :
    Keeps (w.content ++ fragment) (w.absorb store fragment) ∧ (w.absorb store fragment).batch.utf8ByteSize < 4096 ∧
      (w.absorb store fragment).content = w.content ++ fragment := by
  rw [String.utf8ByteSize_append] at hfits
  rw [Worker.absorb, if_neg (Nat.not_lt.mpr hfits)]
  have hstart : Keeps w.content { w with content := w.content ++ fragment } := ⟨hk.stored, hk.sizes, hk.running⟩
  obtain ⟨hmade, hroom, hcontent⟩ := hstart.make h hsmall hfragment
  obtain ⟨hpushed, hless, hsame⟩ := hmade.push h hroom
  exact ⟨hpushed, hless, hsame.trans hcontent⟩

end Batches

def failureOf : Except String Unit → Option String
  | .ok _ => none
  | .error e => some e

def items (before : List String) (failure : Option String) : List Item := before.map .ok ++ failure.toList.map .error

/-- What has been sent is a beginning of the items, and all of them unless the
subscriber fell behind or left. -/
structure Serves (sent : List Item) (ended : Bool) (c : Channel) : Prop where
  part : c.received ++ c.queue <+: sent
  whole : c.lagged = true ∨ c.receiving = false ∨ c.received ++ c.queue = sent
  gone : c.sender = false → c.lagged = true ∨ c.receiving = false
  lagging : c.lagged = true → ended = true ∨ c.sender = false
  told : ∀ lagged, c.told = some lagged → lagged = c.lagged ∧ c.queue = [] ∧ (ended = true ∨ c.sender = false)

variable {sent : List Item} {c : Channel} {item : Item}

theorem trySend_cases (c : Channel) (item : Item) :
    (c.receiving = true ∧ c.trySend item = .ok { c with queue := c.queue ++ [item] }) ∨
    (c.receiving = false ∧ c.trySend item = .error .closed) ∨ c.trySend item = .error .full := by
  rw [Channel.trySend]
  cases hreceiving : c.receiving with
  | false => exact .inr (.inl ⟨rfl, rfl⟩)
  | true =>
      simp only [Bool.not_true, Bool.false_eq_true, if_false]
      split
      · exact .inr (.inr rfl)
      · exact .inl ⟨trivial, rfl⟩

theorem Serves.untold (h : Serves sent false c) (hsender : c.sender = true) : c.told = none ∧ c.lagged = false := by
  constructor
  · cases htold : c.told with
    | none => rfl
    | some lagged =>
        rcases (h.told lagged htold).2.2 with hended | hgone
        · cases hended
        · cases hsender.symm.trans hgone
  · cases hlagged : c.lagged with
    | false => rfl
    | true =>
        rcases h.lagging hlagged with hended | hgone
        · cases hended
        · cases hsender.symm.trans hgone

/-- An item is delivered to a subscriber who has kept up. -/
theorem Serves.sends (h : Serves sent false c) (hsender : c.sender = true) (hreceiving : c.receiving = true) (ended : Bool) :
    Serves (sent ++ [item]) ended { c with queue := c.queue ++ [item] } := by
  obtain ⟨htold, hlagged⟩ := h.untold hsender
  have hwhole : c.received ++ c.queue = sent := by
    rcases h.whole with hlag | hleft | hwhole
    · cases hlagged.symm.trans hlag
    · cases hreceiving.symm.trans hleft
    · exact hwhole
  have hall : c.received ++ (c.queue ++ [item]) = sent ++ [item] := by rw [← List.append_assoc, hwhole]
  exact ⟨hall ▸ List.prefix_refl _, .inr (.inr hall), fun hgone => absurd (hsender.symm.trans hgone) (by decide),
    fun hlag => absurd (hlagged.symm.trans hlag) (by decide), fun lagged hsome => absurd (htold.symm.trans hsome) (by simp)⟩

theorem Serves.extended (h : Serves sent false c) (hlost : c.lagged = true ∨ c.receiving = false) (item : Item) {ended : Bool} :
    Serves (sent ++ [item]) ended c := by
  refine ⟨h.part.trans (List.prefix_append _ _), hlost.elim .inl fun hleft => .inr (.inl hleft), h.gone, fun hlag => ?_,
    fun lagged hsome => ?_⟩
  · rcases h.lagging hlag with hfalse | hgone
    · cases hfalse
    · exact .inr hgone
  · obtain ⟨hsame, hempty, hfalse | hgone⟩ := h.told lagged hsome
    · cases hfalse
    · exact ⟨hsame, hempty, .inr hgone⟩

theorem Serves.publish (h : Serves sent false c) (fragment : String) :
    Serves (sent ++ [.ok fragment]) false (c.publish fragment) := by
  rw [Channel.publish]
  cases hsender : c.sender with
  | false =>
      simp only [Bool.false_eq_true, if_false]
      exact h.extended (h.gone hsender) _
  | true =>
      obtain ⟨htold, -⟩ := h.untold hsender
      simp only [if_true]
      rcases trySend_cases c (.ok fragment) with ⟨hreceiving, hsent⟩ | ⟨hleft, hsent⟩ | hsent
      · simp only [hsent]
        exact h.sends hsender hreceiving false
      · simp only [hsent]
        exact ⟨h.part.trans (List.prefix_append _ _), .inr (.inl hleft), fun _ => .inr hleft, fun _ => .inr rfl,
          fun lagged hsome => absurd (htold.symm.trans hsome) (by simp)⟩
      · simp only [hsent]
        exact ⟨h.part.trans (List.prefix_append _ _), .inl rfl, fun _ => .inl rfl, fun _ => .inr rfl,
          fun lagged hsome => absurd (htold.symm.trans hsome) (by simp)⟩

theorem Serves.report (h : Serves sent false c) (e : String) : Serves (sent ++ [.error e]) true (c.report e) := by
  rw [Channel.report]
  cases hsender : c.sender with
  | false =>
      simp only [Bool.false_eq_true, if_false]
      exact h.extended (h.gone hsender) _
  | true =>
      obtain ⟨htold, -⟩ := h.untold hsender
      simp only [if_true]
      rcases trySend_cases c (.error e) with ⟨hreceiving, hsent⟩ | ⟨hleft, hsent⟩ | hsent
      · simp only [hsent]
        exact h.sends hsender hreceiving true
      · simp only [hsent]
        exact ⟨h.part.trans (List.prefix_append _ _), .inl rfl, (fun hgone => by cases hgone), fun _ => .inl rfl,
          fun lagged hsome => absurd (htold.symm.trans hsome) (by simp)⟩
      · simp only [hsent]
        exact ⟨h.part.trans (List.prefix_append _ _), .inl rfl, (fun hgone => by cases hgone), fun _ => .inl rfl,
          fun lagged hsome => absurd (htold.symm.trans hsome) (by simp)⟩

theorem Serves.ends (h : Serves sent false c) : Serves sent true c :=
  ⟨h.part, h.whole, h.gone, fun _ => .inl rfl, fun lagged hsome => ⟨(h.told lagged hsome).1, (h.told lagged hsome).2.1, .inl rfl⟩⟩

variable {ended : Bool}

theorem Serves.receives (h : Serves sent ended c) {queue : List Item} (hqueue : c.queue = item :: queue) :
    Serves sent ended { c with queue := queue, received := c.received ++ [item] } := by
  have hsame : c.received ++ [item] ++ queue = c.received ++ c.queue := by rw [hqueue, List.append_assoc, List.singleton_append]
  refine ⟨hsame ▸ h.part, hsame ▸ h.whole, h.gone, h.lagging, ?_⟩
  intro lagged hsome
  have hempty := (h.told lagged hsome).2.1
  rw [hqueue] at hempty
  cases hempty

theorem Serves.detaches (h : Serves sent ended c) : Serves sent ended { c with receiving := false } :=
  ⟨h.part, .inr (.inl rfl), fun _ => .inr rfl, h.lagging, h.told⟩

theorem Serves.closes (h : Serves sent ended c) (hempty : c.queue = []) (hgone : ended = true ∨ c.sender = false) :
    Serves sent ended { c with told := some c.lagged } :=
  ⟨h.part, h.whole, h.gone, h.lagging, fun _ hsome => ⟨(Option.some.inj hsome).symm, hempty, hgone⟩⟩

/-- Whoever is told that nothing was lost and has not left has received
everything. -/
theorem Serves.complete (h : Serves sent true c) (hsome : c.told.isSome) :
    c.received = sent ∨ c.told = some true ∨ c.receiving = false := by
  obtain ⟨lagged, htold⟩ := Option.isSome_iff_exists.mp hsome
  obtain ⟨hsame, hempty, -⟩ := h.told lagged htold
  rcases h.whole with hlag | hleft | hwhole
  · right
    left
    rw [htold, hsame, hlag]
  · exact .inr (.inr hleft)
  · left
    rw [← hwhole, hempty, List.append_nil]

section Runs

variable {store : Store} {fragments : List String} {verdict : Except String Unit} {s : State}

structure Running (fragments : List String) (verdict : Except String Unit) (before : List String) (s : State) : Prop where
  split : fragments = before ++ s.rest
  verdict_eq : s.verdict = verdict
  content : s.worker.content = String.join before
  keeps : Keeps s.worker.content s.worker
  small : s.worker.batch.utf8ByteSize < 4096
  running : s.ended = false
  completions : s.completions = []
  serves : Serves (before.map .ok) false s.channel

def messages (fragments : List String) : Except String Unit → List String
  | .ok _ => [String.join fragments]
  | .error _ => []

structure Ended (store : Store) (fragments : List String) (verdict : Except String Unit) (s : State) : Prop where
  sizes : ∀ b ∈ s.worker.appended, 1 ≤ b.utf8ByteSize ∧ b.utf8ByteSize ≤ 65536
  ended : s.ended = true
  serves : Serves (items fragments (failureOf verdict)) true s.channel
  stored : ∃ rest, String.join s.worker.appended ++ rest = String.join fragments ∧ (verdict = .ok () → rest = "")
  completions : s.completions = messages fragments verdict
  completed : verdict = .ok () → store.completeGeneration (String.join fragments) = .ok () → s.completed = true

def Faithful (store : Store) (fragments : List String) (verdict : Except String Unit) (s : State) : Prop :=
  (∃ before, Running fragments verdict before s) ∨ Ended store fragments verdict s

theorem start_faithful (store : Store) (fragments : List String) (verdict : Except String Unit) :
    Faithful store fragments verdict (start fragments verdict) :=
  .inl ⟨[], rfl, rfl, rfl, ⟨rfl, fun _ hb => absurd hb List.not_mem_nil, rfl⟩,
    Nat.zero_lt_succ _, rfl, rfl,
    ⟨List.prefix_refl _, .inr (.inr rfl), fun h => (by cases h), fun h => (by cases h), fun _ h => (by cases h)⟩⟩

/-- A generation whose fragments have all come ends with its message. -/
theorem Running.finishes (h : Running fragments (.ok ()) fragments s) (hopen : Open store) :
    Ended store fragments (.ok ()) (finish store s) := by
  have hkept : ∃ w, (if s.worker.failure.isNone && s.worker.batch != "" then s.worker.flush store else s.worker) = w ∧
      Keeps s.worker.content w ∧ w.batch = "" ∧ w.content = s.worker.content := by
    rw [h.keeps.running]
    by_cases hempty : s.worker.batch = ""
    · exact ⟨s.worker, by simp [hempty], h.keeps, hempty, rfl⟩
    · have hpos : 1 ≤ s.worker.batch.utf8ByteSize := Nat.one_le_iff_ne_zero.mpr (by simpa using hempty)
      exact ⟨s.worker.flush store, by simp [hempty], h.keeps.flush hopen hpos (by have := h.small; omega)⟩
  obtain ⟨w, hw, hkeeps, hempty, hcontent⟩ := hkept
  have hserves : Serves (items fragments (failureOf (.ok ()))) true s.channel := by
    rw [items, failureOf, Option.toList_none, List.map_nil, List.append_nil]
    exact h.serves.ends
  have hstored : String.join w.appended ++ "" = String.join fragments := by rw [← hempty, hkeeps.stored, h.content]
  rw [finish, hw]
  simp only [hkeeps.running]
  rw [hcontent, h.content, h.completions]
  cases hcomplete : store.completeGeneration (String.join fragments) with
  | ok u => exact ⟨hkeeps.sizes, rfl, hserves, ⟨"", hstored, fun _ => rfl⟩, rfl, fun _ _ => rfl⟩
  | error e => exact ⟨hkeeps.sizes, rfl, hserves, ⟨"", hstored, fun _ => rfl⟩, rfl,
      fun _ hok => by rw [hcomplete] at hok; cases hok⟩

/-- A generation whose stream fails ends without a message. -/
theorem Running.fails {e : String} (h : Running fragments (.error e) fragments s) :
    Ended store fragments (.error e)
      (finish store { s with worker := { s.worker with failure := some e }, channel := s.channel.report e }) := by
  rw [finish]
  simp only [Option.isNone_some, Bool.false_and, Bool.false_eq_true, if_false]
  refine ⟨h.keeps.sizes, rfl, h.serves.report e, ⟨s.worker.batch, ?_, fun hok => by cases hok⟩, h.completions,
    fun hok => by cases hok⟩
  rw [h.keeps.stored, h.content]

theorem next_ok (hrest : s.rest = []) (hverdict : s.verdict = .ok ()) : next store s = finish store s := by
  rw [next, hrest, hverdict]

theorem next_error {e : String} (hrest : s.rest = []) (hverdict : s.verdict = .error e) :
    next store s = finish store { s with worker := { s.worker with failure := some e }, channel := s.channel.report e } := by
  obtain ⟨rest, verdict, worker, channel, ended, completions, completed, failed⟩ := s
  simp only at hrest hverdict
  subst hrest hverdict
  rfl

theorem join_size_le {xs ys : List String} : (String.join xs).utf8ByteSize ≤ (String.join (xs ++ ys)).utf8ByteSize := by
  rw [String.join_append, String.utf8ByteSize_append]
  exact Nat.le_add_right _ _

variable {before : List String}

theorem Running.next_faithful (h : Running fragments verdict before s) (hopen : Open store)
    (hfragments : ∀ f ∈ fragments, f.utf8ByteSize ≤ 65536) (hfits : (String.join fragments).utf8ByteSize ≤ maxOutput) :
    Faithful store fragments verdict (next store s) := by
  cases hrest : s.rest with
  | nil =>
      have hall : fragments = before := by rw [h.split, hrest, List.append_nil]
      subst hall
      right
      cases verdict with
      | ok u =>
          rw [next_ok hrest h.verdict_eq]
          exact h.finishes hopen
      | error e =>
          rw [next_error hrest h.verdict_eq]
          exact h.fails
  | cons fragment rest =>
      have hsplit : fragments = (before ++ [fragment]) ++ rest := by
        rw [h.split, hrest, List.append_assoc, List.singleton_append]
      have hjoin : String.join (before ++ [fragment]) = s.worker.content ++ fragment := by
        rw [String.join_append, h.content]
        simp
      have hmem : fragment ∈ fragments := by rw [hsplit]; simp
      have hsize : (s.worker.content ++ fragment).utf8ByteSize ≤ maxOutput := by
        rw [← hjoin]
        refine Nat.le_trans ?_ hfits
        rw [hsplit]
        exact join_size_le
      obtain ⟨hkeeps, hsmall, hcontent⟩ := h.keeps.absorb hopen h.small (hfragments fragment hmem) hsize
      have hrunning : ¬(s.worker.absorb store fragment).failure.isSome = true := by
        rw [hkeeps.running]
        exact Bool.false_ne_true
      left
      simp only [next, hrest, if_neg hrunning]
      refine ⟨before ++ [fragment], hsplit, h.verdict_eq, hcontent.trans hjoin.symm, hcontent ▸ hkeeps, hsmall, h.running,
        h.completions, ?_⟩
      rw [List.map_append]
      exact h.serves.publish fragment

theorem Running.tick_faithful (h : Running fragments verdict before s) (hopen : Open store) (hbatch : s.worker.batch ≠ "") :
    Faithful store fragments verdict (tick store s) := by
  have hpos : 1 ≤ s.worker.batch.utf8ByteSize := Nat.one_le_iff_ne_zero.mpr (by simpa using hbatch)
  obtain ⟨hkeeps, hempty, hcontent⟩ := h.keeps.flush hopen hpos (by have := h.small; omega)
  have hrunning : ¬(s.worker.flush store).failure.isSome = true := by
    rw [hkeeps.running]
    exact Bool.false_ne_true
  left
  rw [tick, if_neg hrunning]
  refine ⟨before, h.split, h.verdict_eq, hcontent.trans h.content, hcontent.symm ▸ hkeeps, ?_, h.running, h.completions, h.serves⟩
  change (s.worker.flush store).batch.utf8ByteSize < 4096
  rw [hempty]
  decide

/-- What a subscriber does changes nothing but the channel. -/
theorem Faithful.channel (h : Faithful store fragments verdict s) {c : Channel}
    (hc : ∀ sent ended, s.ended = ended → Serves sent ended s.channel → Serves sent ended c) :
    Faithful store fragments verdict { s with channel := c } := by
  rcases h with ⟨before, h⟩ | h
  · exact .inl ⟨before, h.split, h.verdict_eq, h.content, h.keeps, h.small, h.running, h.completions,
      hc _ _ h.running h.serves⟩
  · exact .inr ⟨h.sizes, h.ended, hc _ _ h.ended h.serves, h.stored, h.completions, h.completed⟩

theorem step_faithful (hopen : Open store) (hfragments : ∀ f ∈ fragments, f.utf8ByteSize ≤ 65536)
    (hfits : (String.join fragments).utf8ByteSize ≤ maxOutput) (s : State) (e : Event) (h : Faithful store fragments verdict s)
    (henabled : Enabled s e) : Faithful store fragments verdict (step store s e) := by
  cases e with
  | next =>
      rcases h with ⟨before, h⟩ | h
      · exact h.next_faithful hopen hfragments hfits
      · cases h.ended.symm.trans henabled
  | timer =>
      rcases h with ⟨before, h⟩ | h
      · exact h.tick_faithful hopen henabled.2
      · cases h.ended.symm.trans henabled.1
  | receive =>
      rw [step]
      cases hqueue : s.channel.queue with
      | nil => exact h
      | cons item queue => exact h.channel fun sent ended _ hserves => hserves.receives hqueue
  | detach => exact h.channel fun sent ended _ hserves => hserves.detaches
  | close =>
      obtain ⟨-, -, hempty, hgone⟩ := henabled
      exact h.channel fun sent ended hended hserves => hserves.closes hempty (hended ▸ hgone)

end Runs

def weight (s : State) : Nat :=
  4 * s.rest.length + (if s.worker.batch = "" then 0 else 1) + s.channel.queue.length + (if s.ended then 0 else 4) +
    (if s.channel.told.isSome then 0 else 1) + if s.channel.receiving then 1 else 0

theorem publish_frame (c : Channel) (fragment : String) : (c.publish fragment).queue.length ≤ c.queue.length + 1 ∧
    (c.publish fragment).told = c.told ∧ (c.publish fragment).receiving = c.receiving := by
  rw [Channel.publish]
  split
  · rcases trySend_cases c (.ok fragment) with ⟨-, hsent⟩ | ⟨-, hsent⟩ | hsent <;> simp [hsent]
  · simp

theorem report_frame (c : Channel) (e : String) : (c.report e).queue.length ≤ c.queue.length + 1 ∧
    (c.report e).told = c.told ∧ (c.report e).receiving = c.receiving := by
  rw [Channel.report]
  split
  · rcases trySend_cases c (.error e) with ⟨-, hsent⟩ | ⟨-, hsent⟩ | hsent <;> simp [hsent]
  · simp

theorem finish_frame (s : State) : (finish store s).rest = s.rest ∧ (finish store s).channel = s.channel ∧
    (finish store s).ended = true := by
  rw [finish]
  split
  · exact ⟨rfl, rfl, rfl⟩
  · split <;> exact ⟨rfl, rfl, rfl⟩

theorem weight_finish {s : State} (h : s.ended = false) : weight (finish store s) + 3 ≤ weight s := by
  obtain ⟨hrest, hchannel, hended⟩ := finish_frame store s
  rw [weight, weight, hrest, hchannel, hended, h]
  simp only [if_true, Bool.false_eq_true, if_false]
  split <;> split <;> omega

theorem weight_next {s : State} (h : s.ended = false) : weight (next store s) < weight s := by
  cases hrest : s.rest with
  | nil =>
      cases hverdict : s.verdict with
      | ok u =>
          rw [next_ok hrest hverdict]
          have := weight_finish store h
          omega
      | error e =>
          rw [next_error hrest hverdict]
          obtain ⟨hqueue, htold, hreceiving⟩ := report_frame s.channel e
          have hfinish := weight_finish store
            (s := { s with worker := { s.worker with failure := some e }, channel := s.channel.report e }) h
          have hsame : weight { s with worker := { s.worker with failure := some e }, channel := s.channel.report e } ≤
              weight s + 1 := by
            simp only [weight, htold, hreceiving]
            omega
          omega
  | cons fragment rest =>
      simp only [next, hrest]
      split
      · have hfinish := weight_finish store (s := { s with rest := rest, worker := s.worker.absorb store fragment }) h
        have hsame : weight { s with rest := rest, worker := s.worker.absorb store fragment } ≤ weight s := by
          simp only [weight, hrest, List.length_cons]
          split <;> split <;> omega
        omega
      · obtain ⟨hqueue, htold, hreceiving⟩ := publish_frame s.channel fragment
        simp only [weight, hrest, List.length_cons, htold, hreceiving]
        split <;> split <;> omega

theorem flush_cases (w : Worker) : (w.flush store).failure.isSome ∨ (w.flush store).batch = "" := by
  rw [Worker.flush]
  split
  · exact .inr rfl
  · exact .inl rfl

theorem weight_tick {s : State} (h : s.ended = false) (hbatch : s.worker.batch ≠ "") : weight (tick store s) < weight s := by
  rw [tick]
  split
  · have hfinish := weight_finish store (s := { s with worker := s.worker.flush store }) h
    have hsame : weight { s with worker := s.worker.flush store } ≤ weight s := by
      simp only [weight, if_neg hbatch]
      split <;> omega
    omega
  · next hrunning =>
    have hempty := (flush_cases store s.worker).resolve_left hrunning
    simp only [weight, hempty, if_neg hbatch, if_true]
    omega

/-- Every step uses up a part of what may happen. -/
theorem weight_step {s : State} {e : Event} (h : Enabled s e) : weight (step store s e) < weight s := by
  cases e with
  | next => exact weight_next store h
  | timer => exact weight_tick store h.1 h.2
  | receive =>
      obtain ⟨-, -, hqueue⟩ := h
      rw [step]
      cases hitems : s.channel.queue with
      | nil => exact absurd hitems hqueue
      | cons item queue =>
          simp only [weight, hitems, List.length_cons]
          omega
  | detach =>
      have hreceiving : s.channel.receiving = true := h
      change weight { s with channel := { s.channel with receiving := false } } < weight s
      simp only [weight, hreceiving, if_true, Bool.false_eq_true, if_false]
      omega
  | close =>
      obtain ⟨-, htold, -⟩ := h
      change weight { s with channel := { s.channel with told := some s.channel.lagged } } < weight s
      simp only [weight, htold, Option.isSome_none, Option.isSome_some, Bool.false_eq_true, if_true, if_false]
      omega

theorem run_length {s : State} {events : List Event} (h : Along (step store) Enabled s events) :
    events.length + weight (run (step store) s events) ≤ weight s := by
  induction events generalizing s with
  | nil => exact (Nat.zero_add _).le
  | cons e events ih =>
      have hstep := weight_step store h.1
      have hrest := ih h.2
      rw [run_cons, List.length_cons]
      omega

/-- A generation that can do no more is over, and its subscriber has seen the
end or has left. -/
theorem Finished.facts {s : State} (h : Finished s) : s.ended = true ∧ (s.channel.told.isSome ∨ s.channel.receiving = false) := by
  have hended : s.ended = true := by
    rcases h .next with he | he
    · cases he
    · exact Bool.eq_true_of_not_eq_false he
  refine ⟨hended, ?_⟩
  cases hreceiving : s.channel.receiving with
  | false => exact .inr rfl
  | true =>
      left
      cases htold : s.channel.told with
      | some lagged => rfl
      | none =>
          have hqueue : s.channel.queue = [] := by
            rcases h .receive with he | he
            · cases he
            · by_contra hne
              exact he ⟨hreceiving, htold, hne⟩
          rcases h .close with he | he
          · cases he
          · exact absurd ⟨hreceiving, htold, hqueue, .inl hended⟩ he

/-- The answer of an agent does not depend on how its bytes arrive, on when its
batches are stored or on what its subscriber does. -/
theorem answer_unchanged (r : Reader) (parts : List (List UInt8)) :
    decodeStream r (parts.map .ok) = decodeWhole r parts.flatten ∧
    ∀ (fragments : List String) (verdict : Except String Unit), decodeStream r (parts.map .ok) = (fragments, verdict) →
    (String.join fragments).utf8ByteSize ≤ maxOutput → ∀ store, Open store → ∀ events,
    Along (step store) Enabled (start fragments verdict) events →
    let s := run (step store) (start fragments verdict) events
    events.length ≤ 4 * fragments.length + 6 ∧
    (∀ b ∈ s.worker.appended, 1 ≤ b.utf8ByteSize ∧ b.utf8ByteSize ≤ 65536) ∧
    (∃ rest, String.join s.worker.appended ++ rest = String.join fragments) ∧
    s.channel.received <+: items fragments (failureOf verdict) ∧
    (∀ e, verdict = .error e → s.completions = []) ∧
    (verdict = .ok () → Finished s →
      String.join s.worker.appended = String.join fragments ∧ s.completions = [String.join fragments] ∧
      (store.completeGeneration (String.join fragments) = .ok () → s.completed = true) ∧
      (s.channel.received = fragments.map .ok ∨ s.channel.told = some true ∨ s.channel.receiving = false)) := by
  have hwhole := decodeStream_eq (r := r) parts
  refine ⟨hwhole, fun fragments verdict hdecoded hfits store hopen events halong => ?_⟩
  have hfragments : ∀ f ∈ fragments, f.utf8ByteSize ≤ 65536 := by
    intro f hf
    rw [hdecoded, decodeWhole] at hwhole
    have hall := fragment_le (r := r) (Lib.Framing.cut 10 parts.flatten).1 (Lib.Framing.cut 10 parts.flatten).2
    rw [← hwhole] at hall
    exact hall f hf
  have hfaithful := run_invariant (step_faithful hopen hfragments hfits) (start_faithful store fragments verdict) halong
  have hlength := run_length store halong
  refine ⟨?_, ?_⟩
  · have hstart : weight (start fragments verdict) = 4 * fragments.length + 6 := by simp [weight, start]
    omega
  rcases hfaithful with ⟨before, h⟩ | h
  · refine ⟨h.keeps.sizes, ?_, ?_, fun _ _ => h.completions, fun _ hfinished => ?_⟩
    · refine ⟨(run (step store) (start fragments verdict) events).worker.batch ++
        String.join (run (step store) (start fragments verdict) events).rest, ?_⟩
      rw [← String.append_assoc, h.keeps.stored, h.content, ← String.join_append, ← h.split]
    · have hpart : before.map Except.ok <+: items fragments (failureOf verdict) := by
        rw [items, h.split, List.map_append, List.append_assoc]
        exact List.prefix_append _ _
      exact (List.prefix_append _ _).trans (h.serves.part.trans hpart)
    · cases h.running.symm.trans hfinished.facts.1
  · have hpart : (run (step store) (start fragments verdict) events).channel.received <+: items fragments (failureOf verdict) :=
      (List.prefix_append _ _).trans h.serves.part
    refine ⟨h.sizes, h.stored.imp fun _ hrest => hrest.1, hpart, fun e he => ?_, fun hok hfinished => ?_⟩
    · rw [h.completions, he]
      rfl
    · obtain ⟨rest, hstored, hrest⟩ := h.stored
      refine ⟨?_, by rw [h.completions, hok]; rfl, h.completed hok, ?_⟩
      · rwa [hrest hok, String.append_empty] at hstored
      · rcases hfinished.facts.2 with htold | hleft
        · have hitems : items fragments (failureOf verdict) = fragments.map .ok := by
            rw [hok, items, failureOf, Option.toList_none, List.map_nil, List.append_nil]
          rw [← hitems]
          exact h.serves.complete htold
        · exact .inr (.inr hleft)

def bytes (text : String) : List UInt8 := text.toList.map fun c => UInt8.ofNat c.toNat

/-- A printable ASCII character that JSON strings hold as it is. -/
def plain (byte : UInt8) : Bool := 32 ≤ byte && byte < 127 && byte ≠ 34 && byte ≠ 92

def contentOf (kind : String) (frame : List UInt8) : Option String :=
  let start := bytes ("\x7b\"kind\":\"" ++ kind ++ "\",\"content\":\"")
  let inner := (frame.drop start.length).takeWhile plain
  if frame = start ++ inner ++ bytes "\"\x7d" then some (String.ofList (inner.map fun byte => Char.ofNat byte.toNat)) else none

theorem utf8ByteSize_plain {inner : List UInt8} (h : ∀ byte ∈ inner, plain byte = true) :
    (String.ofList (inner.map fun byte => Char.ofNat byte.toNat)).utf8ByteSize = inner.length := by
  have hascii : ∀ n < 127, (Char.ofNat n).utf8Size = 1 := by decide
  rw [← String.utf8Len_toList, String.toList_ofList]
  induction inner with
  | nil => rfl
  | cons byte inner ih =>
      obtain ⟨hbyte, hinner⟩ := List.forall_mem_cons.mp h
      have hsmall : byte.toNat < 127 := by
        simp only [plain, Bool.and_eq_true, decide_eq_true_eq] at hbyte
        exact UInt8.lt_iff_toNat_lt.mp hbyte.1.1.2
      rw [List.map_cons, String.utf8Len_cons, ih hinner, hascii _ hsmall, List.length_cons]

theorem contentOf_le {kind : String} {frame : List UInt8} {content : String} (h : contentOf kind frame = some content) :
    content.utf8ByteSize ≤ frame.length := by
  rw [contentOf] at h
  split at h
  · next hframe =>
      obtain rfl := Option.some.inj h
      rw [utf8ByteSize_plain fun byte hbyte => List.mem_takeWhile_imp hbyte]
      calc
        _ ≤ (frame.drop _).length := (List.takeWhile_prefix _).length_le
        _ = frame.length - _ := List.length_drop
        _ ≤ frame.length := Nat.sub_le _ _
  · exact absurd h (by simp)

def plainReader : Reader where
  fromSlice frame :=
    if frame = bytes "\x7b\"kind\":\"completed\"\x7d" then some .completed
    else if frame = bytes "\x7b\"kind\":\"failed\"\x7d" then some .failed
    else
      match contentOf "content" frame, contentOf "tool" frame with
      | some content, _ => some (.content content)
      | none, some tool => some (.tool tool)
      | none, none => (contentOf "activity" frame).map .activity
  activity _ := .ok ()
  content_le frame content h := by
    split at h
    · cases h
    split at h
    · cases h
    split at h
    · next hcontent =>
        cases h
        exact contentOf_le hcontent
    · cases h
    · cases hactivity : contentOf "activity" frame <;> simp [hactivity] at h

/-- A search, the answer and its end, cut in two places. -/
def greeting : List (List UInt8) :=
  [bytes "\x7b\"kind\":\"tool\",\"content\":\"sea", bytes "rch\"\x7d\n\x7b\"kind\":\"content\",\"content\":\"hi\"\x7d\n\x7b\"kin",
    bytes "d\":\"completed\"\x7d\n"]

theorem answer_unchanged_greeting :
    (run (step ⟨fun _ _ => .ok (), fun _ => .ok ()⟩) (start ["hi"] (.ok ())) [.next, .timer, .next, .receive, .close]).completions =
      ["hi"] := by
  have hdecoded : decodeStream plainReader (greeting.map .ok) = (["hi"], .ok ()) := by decide +kernel
  have h := (answer_unchanged plainReader greeting).2 _ _ hdecoded (by decide)
    ⟨fun _ _ => .ok (), fun _ => .ok ()⟩ (fun _ _ _ _ => rfl) [.next, .timer, .next, .receive, .close]
    ⟨rfl, ⟨rfl, by decide⟩, rfl, ⟨rfl, rfl, by decide⟩, ⟨rfl, rfl, rfl, .inl rfl⟩, trivial⟩
  refine (h.2.2.2.2.2 rfl fun e => ?_).2.1
  cases e with
  | next => exact .inr fun he => Bool.noConfusion (show true = false from he)
  | timer => exact .inr fun he => absurd he.1 (by decide)
  | receive => exact .inr fun he => absurd he.2.1 (by decide)
  | detach => exact .inl rfl
  | close => exact .inr fun he => absurd he.2.1 (by decide)

end Galadril.Conversations.Streaming
