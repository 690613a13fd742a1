import Galadril.Conversations.Store
import Galadril.Lib.Transitions

namespace Galadril.Conversations

open Lib Lib.Checked Lib.Transitions

structure Thread where
  message : Option MessageRow
  revisions : List RevisionRow
  attachments : List MessageAttachment
  events : List EventRow

def Tables.thread (t : Tables) (messageId : String) : Thread :=
  ⟨t.messages.find messageId, t.revisionsOf messageId, t.attachmentsOf messageId, t.eventsOf messageId⟩

@[simp] theorem thread_touch (t : Tables) (now : Int) (messageId : String) :
    (t.touch now).thread messageId = t.thread messageId := rfl

@[simp] theorem thread_release (t : Tables) (now : Int) (messageId : String) :
    (t.release now).thread messageId = t.thread messageId := rfl

@[simp] theorem thread_conversation (t : Tables) (conversation : ConversationRow) (messageId : String) :
    { t with conversation }.thread messageId = t.thread messageId := rfl

structure Changes (t u : Tables) (messageId : String) (after : Thread) : Prop where
  conversation : u.conversation = t.conversation
  other : ∀ other, other ≠ messageId → u.thread other = t.thread other
  here : u.thread messageId = after

variable {t u v : Tables} {messageId : String} {a b : Thread}

theorem Changes.trans (h : Changes t u messageId a) (h' : Changes u v messageId b) : Changes t v messageId b where
  conversation := h'.conversation.trans h.conversation
  other other hne := (h'.other other hne).trans (h.other other hne)
  here := h'.here

theorem updateRow_changes {conditions : MessageRow → Bool} {f : MessageRow → MessageRow}
    {hf : ∀ m, (f m).messageId = m.messageId} {e : String} (h : t.updateRow messageId conditions f hf e = .ok u) :
    ∃ m, t.messages.find messageId = some m ∧ conditions m = true ∧
      Changes t u messageId { t.thread messageId with message := some (f m) } := by
  simp only [Tables.updateRow, bind_eq_ok, ensure_eq_ok, Option.any_eq_true_iff_get, pure_eq_ok] at h
  obtain ⟨_, ⟨hsome, hconditions⟩, rfl⟩ := h
  obtain ⟨m, hm⟩ := Option.isSome_iff_exists.mp hsome
  have hmeets : conditions m = true := by simpa [hm] using hconditions
  refine ⟨m, hm, hmeets, rfl, fun other hne => ?_, ?_⟩
  · have hfind := Table.find_update_other (t := t.messages) (k := other)
      (p := fun m => m.messageId = messageId && conditions m) hf (by
        intro m hm
        have : m.messageId ≠ messageId := by rwa [Table.key_of_find hm]
        simp [this])
    simp [Tables.thread, hfind, Tables.revisionsOf, Tables.attachmentsOf, Tables.eventsOf]
  · have hkey : m.messageId = messageId := Table.key_of_find hm
    simp [Tables.thread, Table.find_update, hm, hkey, hmeets, Tables.revisionsOf, Tables.attachmentsOf, Tables.eventsOf]

theorem appendMessageRevision_changes {changedBy : String} (h : t.appendMessageRevision messageId changedBy = .ok u) :
    ∃ m, t.messages.find messageId = some m ∧ Changes t u messageId { t.thread messageId with
      revisions := t.revisionsOf messageId ++ [m.revisionRow (t.attachmentsOf messageId) changedBy] } := by
  simp only [Tables.appendMessageRevision, bind_eq_ok, ensure_eq_ok, context_eq_ok, pure_eq_ok] at h
  obtain ⟨m, hm, _, -, revisions, hinsert, rfl⟩ := h
  have hrows := insertRow_rows hinsert
  have hkey : m.messageId = messageId := Table.key_of_find hm
  refine ⟨m, hm, rfl, fun other hne => ?_, ?_⟩
  · have hother : messageId ≠ other := fun h => hne h.symm
    simp [Tables.thread, Tables.revisionsOf, hrows, MessageRow.revisionRow, hkey, hother, Tables.attachmentsOf, Tables.eventsOf]
  · simp [Tables.thread, Tables.revisionsOf, hrows, MessageRow.revisionRow, hkey, Tables.attachmentsOf, Tables.eventsOf]

theorem Changes.updateRow (hv : Changes t v messageId a) {conditions : MessageRow → Bool} {f : MessageRow → MessageRow}
    {hf : ∀ m, (f m).messageId = m.messageId} {e : String} (h : v.updateRow messageId conditions f hf e = .ok u) :
    ∃ m, a.message = some m ∧ conditions m = true ∧ Changes t u messageId { a with message := some (f m) } := by
  obtain ⟨m, hm, hmeets, hchanges⟩ := updateRow_changes h
  have hmessage : a.message = v.messages.find messageId := congrArg Thread.message hv.here.symm
  exact ⟨m, hmessage.trans hm, hmeets, hv.here ▸ hv.trans hchanges⟩

theorem Changes.appendMessageRevision (hv : Changes t v messageId a) {changedBy : String} {m : MessageRow}
    (hm : a.message = some m) (h : v.appendMessageRevision messageId changedBy = .ok u) :
    Changes t u messageId { a with revisions := a.revisions ++ [m.revisionRow a.attachments changedBy] } := by
  obtain ⟨n, hn, hchanges⟩ := appendMessageRevision_changes h
  have hthread := hv.here
  obtain rfl : a = v.thread messageId := hthread.symm
  obtain rfl := Option.some.inj (hm.symm.trans hn)
  exact hv.trans hchanges

theorem insertAttachment_changes {attachment : MessageAttachment} (h : t.insertAttachment messageId attachment = .ok u) :
    ∃ attachments, Changes t u messageId { t.thread messageId with attachments } := by
  simp only [Tables.insertAttachment, bind_eq_ok, ensure_eq_ok, pure_eq_ok] at h
  obtain ⟨_, -, attachments, hinsert, rfl⟩ := h
  have hrows := insertRow_rows hinsert
  refine ⟨_, rfl, fun other hne => ?_, rfl⟩
  have hother : messageId ≠ other := fun h => hne h.symm
  simp [Tables.thread, Tables.attachmentsOf, hrows, hother, Tables.revisionsOf, Tables.eventsOf]

theorem insertAttachments_changes {attachments : List MessageAttachment}
    (h : t.insertAttachments messageId attachments = .ok u) :
    ∃ stored, Changes t u messageId { t.thread messageId with attachments := stored } := by
  induction attachments generalizing t with
  | nil =>
      obtain rfl := pure_eq_ok.mp h
      exact ⟨t.attachmentsOf messageId, rfl, fun _ _ => rfl, rfl⟩
  | cons attachment attachments ih =>
      rw [Tables.insertAttachments, List.foldlM_cons, bind_eq_ok] at h
      obtain ⟨w, hfirst, hrest⟩ := h
      obtain ⟨_, hw⟩ := insertAttachment_changes hfirst
      obtain ⟨stored, hu⟩ := ih hrest
      rw [hw.here] at hu
      exact ⟨stored, hw.trans hu⟩

theorem insertMessage_changes {now : Int} {message : NewConversationMessage} (h : t.insertMessage now message = .ok u) :
    t.messages.find message.messageId = none ∧ ∃ stored, Changes t u message.messageId {
      message := some (message.row now)
      revisions := t.revisionsOf message.messageId ++ [(message.row now).revisionRow stored message.createdBy]
      attachments := stored
      events := t.eventsOf message.messageId } := by
  simp only [Tables.insertMessage, bind_eq_ok, ensure_eq_ok] at h
  obtain ⟨_, -, _, -, messages, hinsert, w, hattachments, hrevision⟩ := h
  obtain ⟨hnone, rfl⟩ := insertRow_eq_ok.mp hinsert
  have hrow : Changes t { t with messages := t.messages.insert (message.row now) } message.messageId
      { t.thread message.messageId with message := some (message.row now) } := by
    refine ⟨rfl, fun other hne => ?_, ?_⟩
    · have hother : message.messageId ≠ other := fun h => hne h.symm
      have hfind : (t.messages.insert (message.row now)).find other = t.messages.find other := by
        rw [Table.find_insert hnone]
        exact if_neg hother
      simp [Tables.thread, hfind, Tables.revisionsOf, Tables.attachmentsOf, Tables.eventsOf]
    · have hfind : (t.messages.insert (message.row now)).find message.messageId = some (message.row now) := by
        rw [Table.find_insert hnone]
        exact if_pos rfl
      simp [Tables.thread, hfind, Tables.revisionsOf, Tables.attachmentsOf, Tables.eventsOf]
  obtain ⟨stored, hstored⟩ := insertAttachments_changes hattachments
  rw [hrow.here] at hstored
  exact ⟨hnone, stored, (hrow.trans hstored).appendMessageRevision rfl hrevision⟩

theorem insertMessage_column {now : Int} {message : NewConversationMessage} (h : t.insertMessage now message = .ok u) :
    column message.messageId = message.messageId := by
  simp only [Tables.insertMessage, bind_eq_ok, ensure_eq_ok, decide_eq_true_eq] at h
  obtain ⟨_, -, _, hcolumn, -⟩ := h
  exact hcolumn

theorem appendEvent_changes {generationId content : String} {kind : EventKind}
    (h : t.appendEvent generationId kind content = .ok u) :
    t.conversation.activeGenerationId = some generationId ∧ ∃ m, t.messages.find generationId = some m ∧
      Changes t u generationId { t.thread generationId with
        message := some { m with generationSequence := m.generationSequence + 1 }
        events := t.eventsOf generationId ++ [⟨generationId, m.generationSequence + 1, kind, content⟩] } := by
  simp only [Tables.appendEvent, bind_eq_ok, ensure_eq_ok, context_eq_ok, pure_eq_ok, decide_eq_true_eq] at h
  obtain ⟨_, hactive, m, hm, w, hupdate, _, -, events, hinsert, rfl⟩ := h
  obtain ⟨n, hn, -, hchanges⟩ := updateRow_changes hupdate
  obtain rfl := Option.some.inj (hn.symm.trans hm)
  have hrows := insertRow_rows hinsert
  refine ⟨hactive, n, hm, hchanges.conversation, fun other hne => ?_, ?_⟩
  · have hother : generationId ≠ other := fun h => hne h.symm
    rw [← hchanges.other other hne]
    simp [Tables.thread, Tables.eventsOf, hrows, hother, Tables.revisionsOf, Tables.attachmentsOf]
  · have hevents : w.eventsOf generationId = t.eventsOf generationId := congrArg Thread.events hchanges.here
    have hhere : Tables.thread { w with events } generationId =
        { w.thread generationId with
          events := w.eventsOf generationId ++ [⟨generationId, n.generationSequence + 1, kind, content⟩] } := by
      simp [Tables.thread, Tables.eventsOf, hrows, Tables.revisionsOf, Tables.attachmentsOf]
    rw [hhere, hchanges.here, hevents]

structure RevisionRow.Current (r : RevisionRow) (m : MessageRow) (attachments : List MessageAttachment) : Prop where
  revision : r.revision = m.revision
  content : r.content = m.content
  status : r.status = m.status
  attachments : r.attachments = attachments
  deletedAt : r.deletedAt = m.deletedAt

def EventKind.terminal : EventKind → Bool
  | .content => false
  | .completed | .failed => true

def generation (revisions : List RevisionRow) : Bool := revisions.head?.any (·.status = .pending)

structure Recorded (m : MessageRow) (attachments : List MessageAttachment) (revisions : List RevisionRow) : Prop where
  numbered : revisions.map RevisionRow.revision = List.range' 1 m.revision
  current : ∃ r, revisions.getLast? = some r ∧ r.Current m attachments

structure Logged (m : MessageRow) (events : List EventRow) : Prop where
  numbered : events.map EventRow.sequence = List.range' 1 m.generationSequence
  contents : ∀ e ∈ events.dropLast, e.kind.terminal = false
  ended : (∃ e, events.getLast? = some e ∧ e.kind.terminal = true) ↔ m.status ≠ .pending

def Thread.Kept (reserved : Prop) (h : Thread) : Prop :=
  match h.message with
  | none => h.revisions = [] ∧ h.events = [] ∧ ¬ reserved
  | some m => (m.status = .pending ↔ reserved) ∧ Recorded m h.attachments h.revisions ∧
      if generation h.revisions then Logged m h.events else h.events = [] ∧ m.generationSequence = 0 ∧ ¬ reserved

theorem current_revisionRow (m : MessageRow) (attachments : List MessageAttachment) (changedBy : String) :
    (m.revisionRow attachments changedBy).Current m attachments := ⟨rfl, rfl, rfl, rfl, rfl⟩

section Invariant

variable {m m' : MessageRow} {attachments stored : List MessageAttachment} {revisions : List RevisionRow}
  {events : List EventRow} {r : RevisionRow} {reserved : Prop}

theorem Recorded.revise (h : Recorded m attachments revisions) (hnext : m'.revision = m.revision + 1)
    (hr : r.Current m' stored) : Recorded m' stored (revisions ++ [r]) where
  numbered := by rw [List.map_append, h.numbered, hnext, List.range'_1_concat, List.map_singleton, hr.revision, hnext, Nat.add_comm]
  current := ⟨r, List.getLast?_concat, hr⟩

theorem Recorded.nonempty (h : Recorded m attachments revisions) : revisions ≠ [] := by
  obtain ⟨r, hr, -⟩ := h.current
  rintro rfl
  cases hr

theorem Recorded.generation_append (h : Recorded m attachments revisions) :
    generation (revisions ++ [r]) = generation revisions := by
  rw [generation, generation, List.head?_append_of_ne_nil _ h.nonempty]

/-- What a revision says does not depend on the counters of the message. -/
theorem Recorded.congr (h : Recorded m attachments revisions) (hrevision : m'.revision = m.revision)
    (hcontent : m'.content = m.content) (hstatus : m'.status = m.status) (hdeleted : m'.deletedAt = m.deletedAt) :
    Recorded m' attachments revisions := by
  obtain ⟨r, hlast, hr⟩ := h.current
  refine ⟨by rw [h.numbered, hrevision], r, hlast, ?_⟩
  exact ⟨hr.revision.trans hrevision.symm, hr.content.trans hcontent.symm, hr.status.trans hstatus.symm, hr.attachments,
    hr.deletedAt.trans hdeleted.symm⟩

theorem Logged.congr (h : Logged m events) (hsequence : m'.generationSequence = m.generationSequence)
    (hstatus : m'.status = m.status) : Logged m' events :=
  ⟨by rw [h.numbered, hsequence], h.contents, by rw [h.ended, hstatus]⟩

theorem Logged.append (h : Logged m events) (hpending : m.status = .pending) {e : EventRow}
    (hsequence : e.sequence = m.generationSequence + 1) (hnext : m'.generationSequence = m.generationSequence + 1)
    (hstatus : e.kind.terminal = true ↔ m'.status ≠ .pending) : Logged m' (events ++ [e]) where
  numbered := by
    rw [List.map_append, h.numbered, hnext, List.range'_1_concat, List.map_singleton, hsequence, Nat.add_comm]
  contents := by
    intro e' he'
    rw [List.dropLast_concat] at he'
    have hopen : ¬ ∃ e, events.getLast? = some e ∧ e.kind.terminal = true := fun hended => h.ended.mp hended hpending
    rcases List.eq_nil_or_concat events with rfl | ⟨front, last, rfl⟩
    · cases he'
    · rw [List.concat_eq_append] at he' hopen
      rcases List.mem_append.mp he' with hfront | hlast
      · exact h.contents e' (by rwa [List.concat_eq_append, List.dropLast_concat])
      · obtain rfl := List.mem_singleton.mp hlast
        have hnot : ¬ e'.kind.terminal = true := fun ht => hopen ⟨e', List.getLast?_concat, ht⟩
        simpa using hnot
  ended := by simpa using hstatus

theorem Thread.Kept.insert {h : Thread} (hk : h.Kept reserved) (hnone : h.message = none) (hfirst : m.revision = 1)
    (hsequence : m.generationSequence = 0) (hr : r.Current m stored) :
    Thread.Kept (m.status = .pending) ⟨some m, h.revisions ++ [r], stored, h.events⟩ := by
  simp only [Thread.Kept, hnone] at hk
  obtain ⟨hrevisions, hevents, -⟩ := hk
  have hrecorded : Recorded m stored [r] := by
    refine ⟨?_, r, rfl, hr⟩
    simp [hr.revision, hfirst]
  have hgeneration : generation [r] = decide (m.status = .pending) := by
    simp [generation, hr.status]
  simp only [Thread.Kept, hrevisions, hevents, List.nil_append, hgeneration, true_and]
  refine ⟨hrecorded, ?_⟩
  by_cases hpending : m.status = .pending
  · rw [if_pos (by simpa using hpending)]
    refine ⟨?_, by simp, ?_⟩
    · simp [hsequence]
    · simp [hpending]
  · rw [if_neg (by simpa using hpending)]
    exact ⟨hsequence, hpending⟩

/-- An edit of a message appends its next revision. -/
theorem Thread.Kept.revise {h : Thread} (hk : h.Kept reserved) (hm : h.message = some m)
    (hnext : m'.revision = m.revision + 1) (hsequence : m'.generationSequence = m.generationSequence)
    (hstatus : m'.status = m.status) (hr : r.Current m' stored) :
    Thread.Kept reserved ⟨some m', h.revisions ++ [r], stored, h.events⟩ := by
  simp only [Thread.Kept, hm] at hk
  obtain ⟨hpending, hrecorded, hlog⟩ := hk
  simp only [Thread.Kept, hstatus, hrecorded.generation_append, hsequence]
  refine ⟨hpending, hrecorded.revise hnext hr, ?_⟩
  by_cases hgeneration : generation h.revisions = true
  · rw [if_pos hgeneration] at hlog ⊢
    exact hlog.congr hsequence hstatus
  · rw [if_neg hgeneration] at hlog ⊢
    exact hlog

/-- A batch of a reserved generation appends an event. -/
theorem Thread.Kept.log {h : Thread} (hk : h.Kept True) (hm : h.message = some m) (generationId content : String) :
    Thread.Kept True { h with
      message := some { m with generationSequence := m.generationSequence + 1 }
      events := h.events ++ [⟨generationId, m.generationSequence + 1, .content, content⟩] } := by
  simp only [Thread.Kept, hm] at hk ⊢
  obtain ⟨hpending, hrecorded, hlog⟩ := hk
  refine ⟨hpending, hrecorded.congr rfl rfl rfl rfl, ?_⟩
  by_cases hgeneration : generation h.revisions = true
  · rw [if_pos hgeneration] at hlog ⊢
    have hstatus : m.status = .pending := hpending.mpr trivial
    refine Logged.append hlog hstatus rfl rfl ?_
    simp [EventKind.terminal, hstatus]
  · rw [if_neg hgeneration] at hlog
    exact absurd trivial hlog.2.2

theorem Thread.Kept.close {h : Thread} (hk : h.Kept True) (hm : h.message = some m) {e : EventRow}
    (hsequence : e.sequence = m.generationSequence + 1) (hterminal : e.kind.terminal = true)
    (hnext : m'.revision = m.revision + 1) (hlogged : m'.generationSequence = m.generationSequence + 1)
    (hstatus : m'.status ≠ .pending) (hr : r.Current m' stored) :
    Thread.Kept False ⟨some m', h.revisions ++ [r], stored, h.events ++ [e]⟩ := by
  simp only [Thread.Kept, hm] at hk
  obtain ⟨hpending, hrecorded, hlog⟩ := hk
  simp only [Thread.Kept, hrecorded.generation_append]
  refine ⟨by simpa using hstatus, hrecorded.revise hnext hr, ?_⟩
  by_cases hgeneration : generation h.revisions = true
  · rw [if_pos hgeneration] at hlog ⊢
    exact hlog.append (hpending.mpr trivial) hsequence hlogged (by simp [hterminal, hstatus])
  · rw [if_neg hgeneration] at hlog
    exact absurd trivial hlog.2.2

end Invariant

/-- Between transactions every message has its history, and a deleted
conversation is not reserved. -/
structure Sound (t : Tables) : Prop where
  threads : ∀ messageId, (t.thread messageId).Kept (t.conversation.activeGenerationId = some messageId)
  deleted : t.conversation.deletedAt.isSome = true → t.conversation.activeGenerationId = none

variable {now : Int}

/-- A transaction that writes one message leaves the others under the same
reservation. -/
theorem Sound.change (hs : Sound t) (messageId : String) (hother : ∀ other, other ≠ messageId → u.thread other = t.thread other)
    (hactive : ∀ other, other ≠ messageId →
      (u.conversation.activeGenerationId = some other ↔ t.conversation.activeGenerationId = some other))
    (hhere : (u.thread messageId).Kept (u.conversation.activeGenerationId = some messageId))
    (hdeleted : u.conversation.deletedAt.isSome = true → u.conversation.activeGenerationId = none) : Sound u where
  threads other := by
    by_cases hne : other = messageId
    · exact hne ▸ hhere
    · rw [hother other hne, propext (hactive other hne)]
      exact hs.threads other
  deleted := hdeleted

theorem available_eq_true : t.available = true ↔
    t.conversation.deletedAt = none ∧ t.conversation.activeGenerationId = none := by
  simp [Tables.available]

theorem Sound.idle (hs : Sound t) (messageId : String) (h : t.conversation.activeGenerationId = none) :
    (t.thread messageId).Kept False := by
  have := hs.threads messageId
  simpa [h] using this

theorem Sound.reserved (hs : Sound t) {messageId : String} (h : t.conversation.activeGenerationId = some messageId) :
    (t.thread messageId).Kept True := by
  have := hs.threads messageId
  simpa [h] using this

theorem createConversation_sound {conversationId ownerId title : String}
    (h : Tables.createConversation now conversationId ownerId title = .ok t) : Sound t := by
  simp only [Tables.createConversation, bind_eq_ok, pure_eq_ok] at h
  obtain ⟨_, -, rfl⟩ := h
  refine ⟨fun messageId => ?_, fun _ => rfl⟩
  exact ⟨rfl, rfl, by simp⟩

theorem updateConversation_sound {expectedRevision : Int} {title : String} (hs : Sound t)
    (h : t.updateConversation now expectedRevision title = .ok u) : Sound u := by
  simp only [Tables.updateConversation, bind_eq_ok, pure_eq_ok] at h
  obtain ⟨_, -, _, -, rfl⟩ := h
  exact ⟨hs.threads, hs.deleted⟩

theorem deleteConversation_sound {expectedRevision : Int} (hs : Sound t)
    (h : t.deleteConversation now expectedRevision = .ok u) : Sound u := by
  simp only [Tables.deleteConversation, bind_eq_ok, ensure_eq_ok, Bool.and_eq_true, available_eq_true, pure_eq_ok] at h
  obtain ⟨_, ⟨-, -, hactive⟩, rfl⟩ := h
  exact ⟨hs.threads, fun _ => hactive⟩

theorem createMessage_sound {message : NewConversationMessage} {created : ConversationMessage} (hs : Sound t)
    (hregular : message.status ≠ .pending) (h : t.createMessage now message = .ok (created, u)) : Sound u := by
  simp only [Tables.createMessage, bind_eq_ok, ensure_eq_ok, available_eq_true, pure_eq_ok] at h
  obtain ⟨_, ⟨hlive, hactive⟩, w, hinsert, _, -, heq⟩ := h
  obtain ⟨-, rfl⟩ := Prod.mk.injEq .. |>.mp heq
  obtain ⟨hnone, stored, hchanges⟩ := insertMessage_changes hinsert
  have hrow : (w.touch now).conversation.activeGenerationId = none := by
    show w.conversation.activeGenerationId = none
    rw [hchanges.conversation, hactive]
  refine hs.change message.messageId hchanges.other (fun other _ => by rw [hrow, hactive]) ?_ (fun _ => hrow)
  have hkept := (hs.idle message.messageId hactive).insert (m := message.row now) hnone rfl rfl
    (current_revisionRow _ stored message.createdBy)
  rw [thread_touch, hchanges.here, hrow]
  have hfalse : ((message.row now).status = .pending) = (none = some message.messageId) := by
    simpa [NewConversationMessage.row] using hregular
  rwa [hfalse] at hkept

theorem Sound.revised (hs : Sound t) {messageId : String} {m m' : MessageRow} {stored : List MessageAttachment} {changedBy : String}
    (hactive : t.conversation.activeGenerationId = none) (hm : t.messages.find messageId = some m)
    (hchanges : Changes t u messageId ⟨some m', t.revisionsOf messageId ++ [m'.revisionRow stored changedBy], stored,
      t.eventsOf messageId⟩) (hnext : m'.revision = m.revision + 1)
    (hsequence : m'.generationSequence = m.generationSequence) (hstatus : m'.status = m.status) : Sound (u.touch now) := by
  have hrow : (u.touch now).conversation.activeGenerationId = none := by
    show u.conversation.activeGenerationId = none
    rw [hchanges.conversation, hactive]
  refine hs.change messageId hchanges.other (fun other _ => by rw [hrow, hactive]) ?_ (fun _ => hrow)
  have hkept := (hs.idle messageId hactive).revise (m := m) hm hnext hsequence hstatus
    (current_revisionRow m' stored changedBy)
  rw [thread_touch, hchanges.here, hrow]
  have hfalse : (none = some messageId) = False := by simp
  rw [hfalse]
  exact hkept

theorem updateMessage_sound {messageId content changedBy : String} {expectedRevision : Int}
    {attachments : List MessageAttachment} {result : ConversationMessage} (hs : Sound t)
    (h : t.updateMessage now messageId expectedRevision content attachments changedBy = .ok (result, u)) : Sound u := by
  simp only [Tables.updateMessage, bind_eq_ok, pure_eq_ok] at h
  obtain ⟨v, hupdate, w, hattachments, x, hrevision, _, -, heq⟩ := h
  obtain ⟨-, rfl⟩ := Prod.mk.injEq .. |>.mp heq
  obtain ⟨m, hm, hmeets, hv⟩ := updateRow_changes hupdate
  have hactive : t.conversation.activeGenerationId = none := by
    simp only [Bool.and_eq_true, available_eq_true] at hmeets
    exact hmeets.2.2
  have hdelete : Changes v { v with attachments := v.attachments.delete (·.messageId = messageId) } messageId
      { v.thread messageId with attachments := [] } := by
    refine ⟨rfl, fun other hne => ?_, ?_⟩
    · have hfilter : v.attachments.rows.filter (fun r => decide (r.messageId = other) && !decide (r.messageId = messageId)) =
          v.attachments.rows.filter (·.messageId = other) := by
        refine List.filter_congr fun r _ => ?_
        by_cases hr : r.messageId = other <;> simp [hr, hne]
      simp [Tables.thread, Tables.attachmentsOf, Table.delete, List.filter_filter, hfilter, Tables.revisionsOf, Tables.eventsOf]
    · simp [Tables.thread, Tables.attachmentsOf, Table.delete, List.filter_filter, Tables.revisionsOf, Tables.eventsOf]
  obtain ⟨stored, hstored⟩ := insertAttachments_changes hattachments
  have hall := (hv.trans hdelete).trans hstored
  rw [hdelete.here, hv.here] at hall
  exact hs.revised hactive hm (hall.appendMessageRevision rfl hrevision) rfl rfl rfl

theorem deleteMessage_sound {messageId changedBy : String} {expectedRevision : Int} (hs : Sound t)
    (h : t.deleteMessage now messageId expectedRevision changedBy = .ok u) : Sound u := by
  simp only [Tables.deleteMessage, bind_eq_ok, pure_eq_ok] at h
  obtain ⟨v, hupdate, w, hrevision, rfl⟩ := h
  obtain ⟨m, hm, hmeets, hv⟩ := updateRow_changes hupdate
  have hactive : t.conversation.activeGenerationId = none := by
    simp only [Bool.and_eq_true, available_eq_true] at hmeets
    exact hmeets.2.2
  exact hs.revised hactive hm (hv.appendMessageRevision rfl hrevision) rfl rfl rfl

theorem beginGeneration_sound {generationId : String} {message : NewConversationMessage} {conversation : Conversation}
    (hs : Sound t) (hid : message.messageId = generationId) (hpending : message.status = .pending)
    (h : t.beginGeneration now generationId message = .ok (conversation, u)) : Sound u := by
  simp only [Tables.beginGeneration, bind_eq_ok, ensure_eq_ok, available_eq_true, pure_eq_ok] at h
  obtain ⟨_, ⟨hlive, hactive⟩, _, -, w, hinsert, _, -, _, -, heq⟩ := h
  obtain ⟨-, rfl⟩ := Prod.mk.injEq .. |>.mp heq
  obtain ⟨hnone, stored, hchanges⟩ := insertMessage_changes hinsert
  have hrow : w.conversation.activeGenerationId = some generationId := by
    rw [hchanges.conversation, ← hid, insertMessage_column hinsert]
  have hdeleted : w.conversation.deletedAt = none := by
    rw [hchanges.conversation]
    exact hlive
  refine hs.change message.messageId hchanges.other (fun other hne => ?_) ?_ ?_
  · rw [hrow, hactive, ← hid]
    simpa using fun h : message.messageId = other => hne h.symm
  · have hkept := (hs.idle message.messageId hactive).insert (m := message.row now) hnone rfl rfl
      (current_revisionRow _ stored message.createdBy)
    have hboth : ((message.row now).status = .pending) = (w.conversation.activeGenerationId = some message.messageId) := by
      rw [hrow, hid]
      simpa [NewConversationMessage.row] using hpending
    rw [hboth] at hkept
    rw [hchanges.here]
    exact hkept
  · simp [hdeleted]

theorem recordGenerationEvidence_sound {generationId : String} {sources : List EvidenceSource} (hs : Sound t)
    (h : t.recordGenerationEvidence generationId sources = .ok u) : Sound u := by
  obtain ⟨m, hm, -, hchanges⟩ := updateRow_changes h
  refine hs.change generationId hchanges.other (fun other _ => by rw [hchanges.conversation]) ?_ ?_
  · have hkept := hs.threads generationId
    rw [hchanges.here, hchanges.conversation]
    have hmessage : (t.thread generationId).message = some m := hm
    simp only [Thread.Kept, hmessage] at hkept ⊢
    obtain ⟨hpending, hrecorded, hlog⟩ := hkept
    refine ⟨hpending, hrecorded.congr rfl rfl rfl rfl, ?_⟩
    by_cases hgeneration : generation (t.thread generationId).revisions = true
    · rw [if_pos hgeneration] at hlog ⊢
      exact hlog.congr rfl rfl
    · rw [if_neg hgeneration] at hlog ⊢
      exact hlog
  · rw [hchanges.conversation]
    exact hs.deleted

theorem appendGenerationContent_sound {generationId content : String} (hs : Sound t)
    (h : t.appendGenerationContent generationId content = .ok u) : Sound u := by
  simp only [Tables.appendGenerationContent, bind_eq_ok] at h
  obtain ⟨_, -, hevent⟩ := h
  obtain ⟨hactive, m, hm, hchanges⟩ := appendEvent_changes hevent
  refine hs.change generationId hchanges.other (fun other _ => by rw [hchanges.conversation]) ?_ ?_
  · have hkept := (hs.reserved hactive).log (m := m) hm generationId content
    have htrue : (some generationId = some generationId) = True := by simp
    rw [hchanges.here, hchanges.conversation, hactive, htrue]
    exact hkept
  · rw [hchanges.conversation]
    exact hs.deleted

/-- The end of a generation, whatever else the transaction has written. -/
theorem Sound.closed (hs : Sound t) {generationId : String} {m m' : MessageRow} {stored : List MessageAttachment}
    {changedBy content : String} {kind : EventKind} (hactive : t.conversation.activeGenerationId = some generationId)
    (hm : t.messages.find generationId = some m) (hterminal : kind.terminal = true) (hnext : m'.revision = m.revision + 1)
    (hsequence : m'.generationSequence = m.generationSequence + 1) (hstatus : m'.status ≠ .pending)
    (hhere : u.thread generationId = ⟨some m', t.revisionsOf generationId ++ [m'.revisionRow stored changedBy], stored,
      t.eventsOf generationId ++ [⟨generationId, m.generationSequence + 1, kind, content⟩]⟩) :
    (u.thread generationId).Kept False := by
  rw [hhere]
  exact (hs.reserved hactive).close (m := m) hm rfl hterminal hnext hsequence hstatus (current_revisionRow m' stored changedBy)

theorem failGeneration_sound {generationId messageId changedBy : String} (hs : Sound t)
    (h : t.failGeneration now generationId messageId changedBy = .ok u) : Sound u := by
  simp only [Tables.failGeneration, bind_eq_ok, pure_eq_ok] at h
  obtain ⟨v, hevent, w, hupdate, x, hrevision, _, -, rfl⟩ := h
  obtain ⟨hactive, m, hm, hv⟩ := appendEvent_changes hevent
  obtain ⟨n, hn, hpending, -⟩ := updateRow_changes hupdate
  -- the only message that is pending is the one that is reserved
  have hid : messageId = generationId := by
    by_contra hne
    have hthread := hs.threads messageId
    rw [← hv.other messageId hne] at hthread
    have hmessage : (v.thread messageId).message = some n := hn
    simp only [Thread.Kept, hmessage, hactive] at hthread
    exact hne (Option.some.inj (hthread.1.mp (by simpa using hpending))).symm
  subst hid
  obtain ⟨_, hn', -, hw⟩ := hv.updateRow hupdate
  obtain rfl := Option.some.inj hn'
  have hx := hw.appendMessageRevision rfl hrevision
  have hkept := hs.closed hactive hm (by rfl) rfl rfl (by simp) hx.here
  refine hs.change messageId hx.other (fun other hne => ?_) ?_ (fun _ => rfl)
  · rw [hactive]
    simpa [Tables.release] using fun h : messageId = other => hne h.symm
  · simpa [Tables.release] using hkept

theorem completeGeneration_sound {generationId : String} {message : NewConversationMessage} (hs : Sound t)
    (hregular : message.status ≠ .pending) (h : t.completeGeneration now generationId message = .ok u) : Sound u := by
  simp only [Tables.completeGeneration, bind_eq_ok, pure_eq_ok] at h
  obtain ⟨v, hevent, w, hinsert, x, hsource, y, hupdate, z, hrevision, _, -, rfl⟩ := h
  obtain ⟨hactive, m, hm, hv⟩ := appendEvent_changes hevent
  obtain ⟨hnone, stored, hw⟩ := insertMessage_changes hinsert
  have hne : message.messageId ≠ generationId := by
    intro heq
    have hfound := congrArg Thread.message hv.here
    rw [← heq] at hfound
    rw [show (v.thread message.messageId).message = none from hnone] at hfound
    cases hfound
  obtain ⟨_, hn, -, hx⟩ := hw.updateRow hsource
  obtain rfl := Option.some.inj hn
  have hanswer : x.thread message.messageId = ⟨some { message.row now with sourceGenerationId := some generationId },
      (t.thread message.messageId).revisions ++ [(message.row now).revisionRow stored message.createdBy], stored,
      (t.thread message.messageId).events⟩ := by
    rw [hx.here, ← hv.other _ hne]
    rfl
  have hgeneration : x.thread generationId = _ := (hx.other generationId hne.symm).trans hv.here
  obtain ⟨n, hn, -, hy⟩ := updateRow_changes hupdate
  have hmessage : (x.thread generationId).message = some n := hn
  rw [hgeneration] at hmessage hy
  obtain rfl := Option.some.inj hmessage
  have hz := hy.appendMessageRevision rfl hrevision
  have hclosed := hs.closed hactive hm (by rfl) rfl rfl (by simp) hz.here
  have hfirst : ((message.row now).revisionRow stored message.createdBy).Current
      { message.row now with sourceGenerationId := some generationId } stored := ⟨rfl, rfl, rfl, rfl, rfl⟩
  have hopened := (hs.threads message.messageId).insert (by rw [← hv.other _ hne]; exact hnone) rfl rfl hfirst
  refine ⟨fun other => ?_, fun _ => rfl⟩
  have hfalse : (none = some other) = False := by simp
  show (z.thread other).Kept (none = some other)
  rw [hfalse]
  by_cases hg : other = generationId
  · exact hg ▸ hclosed
  · rw [hz.other other hg]
    by_cases ha : other = message.messageId
    · have hpending : ((message.row now).status = .pending) = False := by
        simpa [NewConversationMessage.row] using hregular
      rw [ha, hanswer]
      rwa [hpending] at hopened
    · rw [hx.other other ha, hv.other other hg]
      have hkept := hs.threads other
      have hreserved : (t.conversation.activeGenerationId = some other) = False := by
        rw [hactive]
        simpa using fun h : generationId = other => hg h.symm
      rwa [hreserved] at hkept

/-- The service's use of the store: a message that waits is the one its
generation is named after. -/
def Operation.Regular : Operation → Prop
  | .createMessage message => message.status ≠ .pending
  | .beginGeneration generationId message => message.messageId = generationId ∧ message.status = .pending
  | .completeGeneration _ message => message.status ≠ .pending
  | _ => True

instance (op : Operation) : Decidable op.Regular := by
  unfold Operation.Regular
  split <;> infer_instance

theorem perform_sound {t u : Tables} {now : Int} {op : Operation} (hs : Sound t) (hregular : op.Regular)
    (h : t.perform now op = .ok u) : Sound u := by
  cases op with
  | createConversation ownerId title => cases h
  | updateConversation expectedRevision title => exact updateConversation_sound hs h
  | deleteConversation expectedRevision => exact deleteConversation_sound hs h
  | createMessage message =>
      obtain ⟨⟨created, _⟩, hcreate, rfl⟩ := map_eq_ok.mp h
      exact createMessage_sound hs hregular hcreate
  | updateMessage messageId expectedRevision content attachments changedBy =>
      obtain ⟨⟨result, _⟩, hupdate, rfl⟩ := map_eq_ok.mp h
      exact updateMessage_sound hs hupdate
  | deleteMessage messageId expectedRevision changedBy => exact deleteMessage_sound hs h
  | beginGeneration generationId message =>
      obtain ⟨⟨conversation, _⟩, hbegin, rfl⟩ := map_eq_ok.mp h
      exact beginGeneration_sound hs hregular.1 hregular.2 hbegin
  | recordGenerationEvidence generationId sources => exact recordGenerationEvidence_sound hs h
  | appendGenerationContent generationId content => exact appendGenerationContent_sound hs h
  | completeGeneration generationId message => exact completeGeneration_sound hs hregular h
  | failGeneration generationId messageId changedBy => exact failGeneration_sound hs h

/-- No transaction is accepted on a deleted conversation. -/
theorem deleted_refuses {t : Tables} (hs : Sound t) (hdeleted : t.conversation.deletedAt.isSome = true) (now : Int)
    (op : Operation) (u : Tables) : t.perform now op ≠ .ok u := by
  have hactive := hs.deleted hdeleted
  have hunavailable : t.available = false := by
    rw [Option.isSome_iff_ne_none] at hdeleted
    simp [Tables.available, hdeleted]
  have hevent : ∀ generationId kind content v, t.appendEvent generationId kind content ≠ .ok v := by
    intro generationId kind content v h
    have := (appendEvent_changes h).1
    rw [hactive] at this
    cases this
  intro h
  cases op with
  | createConversation ownerId title => cases h
  | updateConversation expectedRevision title =>
      simp [Tables.perform, Tables.updateConversation, bind_eq_ok, hunavailable] at h
  | deleteConversation expectedRevision =>
      obtain ⟨_, hguard, -⟩ := bind_eq_ok.mp h
      simp [hunavailable] at hguard
  | createMessage message =>
      simp [Tables.perform, Tables.createMessage, map_eq_ok, bind_eq_ok, hunavailable] at h
  | updateMessage messageId expectedRevision content attachments changedBy =>
      obtain ⟨_, hupdate, -⟩ := map_eq_ok.mp h
      obtain ⟨v, hrow, -⟩ := bind_eq_ok.mp hupdate
      obtain ⟨_, -, hmeets, -⟩ := updateRow_changes hrow
      simp [hunavailable] at hmeets
  | deleteMessage messageId expectedRevision changedBy =>
      obtain ⟨v, hrow, -⟩ := bind_eq_ok.mp h
      obtain ⟨_, -, hmeets, -⟩ := updateRow_changes hrow
      simp [hunavailable] at hmeets
  | beginGeneration generationId message =>
      simp [Tables.perform, Tables.beginGeneration, map_eq_ok, bind_eq_ok, hunavailable] at h
  | recordGenerationEvidence generationId sources =>
      obtain ⟨_, -, hmeets, -⟩ := updateRow_changes h
      simp [hactive] at hmeets
  | appendGenerationContent generationId content =>
      obtain ⟨_, -, happend⟩ := bind_eq_ok.mp h
      exact hevent _ _ _ _ happend
  | completeGeneration generationId message =>
      obtain ⟨_, happend, -⟩ := bind_eq_ok.mp h
      exact hevent _ _ _ _ happend
  | failGeneration generationId messageId changedBy =>
      obtain ⟨_, happend, -⟩ := bind_eq_ok.mp h
      exact hevent _ _ _ _ happend

def Store.Sound (s : Store) : Prop := ∀ key t, s key = some t → Conversations.Sound t

theorem step_sound {s : Store} (hs : s.Sound) {r : Request} (hregular : Accepts (s.perform r) → r.operation.Regular) :
    (s.step r).Sound := by
  intro key u hu
  rw [Store.step] at hu
  cases hp : s.perform r with
  | error e => exact hs key u (by simpa [hp] using hu)
  | ok t =>
      simp only [hp] at hu
      by_cases hkey : key = r.key
      · subst hkey
        rw [Function.update_self] at hu
        obtain rfl := Option.some.inj hu
        rw [Store.perform] at hp
        split at hp
        · next v hv => exact perform_sound (hs _ v hv) (hregular ⟨_, by rwa [Store.perform, hv]⟩) hp
        · split at hp
          · exact createConversation_sound hp
          · cases hp
      · exact hs key u (by rwa [Function.update_of_ne hkey] at hu)

theorem step_deleted {s : Store} {key : String × String} {t : Tables} (ht : s key = some t) (hs : Sound t)
    (hdeleted : t.conversation.deletedAt.isSome = true) (r : Request) : s.step r key = some t := by
  rw [Store.step]
  cases hp : s.perform r with
  | error e => exact ht
  | ok u =>
      by_cases hkey : key = r.key
      · subst hkey
        rw [Store.perform, ht] at hp
        exact absurd hp (deleted_refuses hs hdeleted r.now r.operation u)
      · exact (Function.update_of_ne hkey ..).trans ht

structure Consistent (t : Tables) : Prop where
  reserved : ∀ g, t.conversation.activeGenerationId = some g ↔
    ∀ messageId, (∃ m, t.messages.find messageId = some m ∧ m.status = .pending) ↔ messageId = g
  versioned : ∀ messageId m, t.messages.find messageId = some m →
    Recorded m (t.attachmentsOf messageId) (t.revisionsOf messageId)
  logged : ∀ messageId m, t.messages.find messageId = some m → generation (t.revisionsOf messageId) = true →
    Logged m (t.eventsOf messageId)
  unlogged : ∀ messageId, generation (t.revisionsOf messageId) = false → t.eventsOf messageId = []
  unversioned : ∀ messageId, t.messages.find messageId = none → t.revisionsOf messageId = []

theorem Sound.pending {t : Tables} (hs : Sound t) (messageId : String) :
    (∃ m, t.messages.find messageId = some m ∧ m.status = .pending) ↔
      t.conversation.activeGenerationId = some messageId := by
  have hkept := hs.threads messageId
  cases hm : t.messages.find messageId with
  | none =>
      have hmessage : (t.thread messageId).message = none := hm
      simp only [Thread.Kept, hmessage] at hkept
      simp [hkept.2.2]
  | some m =>
      have hmessage : (t.thread messageId).message = some m := hm
      simp only [Thread.Kept, hmessage] at hkept
      simp [hkept.1]

theorem Sound.consistent {t : Tables} (hs : Sound t) : Consistent t where
  reserved g := by
    constructor
    · intro hactive messageId
      rw [hs.pending messageId, hactive]
      simp [eq_comm]
    · intro honly
      exact (hs.pending g).mp ((honly g).mpr rfl)
  versioned messageId m hm := by
    have hkept := hs.threads messageId
    have hmessage : (t.thread messageId).message = some m := hm
    simp only [Thread.Kept, hmessage] at hkept
    exact hkept.2.1
  logged messageId m hm hgeneration := by
    have hkept := hs.threads messageId
    have hmessage : (t.thread messageId).message = some m := hm
    have hthread : generation (t.thread messageId).revisions = true := hgeneration
    simp only [Thread.Kept, hmessage, hthread, if_true] at hkept
    exact hkept.2.2
  unlogged messageId hgeneration := by
    have hkept := hs.threads messageId
    have hthread : generation (t.thread messageId).revisions = false := hgeneration
    cases hm : (t.thread messageId).message with
    | none =>
        simp only [Thread.Kept, hm] at hkept
        exact hkept.2.1
    | some m =>
        simp only [Thread.Kept, hm, hthread] at hkept
        exact hkept.2.2.1
  unversioned messageId hm := by
    have hkept := hs.threads messageId
    have hmessage : (t.thread messageId).message = none := hm
    simp only [Thread.Kept, hmessage] at hkept
    exact hkept.1

def Store.empty : Store := fun _ => none

/-- After committed transactions of the service every conversation is
consistent, and a deleted one stays as it is whatever is asked of the store. -/
theorem conversations_consistent (requests : List Request)
    (h : Along Store.step (fun s r => Accepts (s.perform r) → r.operation.Regular) Store.empty requests)
    (tenantId conversationId : String) (t : Tables)
    (ht : run Store.step Store.empty requests (tenantId, conversationId) = some t) :
    Consistent t ∧ (t.conversation.deletedAt.isSome = true → ∀ later : List Request,
      run Store.step Store.empty (requests ++ later) (tenantId, conversationId) = some t) := by
  have hstep : ∀ s r, Store.Sound s → (Accepts (s.perform r) → r.operation.Regular) → Store.Sound (s.step r) :=
    fun s r hs hr => step_sound hs hr
  have hsound : (run Store.step Store.empty requests).Sound := run_invariant hstep (by rintro _ _ ⟨⟩) h
  refine ⟨(hsound _ t ht).consistent, fun hdeleted later => ?_⟩
  rw [run_append]
  have hkept : ∀ s r, s (tenantId, conversationId) = some t → Store.step s r (tenantId, conversationId) = some t :=
    fun s r hr => step_deleted hr (hsound _ t ht) hdeleted r
  exact run_invariant_always hkept ht later

def chatId : String := "5d0c7f0b8a3e4f7c9a1b2c3d4e5f6a7b"

def questionId : String := "8f14e45fceea167a5a36dedd4bea2543"

def question (status : MessageStatus) : NewConversationMessage :=
  ⟨questionId, .user, "text", none, status, "ada", []⟩

def answer : NewConversationMessage := ⟨"c9f0f895fb98ab9159f51fd0297e236d", .assistant, "text", none, .completed, "ada", []⟩

def asked (operations : List Operation) : List Request := operations.map fun op => ⟨"acme", chatId, 0, op⟩

def answered : List Request :=
  asked [.createConversation "ada" "title", .beginGeneration questionId (question .pending),
    .appendGenerationContent questionId "text", .completeGeneration questionId answer]

theorem conversations_consistent_answered :
    ∃ t, run Store.step Store.empty answered ("acme", chatId) = some t ∧ t.messages.rows.length = 2 ∧ Consistent t := by
  have hrows : (run Store.step Store.empty answered ("acme", chatId)).map (fun t => t.messages.rows.length) = some 2 := by
    decide +kernel
  obtain ⟨t, ht, hlength⟩ := Option.map_eq_some_iff.mp hrows
  exact ⟨t, ht, hlength, (conversations_consistent answered (by decide +kernel) "acme" chatId t ht).1⟩

/-- A message that is created as pending is pending without a reservation. -/
theorem conversations_inconsistent :
    ¬ ∀ (requests : List Request) (tenantId conversationId : String) (t : Tables),
      run Store.step Store.empty requests (tenantId, conversationId) = some t → Consistent t := by
  intro h
  let requests := asked [.createConversation "ada" "title", .createMessage (question .pending)]
  have hrows : (run Store.step Store.empty requests ("acme", chatId)).map
      (fun t => (t.conversation.activeGenerationId, t.messages.rows.map fun m => (m.messageId, m.status))) =
        some (none, [(questionId, .pending)]) := by
    decide +kernel
  obtain ⟨t, ht, heq⟩ := Option.map_eq_some_iff.mp hrows
  obtain ⟨hidle, hmessages⟩ := Prod.mk.inj heq
  obtain ⟨m, hm, hpair⟩ := List.map_eq_singleton_iff.mp hmessages
  obtain ⟨hid, hpending⟩ := Prod.mk.inj hpair
  have hfind : ∀ messageId n, t.messages.find messageId = some n ↔ n = m ∧ m.messageId = messageId := by
    intro messageId n
    rw [Table.find_eq_some, hm, List.mem_singleton]
    exact ⟨fun h => ⟨h.1, h.1 ▸ h.2⟩, fun h => ⟨h.1, h.1 ▸ h.2⟩⟩
  have hreserved := ((h requests "acme" chatId t ht).reserved questionId).mpr fun messageId => ?_
  · rw [hidle] at hreserved
    cases hreserved
  · constructor
    · rintro ⟨n, hn, -⟩
      exact (((hfind messageId n).mp hn).2).symm.trans hid
    · rintro rfl
      exact ⟨m, (hfind questionId m).mpr ⟨rfl, hid⟩, hpending⟩

end Galadril.Conversations
