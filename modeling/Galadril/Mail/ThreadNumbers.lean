import Galadril.Lib.Numbering
import Galadril.Lib.Transitions
import Galadril.Mail.ReplyLimits

namespace Galadril.Mail

open Lib Lib.Checked Lib.Transitions Lib.Numbering

section Places

/-- What an entry of a thread keeps for good. -/
structure Place where
  messageKey : String
  rootKey : String
  number : Nat
  root : String
  parent : String
deriving DecidableEq

def ThreadEntry.place (e : ThreadEntry) : Place := ⟨e.messageKey, e.rootKey, e.number, e.summary.root, e.summary.parent⟩

def Account.places (a : Account) : List Place := a.threadEntries.rows.map ThreadEntry.place

def Account.binds (a : Account) (kind : RecordKind) (id : String) : Prop :=
  ∃ r p, a.threadRecords.find (kind, id) = some r ∧ p ∈ a.places ∧ p.messageKey = r.messageKey

variable (env : Engine) (k : String × String)

/-- The entries of each thread are numbered from one on, they carry the key of
their root, and an answer is in the thread of its parent. -/
structure Threaded (places : List Place) : Prop where
  rooted : ∀ p ∈ places, p.rootKey = threadKey env k p.root
  counted : Counted Place.rootKey Place.number places
  joined : places.Pairwise fun p e => e.parent ≠ "" → p.messageKey = threadKey env k e.parent → e.rootKey = p.rootKey

/-- A step on the threads of an account: it appends entries and bindings. -/
structure Grows (a b : Account) : Prop where
  places : ∃ more, b.places = a.places ++ more
  records : ∀ key r, a.threadRecords.find key = some r → b.threadRecords.find key = some r
  threaded : Threaded env k a.places → Threaded env k b.places

variable {env k} {a b c : Account} {places : List Place}

theorem Threaded.nil : Threaded env k [] := ⟨fun _ h => absurd h List.not_mem_nil, Counted.nil, List.Pairwise.nil⟩

theorem Threaded.snoc (h : Threaded env k places) {p : Place} (hroot : p.rootKey = threadKey env k p.root)
    (hnumber : p.number = top Place.number (places.filter (·.rootKey = p.rootKey)) + 1)
    (hparent : ∀ q ∈ places, p.parent ≠ "" → q.messageKey = threadKey env k p.parent → p.rootKey = q.rootKey) :
    Threaded env k (places ++ [p]) where
  rooted q hq := by
    rcases List.mem_append.mp hq with hq | hq
    · exact h.rooted q hq
    · exact List.mem_singleton.mp hq ▸ hroot
  counted := h.counted.snoc hnumber
  joined := by
    refine List.pairwise_append.mpr ⟨h.joined, List.pairwise_singleton _ _, fun q hq e he => ?_⟩
    obtain rfl := List.mem_singleton.mp he
    exact hparent q hq

theorem Grows.refl (a : Account) : Grows env k a a := ⟨⟨[], by simp⟩, fun _ _ => id, id⟩

theorem Grows.trans (h : Grows env k a b) (h' : Grows env k b c) : Grows env k a c := by
  obtain ⟨more, hmore⟩ := h.places
  obtain ⟨more', hmore'⟩ := h'.places
  exact ⟨⟨more ++ more', by rw [hmore', hmore, List.append_assoc]⟩, fun key r hr => h'.records key r (h.records key r hr),
    fun ht => h'.threaded (h.threaded ht)⟩

/-- Steps that leave the thread tables as they are. -/
theorem Grows.of_eq (hplaces : b.places = a.places) (hrecords : b.threadRecords = a.threadRecords) : Grows env k a b :=
  ⟨⟨[], by simp [hplaces]⟩, fun key r hr => hrecords ▸ hr, fun h => hplaces ▸ h⟩

theorem Grows.binds (h : Grows env k a b) {kind : RecordKind} {id : String} (hb : a.binds kind id) : b.binds kind id := by
  obtain ⟨r, p, hr, hp, hkey⟩ := hb
  obtain ⟨more, hmore⟩ := h.places
  exact ⟨r, p, h.records _ r hr, hmore ▸ List.mem_append_left more hp, hkey⟩

end Places

variable {env : Engine} {k : String × String} {a b : Account} {kind : RecordKind}
  {recordId messageId root subject date parent : String}

theorem places_update {p : ThreadEntry → Bool} {f : ThreadEntry → ThreadEntry}
    (hrows : b.threadEntries.rows = a.threadEntries.rows.map fun e => if p e then f e else e)
    (hplace : ∀ e ∈ a.threadEntries.rows, p e = true → (f e).place = e.place) : b.places = a.places := by
  rw [Account.places, hrows, List.map_map]
  refine List.map_congr_left fun e he => ?_
  rw [Function.comp_apply]
  split
  · next hp => exact hplace e he hp
  · rfl

theorem nextNumber_eq (a : Account) (rootKey : String) :
    a.nextNumber rootKey = top Place.number (a.places.filter (·.rootKey = rootKey)) + 1 := by
  rw [Account.nextNumber, Account.places, List.filter_map, top, List.foldr_map]
  rfl

theorem decodeSummary_eq_ok {summary decoded : ThreadSummary} (h : decodeSummary summary = .ok decoded) : decoded = summary := by
  simp only [decodeSummary, bind_eq_ok, pure_eq_ok] at h
  obtain ⟨-, -, rfl⟩ := h
  rfl

theorem threadRoot_joins (ha : Threaded env k a.places) {decided : String} (h : a.threadRoot env k root parent = .ok decided)
    {p : Place} (hp : p ∈ a.places) (hparent : parent ≠ "") (hkey : p.messageKey = threadKey env k parent) :
    threadKey env k decided = p.rootKey := by
  obtain ⟨e, he, rfl⟩ := List.mem_map.mp hp
  have hfind : a.threadEntries.find (threadKey env k parent) = some e := Table.find_eq_some.mpr ⟨he, hkey⟩
  simp only [Account.threadRoot, if_neg hparent, hfind, map_eq_ok] at h
  obtain ⟨summary, hsummary, rfl⟩ := h
  rw [decodeSummary_eq_ok hsummary]
  exact (ha.rooted e.place hp).symm

theorem threadEntry_grows {entry : ThreadEntry}
    (h : a.threadEntry env k kind messageId root subject date parent = .ok (entry, b)) :
    Grows env k a b ∧ b.threadRecords = a.threadRecords ∧ ∃ p ∈ b.places, p.messageKey = entry.messageKey := by
  simp only [Account.threadEntry] at h
  split at h
  · next row hrow =>
      simp only [bind_eq_ok, pure_eq_ok, Prod.mk.injEq] at h
      obtain ⟨summary, hsummary, rfl, rfl⟩ := h
      obtain ⟨hmem, hkey⟩ := Table.find_eq_some.mp hrow
      have hplaces : Account.places { a with
          threadEntries := a.threadEntries.update (·.messageKey = threadKey env k messageId)
            (fun e => { e with summary := if kind = .draft then { summary with subject } else summary }) fun _ =>
              rfl } = a.places := by
        refine places_update rfl fun e he hp => ?_
        obtain rfl := Table.eq_of_key he hmem ((of_decide_eq_true hp).trans hkey.symm)
        rw [decodeSummary_eq_ok hsummary]
        unfold ThreadEntry.place
        split <;> rfl
      refine ⟨.of_eq hplaces rfl, rfl, row.place, ?_, rfl⟩
      rw [hplaces]
      exact List.mem_map_of_mem hmem
  · next hnone =>
      simp only [bind_eq_ok, pure_eq_ok, Prod.mk.injEq] at h
      obtain ⟨decided, hdecided, summary, hsummary, rfl, rfl⟩ := h
      obtain rfl := decodeSummary_eq_ok hsummary
      have hplaces : ∀ e : ThreadEntry, e.messageKey = threadKey env k messageId →
          (a.threadEntries.insert e).rows.map ThreadEntry.place = a.places ++ [e.place] := by
        intro e he
        rw [Table.insert_rows (by rw [he]; exact hnone), List.map_append]
        rfl
      refine ⟨⟨⟨_, hplaces _ rfl⟩, fun _ _ => id, fun ha => ?_⟩, rfl, ThreadEntry.place ⟨threadKey env k messageId,
        threadKey env k decided, a.nextNumber (threadKey env k decided),
          ⟨decided, messageId, parent, subject, date, "", "", ""⟩, none, none⟩, ?_, rfl⟩
      · change Threaded env k (List.map ThreadEntry.place _)
        rw [hplaces _ rfl]
        refine ha.snoc rfl (nextNumber_eq a _) fun q hq hparent hkey => ?_
        exact threadRoot_joins ha hdecided hq hparent hkey
      · change _ ∈ List.map ThreadEntry.place _
        rw [hplaces _ rfl]
        exact List.mem_append_right _ (List.mem_singleton_self _)

def Account.Bound (a : Account) : Prop := ∀ r ∈ a.threadRecords.rows, ∃ p ∈ a.places, p.messageKey = r.messageKey

/-- A binding keeps to its first entry. -/
theorem records_insert (records : Table ThreadRecord.key) (r : ThreadRecord) :
    (∀ key x, records.find key = some x → (records.insert r).find key = some x) ∧
      (∃ x, (records.insert r).find r.key = some x) ∧ ∀ x ∈ (records.insert r).rows, x ∈ records.rows ∨ x = r := by
  cases hold : records.find r.key with
  | some x =>
      have hsame : records.insert r = records := by
        rw [Table.insert, dif_neg]
        rw [hold]
        simp
      rw [hsame]
      exact ⟨fun _ _ => id, ⟨x, hold⟩, fun _ => .inl⟩
  | none =>
      refine ⟨fun key x hx => ?_, ⟨r, by rw [Table.find_insert hold, if_pos rfl]⟩, fun x hx => ?_⟩
      · rw [Table.find_insert hold, if_neg]
        · exact hx
        · rintro rfl
          rw [hold] at hx
          cases hx
      · rw [Table.insert_rows hold] at hx
        exact (List.mem_append.mp hx).imp_right List.mem_singleton.mp

/-- Reserving a number appends to the threads, and the record is bound. -/
theorem threadBinding_grows {binding : ThreadBinding}
    (h : a.threadBinding env k recordId kind messageId root subject date parent = .ok (binding, b)) (ha : a.Bound) :
    Grows env k a b ∧ b.Bound ∧ b.binds kind recordId := by
  simp only [Account.threadBinding, bind_eq_ok, pure_eq_ok, Prod.mk.injEq] at h
  obtain ⟨⟨entry, c⟩, hentry, -, rfl⟩ := h
  obtain ⟨hgrows, hrecords, p, hp, hkey⟩ := threadEntry_grows hentry
  obtain ⟨hkeep, ⟨x, hx⟩, hrows⟩ := records_insert c.threadRecords ⟨kind, recordId, entry.messageKey⟩
  obtain ⟨more, hmore⟩ := hgrows.places
  have hbound : ∀ r ∈ (c.threadRecords.insert ⟨kind, recordId, entry.messageKey⟩).rows,
    ∃ p ∈ c.places, p.messageKey = r.messageKey := by
    intro r hr
    rcases hrows r hr with hr | rfl
    · obtain ⟨q, hq, hqkey⟩ := ha r (hrecords ▸ hr)
      exact ⟨q, hmore ▸ List.mem_append_left more hq, hqkey⟩
    · exact ⟨p, hp, hkey⟩
  have hplaces : Account.places { c with
      threadEntries := c.threadEntries.update (·.messageKey = entry.messageKey) (fun e => { e with
        messageRecord := if kind = .message then e.messageRecord.or (some recordId) else e.messageRecord
        draftRecord := if kind = .draft then e.draftRecord.or (some recordId) else e.draftRecord }) (fun _ => rfl)
      threadRecords := c.threadRecords.insert ⟨kind, recordId, entry.messageKey⟩ } = c.places :=
    places_update rfl fun _ _ _ => rfl
  refine ⟨hgrows.trans ⟨⟨[], hplaces.trans (List.append_nil _).symm⟩, fun key y hy => hkeep key y (hrecords ▸ hy),
    fun ht => hplaces.symm ▸ ht⟩, fun r hr => ?_, ?_⟩
  · rw [hplaces]
    exact hbound r hr
  · obtain ⟨q, hq, hqkey⟩ := hbound x (Table.find_eq_some.mp hx).1
    exact ⟨x, q, hx, hplaces.symm ▸ hq, hqkey⟩

section Operations

variable (env : Engine)

def replaced (old value : String) (most : Nat) : String := if value = "" then old else String.ofList (value.toList.take most)

def ThreadSummary.annotate (s : ThreadSummary) (sourceKey model analysis : String) : ThreadSummary :=
  { s with
    sourceKey := replaced s.sourceKey sourceKey 2048
    model := replaced s.model model 128
    analysis := replaced s.analysis analysis 4096 }

def Account.threadContext (a : Account) (k : String × String) (messageId sourceKey model analysis : String) :
    Except String Account := do
  let row ← context (a.messages.find messageId) "Message unavailable"
  let m ← mail row
  let (_, a) ← a.threadBinding env k messageId .message m.messageId (rootOf m) m.subject m.date ""
  let key := threadKey env k m.messageId
  let entry ← context (a.threadEntries.find key) "'NoneType' object is not subscriptable"
  let summary ← decodeSummary entry.summary
  return { a with
    threadEntries := a.threadEntries.update (·.messageKey = key)
      (fun e => { e with summary := summary.annotate sourceKey model analysis }) fun _ => rfl }

def markIngested (s : MailStore) (actor : Principal) (identifier messageId sourceKey : String) : Except String MailStore := do
  let k := (actor.tenant, identifier)
  let a ← account s actor identifier .use
  let a ← (if sourceKey = "" then .ok a else a.threadContext env k messageId sourceKey "" "")
  return s.set k { a with
    messages := a.messages.update (·.id = messageId) (fun m => { m with ingested := true }) fun _ => rfl }

def recordAnalysis (s : MailStore) (actor : Principal) (identifier messageId model analysis : String) :
    Except String MailStore := do
  let a ← account s actor identifier .use
  let a ← a.threadContext env (actor.tenant, identifier) messageId "" model analysis
  return s.set (actor.tenant, identifier) a

def Account.indexMessage (k : String × String) (a : Account) (row : MessageRow) : Except String Account := do
  let m ← mail row
  let (binding, a) ← a.bindMessage env k row.id m
  return { a with messages := a.messages.update (·.id = row.id) (fun r => { r with content := binding.bind m }) fun _ => rfl }

def Account.indexDraft (k : String × String) (a : Account) (row : DraftRow) : Except String Account := do
  let draft ← decodeDraft row.content
  let root := (findIdentifiers env draft.references).head?.getD
    (if draft.replyToMessageId = "" then row.deliveryId else draft.replyToMessageId)
  let (_, a) ← a.threadBinding env k row.id .draft row.deliveryId root draft.subject "" draft.replyToMessageId
  return a

/-- Batches of records without a number. The answer tells whether none is left. -/
def Account.indexThreads (k : String × String) (a : Account) : Except String (Bool × Account) := do
  let waiting := (a.messages.rows.filter fun r => (a.threadRecords.find (.message, r.id)).isNone).take 25
  let a ← waiting.foldlM (Account.indexMessage env k) a
  if waiting.length = 25 then return (false, a)
  let waiting := (a.drafts.rows.filter fun r => (a.threadRecords.find (.draft, r.id)).isNone).take 25
  let a ← waiting.foldlM (Account.indexDraft env k) a
  return (waiting.length ≠ 25, a)

structure ThreadItem where
  summary : ThreadSummary
  number : Nat
  reference : String
  receivedId : Option String
  draftId : Option String
  ingested : Bool
  status : Option DraftStatus

structure ThreadPage where
  threadId : String
  messages : List ThreadItem
  truncated : Bool
  indexedComplete : Bool

def Account.threadItem (a : Account) (e : ThreadEntry) : Except String ThreadItem := do
  let summary ← decodeSummary e.summary
  return {
    summary
    number := e.number
    reference := summary.root ++ "/" ++ toString e.number
    receivedId := e.messageRecord
    draftId := e.draftRecord
    ingested := (e.messageRecord.bind a.messages.find).any MessageRow.ingested
    status := (e.draftRecord.bind a.drafts.find).map DraftRow.status }

def Account.threadPage (time : String → Int) (a : Account) (k : String × String) (complete : Bool) (m : MailMessage) :
    Except String ThreadPage := do
  let entry ← context (a.threadEntries.find (threadKey env k m.messageId)) "'NoneType' object is not subscriptable"
  let root ← decodeSummary entry.summary
  let rows := ((a.threadEntries.rows.filter (·.rootKey = entry.rootKey)).mergeSort fun x y => x.number ≤ y.number).take 129
  let items ← (rows.take 128).mapM a.threadItem
  return {
    threadId := root.root
    messages := items.mergeSort fun x y => time x.summary.date < time y.summary.date ||
      (time x.summary.date = time y.summary.date && x.number ≤ y.number)
    truncated := 128 < rows.length
    indexedComplete := complete }

def thread (time : String → Int) (s : MailStore) (actor : Principal) (identifier messageId : String) :
    Except String (ThreadPage × MailStore) := do
  let k := (actor.tenant, identifier)
  let a ← account s actor identifier .read
  let selected ← context (a.messages.find messageId) "Message unavailable"
  let (complete, a) ← a.indexThreads env k
  let m ← mail selected
  let (_, a) ← a.bindMessage env k messageId m
  let page ← a.threadPage env time k complete m
  return (page, s.set k a)

end Operations

section Steps

variable {env : Engine} {k : String × String} {old : RecordKind → String → Prop} {start a b : Account}

/-- The threads of an account are in order, and every record is bound to an entry,
apart from old ones that wait for a batch. -/
structure Account.Numbered (env : Engine) (k : String × String) (old : RecordKind → String → Prop) (a : Account) : Prop where
  threaded : Threaded env k a.places
  bound : a.Bound
  messages : ∀ m ∈ a.messages.rows, a.binds .message m.id ∨ old .message m.id
  drafts : ∀ d ∈ a.drafts.rows, a.binds .draft d.id ∨ old .draft d.id

/-- A step that reserves a number and writes no other tables. -/
theorem Account.Numbered.bind (ha : a.Numbered env k old) {kind : RecordKind} {recordId messageId root subject date parent : String}
    {binding : ThreadBinding} (h : a.threadBinding env k recordId kind messageId root subject date parent = .ok (binding, b)) :
    Grows env k a b ∧ b.Numbered env k old ∧ b.binds kind recordId ∧ b.messages = a.messages ∧ b.drafts = a.drafts := by
  obtain ⟨hgrows, hbound, hbinds⟩ := threadBinding_grows h ha.bound
  obtain ⟨entries, records, hframe⟩ := threadBinding_frame env h
  have hmessages : b.messages = a.messages := by rw [hframe]
  have hdrafts : b.drafts = a.drafts := by rw [hframe]
  refine ⟨hgrows, ⟨hgrows.threaded ha.threaded, hbound, ?_, ?_⟩, hbinds, hmessages, hdrafts⟩
  · rw [hmessages]
    exact fun m hm => (ha.messages m hm).imp_left hgrows.binds
  · rw [hdrafts]
    exact fun d hd => (ha.drafts d hd).imp_left hgrows.binds

/-- A step that keeps the threads, and writes only records that are bound or old. -/
theorem Account.Numbered.write (ha : a.Numbered env k old) (hstart : Grows env k start a) (hplaces : b.places = a.places)
    (hrecords : b.threadRecords = a.threadRecords) (hmessages : ∀ m ∈ b.messages.rows, a.binds .message m.id ∨ old .message m.id)
    (hdrafts : ∀ d ∈ b.drafts.rows, a.binds .draft d.id ∨ old .draft d.id) : Grows env k start b ∧ b.Numbered env k old := by
  have hgrows : Grows env k a b := .of_eq hplaces hrecords
  refine ⟨hstart.trans hgrows, hgrows.threaded ha.threaded, fun r hr => ?_, fun m hm => (hmessages m hm).imp_left hgrows.binds,
    fun d hd => (hdrafts d hd).imp_left hgrows.binds⟩
  rw [hrecords] at hr
  rw [hplaces]
  exact ha.bound r hr

theorem forall_of_rewritten {ρ : Type} {rows : List ρ} (key : ρ → String) (P : String → Prop) {p : ρ → Bool} {f : ρ → ρ}
    (h : ∀ r ∈ rows, P (key r)) (hf : ∀ r, key (f r) = key r) : ∀ r ∈ rows.map fun r => if p r then f r else r, P (key r) := by
  intro r hr
  obtain ⟨y, hy, rfl⟩ := List.mem_map.mp hr
  split
  · exact (hf y).symm ▸ h y hy
  · exact h y hy

theorem Account.Numbered.rewritten (ha : a.Numbered env k old) {p : MessageRow → Bool} {f : MessageRow → MessageRow}
    (hrows : b.messages.rows = a.messages.rows.map fun m => if p m then f m else m) (hf : ∀ m, (f m).id = m.id) :
    ∀ m ∈ b.messages.rows, a.binds .message m.id ∨ old .message m.id := by
  rw [hrows]
  exact forall_of_rewritten MessageRow.id (fun id => a.binds .message id ∨ old .message id) ha.messages hf

theorem Account.Numbered.redrafted (ha : a.Numbered env k old) {p : DraftRow → Bool} {f : DraftRow → DraftRow}
    (hrows : b.drafts.rows = a.drafts.rows.map fun d => if p d then f d else d) (hf : ∀ d, (f d).id = d.id) :
    ∀ d ∈ b.drafts.rows, a.binds .draft d.id ∨ old .draft d.id := by
  rw [hrows]
  exact forall_of_rewritten DraftRow.id (fun id => a.binds .draft id ∨ old .draft id) ha.drafts hf

theorem threadContext_grows (ha : a.Numbered env k old) {messageId sourceKey model analysis : String}
    (h : a.threadContext env k messageId sourceKey model analysis = .ok b) : Grows env k a b ∧ b.Numbered env k old := by
  simp only [Account.threadContext, bind_eq_ok, pure_eq_ok, Prod.exists, context_eq_ok] at h
  obtain ⟨row, hrow, m, hm, binding, c, hbinding, entry, hentry, summary, hsummary, rfl⟩ := h
  obtain ⟨hgrows, hc, -⟩ := ha.bind hbinding
  obtain ⟨hmem, hkey⟩ := Table.find_eq_some.mp hentry
  refine hc.write hgrows (places_update rfl fun e he hp => ?_) rfl hc.messages hc.drafts
  obtain rfl := Table.eq_of_key he hmem ((of_decide_eq_true hp).trans hkey.symm)
  rw [decodeSummary_eq_ok hsummary]
  rfl

theorem recordMessage_grows (ha : a.Numbered env k old) {now : Int} {folder : String} {validity uid : Nat} {m : MailMessage}
    (h : a.recordMessage env k now folder validity uid m = .ok b) : Grows env k a b ∧ b.Numbered env k old := by
  simp only [Account.recordMessage, Account.bindMessage, bind_eq_ok, pure_eq_ok, Prod.exists] at h
  obtain ⟨m', -, reference, -, binding, c, hbinding, d, hwrite, rfl⟩ := h
  obtain ⟨hgrows, hc, hbinds, -, -⟩ := ha.bind hbinding
  obtain ⟨cursors, hcursors⟩ := advance_frame d folder validity uid
  rw [hcursors]
  simp only [Account.writeMessage] at hwrite
  split at hwrite
  · obtain rfl := Except.ok.inj hwrite
    exact hc.write hgrows rfl rfl (hc.rewritten rfl fun _ => rfl) hc.drafts
  · simp only [bind_eq_ok, ensure_eq_ok, pure_eq_ok, Option.isNone_iff_eq_none] at hwrite
    obtain ⟨_, hnone, rfl⟩ := hwrite
    refine hc.write hgrows rfl rfl (fun x hx => ?_) hc.drafts
    have hx' : x ∈ (c.messages.insert _).rows := hx
    rw [Table.insert_rows hnone] at hx'
    rcases List.mem_append.mp hx' with hx | hx
    · exact hc.messages x hx
    · exact List.mem_singleton.mp hx ▸ .inl hbinds

theorem writeDraft_grows (ha : a.Numbered env k old) (hstart : Grows env k start a) {now : Int} {draftId deliveryId : String}
    {saving : Saving} {content : DraftInput} (hbinds : a.binds .draft draftId)
    (h : a.writeDraft now draftId deliveryId saving content = .ok b) : Grows env k start b ∧ b.Numbered env k old := by
  simp only [Account.writeDraft] at h
  split at h
  · simp only [bind_eq_ok, pure_eq_ok] at h
    obtain ⟨-, -, rfl⟩ := h
    exact ha.write hstart rfl rfl ha.messages (ha.redrafted rfl fun _ => rfl)
  · next hnone =>
      simp only [bind_eq_ok, pure_eq_ok] at h
      obtain ⟨-, -, -, -, rfl⟩ := h
      refine ha.write hstart rfl rfl ha.messages fun x hx => ?_
      have hx' : x ∈ (a.drafts.insert _).rows := hx
      rw [Table.insert_rows hnone] at hx'
      rcases List.mem_append.mp hx' with hx | hx
      · exact ha.drafts x hx
      · exact List.mem_singleton.mp hx ▸ .inl hbinds

end Steps

section Batches

variable {env : Engine} {k : String × String} {old : RecordKind → String → Prop} {kind : RecordKind} {a b : Account}

structure Batch (env : Engine) (k : String × String) (old : RecordKind → String → Prop) (kind : RecordKind) (ids : List String)
    (a b : Account) : Prop where
  grows : Grows env k a b
  numbered : b.Numbered env k old
  messages : b.messages.rows.map MessageRow.id = a.messages.rows.map MessageRow.id
  drafts : b.drafts = a.drafts
  binds : ∀ id ∈ ids, b.binds kind id

theorem indexMessage_batch (ha : a.Numbered env k old) {row : MessageRow} (h : a.indexMessage env k row = .ok b) :
    Batch env k old .message [row.id] a b := by
  simp only [Account.indexMessage, Account.bindMessage, bind_eq_ok, pure_eq_ok, Prod.exists] at h
  obtain ⟨m, -, binding, c, hbinding, hb⟩ := h
  obtain ⟨hgrows, hc, hbinds, hmessages, hdrafts⟩ := ha.bind hbinding
  have hwritten : Grows env k a b ∧ b.Numbered env k old := by
    rw [← hb]
    exact hc.write hgrows rfl rfl (hc.rewritten rfl fun _ => rfl) hc.drafts
  subst hb
  refine ⟨hwritten.1, hwritten.2, ?_, hdrafts, fun id hid => List.mem_singleton.mp hid ▸ hbinds⟩
  change List.map MessageRow.id (List.map _ c.messages.rows) = _
  rw [hmessages, List.map_map]
  refine List.map_congr_left fun r _ => ?_
  rw [Function.comp_apply]
  split <;> rfl

theorem indexDraft_batch (ha : a.Numbered env k old) {row : DraftRow} (h : a.indexDraft env k row = .ok b) :
    Batch env k old .draft [row.id] a b := by
  simp only [Account.indexDraft, bind_eq_ok, pure_eq_ok, Prod.exists] at h
  obtain ⟨draft, -, binding, c, hbinding, rfl⟩ := h
  obtain ⟨hgrows, hc, hbinds, hmessages, hdrafts⟩ := ha.bind hbinding
  exact ⟨hgrows, hc, by rw [hmessages], hdrafts, fun id hid => List.mem_singleton.mp hid ▸ hbinds⟩

theorem foldlM_batch {ρ : Type} {key : ρ → String} {f : Account → ρ → Except String Account} {rows : List ρ}
    (hstep : ∀ c row d, c.Numbered env k old → f c row = .ok d → Batch env k old kind [key row] c d)
    (ha : a.Numbered env k old) (h : rows.foldlM f a = .ok b) : Batch env k old kind (rows.map key) a b := by
  induction rows generalizing a with
  | nil =>
      obtain rfl := Except.ok.inj h
      exact ⟨.refl a, ha, rfl, rfl, fun _ hid => absurd hid List.not_mem_nil⟩
  | cons row rows ih =>
      obtain ⟨c, hc, hrest⟩ := bind_eq_ok.mp h
      have hfirst := hstep a row c ha hc
      have hlater := ih hfirst.numbered hrest
      refine ⟨hfirst.grows.trans hlater.grows, hlater.numbered, hlater.messages.trans hfirst.messages,
        hlater.drafts.trans hfirst.drafts, fun id hid => ?_⟩
      rcases List.mem_cons.mp hid with rfl | hid
      · exact hlater.grows.binds (hfirst.binds _ (List.mem_singleton_self _))
      · exact hlater.binds id hid

theorem binds_or_waits (ha : a.Bound) (kind : RecordKind) (id : String) :
    a.binds kind id ∨ (a.threadRecords.find (kind, id)).isNone = true := by
  cases hfind : a.threadRecords.find (kind, id) with
  | none => exact .inr rfl
  | some r =>
      obtain ⟨p, hp, hkey⟩ := ha r (Table.find_eq_some.mp hfind).1
      exact .inl ⟨r, p, hfind, hp, hkey⟩

theorem mem_waiting {ρ : Type} {rows : List ρ} {p : ρ → Bool} {n : Nat} (hn : ((rows.filter p).take n).length ≠ n) {r : ρ}
    (hr : r ∈ rows) (hp : p r = true) : r ∈ (rows.filter p).take n := by
  rw [List.length_take] at hn
  rw [List.take_of_length_le (by omega)]
  exact List.mem_filter.mpr ⟨hr, hp⟩

/-- The batches bind records, and when they are done every record is bound. -/
theorem indexThreads_batch (ha : a.Numbered env k old) {complete : Bool} (h : a.indexThreads env k = .ok (complete, b)) :
    Grows env k a b ∧ b.Numbered env k old ∧
      (complete = true → (∀ m ∈ b.messages.rows, b.binds .message m.id) ∧ ∀ d ∈ b.drafts.rows, b.binds .draft d.id) := by
  simp only [Account.indexThreads, bind_eq_ok] at h
  obtain ⟨c, hc, h⟩ := h
  have hfirst := foldlM_batch (fun _ _ _ hd hstep => indexMessage_batch hd hstep) ha hc
  split at h
  · obtain ⟨rfl, rfl⟩ := Prod.mk.inj (Except.ok.inj h)
    exact ⟨hfirst.grows, hfirst.numbered, fun h => absurd h Bool.false_ne_true⟩
  · next hmessages =>
      simp only [bind_eq_ok, pure_eq_ok, Prod.mk.injEq] at h
      obtain ⟨d, hd, rfl, rfl⟩ := h
      have hsecond := foldlM_batch (fun _ _ _ hd hstep => indexDraft_batch hd hstep) hfirst.numbered hd
      refine ⟨hfirst.grows.trans hsecond.grows, hsecond.numbered, fun hdone => ⟨fun m hm => ?_, fun r hr => ?_⟩⟩
      · have hid : m.id ∈ a.messages.rows.map MessageRow.id := by
          rw [← hfirst.messages, ← hsecond.messages]
          exact List.mem_map_of_mem hm
        obtain ⟨row, hrow, hkey⟩ := List.mem_map.mp hid
        rw [← hkey]
        rcases binds_or_waits ha.bound .message row.id with hbinds | hwaits
        · exact (hfirst.grows.trans hsecond.grows).binds hbinds
        · exact hsecond.grows.binds (hfirst.binds _ (List.mem_map_of_mem (mem_waiting hmessages hrow hwaits)))
      · rw [hsecond.drafts] at hr
        rcases binds_or_waits hfirst.numbered.bound .draft r.id with hbinds | hwaits
        · exact hsecond.grows.binds hbinds
        · exact hsecond.binds _ (List.mem_map_of_mem (mem_waiting (of_decide_eq_true hdone) hr hwaits))

end Batches

structure ThreadPage.Lists (page : ThreadPage) (places : List Place) (rootKey : String) : Prop where
  numbers : (page.messages.map ThreadItem.number).Perm
    (List.range' 1 (min 128 (places.filter (·.rootKey = rootKey)).length))
  truncated : page.truncated = true ↔ 128 < (places.filter (·.rootKey = rootKey)).length

theorem threadItem_number {e : ThreadEntry} {item : ThreadItem} (h : a.threadItem e = .ok item) : item.number = e.number := by
  simp only [Account.threadItem, bind_eq_ok, pure_eq_ok] at h
  obtain ⟨summary, -, rfl⟩ := h
  rfl

theorem take_range (n most : Nat) : (List.range' 1 n).take most = List.range' 1 (min most n) := by
  rcases Nat.le_total n most with h | h
  · rw [List.take_range'_of_length_le h, Nat.min_eq_right h]
  · rw [List.take_range'_of_length_ge h, Nat.min_eq_left h]

theorem numbers_of_items {rows : List ThreadEntry} {items : List ThreadItem} (h : rows.mapM a.threadItem = .ok items) :
    items.map ThreadItem.number = rows.map ThreadEntry.number := by
  have hall := mapM_eq_ok.mp h
  clear h
  induction hall with
  | nil => rfl
  | cons hitem _ ih => rw [List.map_cons, List.map_cons, threadItem_number hitem, ih]

theorem threadPage_lists (ha : Threaded env k a.places) {time : String → Int} {complete : Bool} {m : MailMessage}
    {page : ThreadPage}
    (h : a.threadPage env time k complete m = .ok page) :
    (∃ rootKey, page.Lists a.places rootKey) ∧ page.indexedComplete = complete := by
  simp only [Account.threadPage, bind_eq_ok, pure_eq_ok, context_eq_ok] at h
  obtain ⟨entry, -, root, -, items, hitems, rfl⟩ := h
  have hnumbers : (a.threadEntries.rows.filter (·.rootKey = entry.rootKey)).map ThreadEntry.number =
      List.range' 1 (a.places.filter (·.rootKey = entry.rootKey)).length := by
    rw [← ha.counted entry.rootKey, Account.places, List.filter_map, List.map_map]
    rfl
  have hsorted : (a.threadEntries.rows.filter (·.rootKey = entry.rootKey)).mergeSort (fun x y => x.number ≤ y.number) =
      a.threadEntries.rows.filter (·.rootKey = entry.rootKey) := by
    refine List.mergeSort_of_pairwise ?_
    have hrange : (List.map ThreadEntry.number (a.threadEntries.rows.filter (·.rootKey = entry.rootKey))).Pairwise (· ≤ ·) := by
      rw [hnumbers]
      exact List.pairwise_le_range'
    exact (List.pairwise_map.mp hrange).imp fun hle => decide_eq_true hle
  have hlength := congrArg List.length hnumbers
  rw [List.length_map, List.length_range'] at hlength
  rw [hsorted] at hitems ⊢
  refine ⟨⟨entry.rootKey, ?_, ?_⟩, rfl⟩
  · refine ((List.mergeSort_perm items _).map _).trans (List.Perm.of_eq ?_)
    rw [numbers_of_items hitems, List.take_take, List.map_take, hnumbers, take_range]
    rfl
  · rw [decide_eq_true_eq, List.length_take, hlength]
    omega

section Runs

variable (env : Engine)

inductive ThreadRequest
  | recordMessage (now : Int) (actor : Principal) (identifier folder : String) (validity uid : Nat) (m : MailMessage)
  | processed (actor : Principal) (identifier messageId : String)
  | markIngested (actor : Principal) (identifier messageId sourceKey : String)
  | recordAnalysis (actor : Principal) (identifier messageId model analysis : String)
  | thread (actor : Principal) (identifier messageId : String)
  | saveDraft (now : Int) (actor : Principal) (identifier : String) (issued : Issued) (saving : Saving)
  | approve (actor : Principal) (identifier draftId : String) (revision : Nat)
  | approveAutomatic (now : Int) (actor : Principal) (identifier draftId : String) (source : MailMessage)
    (policy : Option ResponseProfile) (sourceAccount : Option String)
  | claimSend (actor : Principal) (identifier draftId : String) (revision : Nat)
  | finishSend (actor : Principal) (identifier draftId : String) (success : Bool)
  | update (actor : Principal) (identifier : String) (revision : Nat) (value : ConnectionInput)
      (credentials : Option CredentialUpdate)

def ThreadRequest.perform (time : String → Int) (s : MailStore) : ThreadRequest → Except String MailStore
  | .recordMessage now actor identifier folder validity uid m =>
      (Mail.recordMessage env s now actor identifier folder validity uid m).map Prod.snd
  | .processed actor identifier messageId => Mail.processed s actor identifier messageId
  | .markIngested actor identifier messageId sourceKey => Mail.markIngested env s actor identifier messageId sourceKey
  | .recordAnalysis actor identifier messageId model analysis => Mail.recordAnalysis env s actor identifier messageId model analysis
  | .thread actor identifier messageId => (Mail.thread env time s actor identifier messageId).map Prod.snd
  | .saveDraft now actor identifier issued saving => (Mail.saveDraft env s now actor identifier issued saving).map Prod.snd
  | .approve actor identifier draftId revision => Mail.approve s actor identifier draftId revision
  | .approveAutomatic now actor identifier draftId source policy sourceAccount =>
      Mail.approveAutomatic env s now actor identifier draftId source policy sourceAccount
  | .claimSend actor identifier draftId revision => (Mail.claimSend s actor identifier draftId revision).map Prod.snd
  | .finishSend actor identifier draftId success => Mail.finishSend s actor identifier draftId success
  | .update actor identifier revision value credentials => Mail.update s actor identifier revision value credentials

def threadStep (time : String → Int) (s : MailStore) (r : ThreadRequest) : MailStore :=
  match r.perform env time s with
  | .ok t => t
  | .error _ => s

def MailStore.Numbered (old : String × String → RecordKind → String → Prop) (s : MailStore) : Prop :=
  ∀ k a, s.get k = some a → a.Numbered env k (old k)

def MailStore.Grows (s t : MailStore) : Prop :=
  ∀ k a, s.get k = some a → ∃ b, t.get k = some b ∧ Mail.Grows env k a b

variable {env} {old : String × String → RecordKind → String → Prop} {s t : MailStore} {k : String × String} {a b : Account}

theorem numbered_write (hs : s.Numbered env old) (hget : s.get k = some a) (h : Mail.Grows env k a b ∧ b.Numbered env k (old k)) :
    MailStore.Numbered env old (s.set k b) ∧ MailStore.Grows env s (s.set k b) := by
  refine ⟨fun k' c hc => ?_, fun k' c hc => ?_⟩
  · by_cases hk : k' = k
    · subst hk
      rw [Entries.get_set_self hget] at hc
      exact Option.some.inj hc ▸ h.2
    · rw [Entries.get_set_other b hk] at hc
      exact hs k' c hc
  · by_cases hk : k' = k
    · subst hk
      obtain rfl := Option.some.inj (hget.symm.trans hc)
      exact ⟨b, Entries.get_set_self hget, h.1⟩
    · exact ⟨c, by rwa [Entries.get_set_other b hk], .refl c⟩

theorem saveDraft_numbered (hs : s.Numbered env old) {now : Int} {actor : Principal} {identifier : String} {issued : Issued}
    {saving : Saving} {row : DraftRow} (h : Mail.saveDraft env s now actor identifier issued saving = .ok (row, t)) :
    t.Numbered env old ∧ s.Grows env t := by
  simp only [Mail.saveDraft, bind_eq_ok, pure_eq_ok, context_eq_ok, Prod.mk.injEq, Prod.exists] at h
  obtain ⟨a, ha, value, -, _, -, reference, -, binding, b, hbinding, c, hwrite, saved, -, _, -, -, rfl⟩ := h
  have hget := (account_eq_ok.mp ha).1
  obtain ⟨hgrows, hb, hbinds, -, -⟩ := (hs _ a hget).bind hbinding
  exact numbered_write hs hget (writeDraft_grows hb hgrows hbinds hwrite)

theorem thread_numbered (hs : s.Numbered env old) {time : String → Int} {actor : Principal} {identifier messageId : String}
    {page : ThreadPage} (h : Mail.thread env time s actor identifier messageId = .ok (page, t)) :
    (t.Numbered env old ∧ s.Grows env t) ∧ ∃ b, t.get (actor.tenant, identifier) = some b ∧
      (∃ rootKey, page.Lists b.places rootKey) ∧
      (page.indexedComplete = true → (∀ m ∈ b.messages.rows, b.binds .message m.id) ∧
        ∀ d ∈ b.drafts.rows, b.binds .draft d.id) := by
  simp only [Mail.thread, Account.bindMessage, bind_eq_ok, pure_eq_ok, context_eq_ok, Prod.mk.injEq, Prod.exists] at h
  obtain ⟨a, ha, row, -, complete, c, hindex, m, -, binding, b, hbinding, page', hpage, rfl, rfl⟩ := h
  have hget := (account_eq_ok.mp ha).1
  obtain ⟨hgrows, hc, hdone⟩ := indexThreads_batch (hs _ a hget) hindex
  obtain ⟨hgrows', hb, -, hmessages, hdrafts⟩ := hc.bind hbinding
  obtain ⟨hlists, hcomplete⟩ := threadPage_lists hb.threaded hpage
  refine ⟨numbered_write hs hget ⟨hgrows.trans hgrows', hb⟩, b, Entries.get_set_self hget, hlists, fun h => ?_⟩
  obtain ⟨hm, hd⟩ := hdone (hcomplete ▸ h)
  rw [hmessages, hdrafts]
  exact ⟨fun m hmem => hgrows'.binds (hm m hmem), fun d hmem => hgrows'.binds (hd d hmem)⟩

theorem perform_numbered (hs : s.Numbered env old) {time : String → Int} {r : ThreadRequest} (h : r.perform env time s = .ok t) :
    t.Numbered env old ∧ s.Grows env t := by
  cases r with
  | recordMessage now actor identifier folder validity uid m =>
      simp only [ThreadRequest.perform, Mail.recordMessage, map_eq_ok, bind_eq_ok, pure_eq_ok] at h
      obtain ⟨_, ⟨a, ha, b, hb, rfl⟩, rfl⟩ := h
      have hget := (account_eq_ok.mp ha).1
      exact numbered_write hs hget (recordMessage_grows (hs _ a hget) hb)
  | processed actor identifier messageId =>
      simp only [ThreadRequest.perform, Mail.processed, bind_eq_ok, pure_eq_ok] at h
      obtain ⟨a, ha, rfl⟩ := h
      have hget := (account_eq_ok.mp ha).1
      have hn := hs _ a hget
      exact numbered_write hs hget (hn.write (.refl a) rfl rfl (hn.rewritten rfl fun _ => rfl) hn.drafts)
  | markIngested actor identifier messageId sourceKey =>
      simp only [ThreadRequest.perform, Mail.markIngested, bind_eq_ok, pure_eq_ok] at h
      obtain ⟨a, ha, b, hb, rfl⟩ := h
      have hget := (account_eq_ok.mp ha).1
      obtain ⟨hgrows, hn⟩ : Mail.Grows env (actor.tenant, identifier) a b ∧ b.Numbered env (actor.tenant, identifier) (old _) := by
        split at hb
        · obtain rfl := Except.ok.inj hb
          exact ⟨.refl a, hs _ a hget⟩
        · exact threadContext_grows (hs _ a hget) hb
      exact numbered_write hs hget (hn.write hgrows rfl rfl (hn.rewritten rfl fun _ => rfl) hn.drafts)
  | recordAnalysis actor identifier messageId model analysis =>
      simp only [ThreadRequest.perform, Mail.recordAnalysis, bind_eq_ok, pure_eq_ok] at h
      obtain ⟨a, ha, b, hb, rfl⟩ := h
      have hget := (account_eq_ok.mp ha).1
      exact numbered_write hs hget (threadContext_grows (hs _ a hget) hb)
  | thread actor identifier messageId =>
      obtain ⟨⟨page, t'⟩, hthread, rfl⟩ := map_eq_ok.mp h
      exact (thread_numbered hs hthread).1
  | saveDraft now actor identifier issued saving =>
      obtain ⟨⟨row, t'⟩, hsave, rfl⟩ := map_eq_ok.mp h
      exact saveDraft_numbered hs hsave
  | approve actor identifier draftId revision =>
      simp only [ThreadRequest.perform, Mail.approve, bind_eq_ok, pure_eq_ok] at h
      obtain ⟨a, ha, -, -, rfl⟩ := h
      have hget := (account_eq_ok.mp ha).1
      have hn := hs _ a hget
      exact numbered_write hs hget (hn.write (.refl a) rfl rfl hn.messages (hn.redrafted rfl approve_id))
  | approveAutomatic now actor identifier draftId source policy sourceAccount =>
      simp only [ThreadRequest.perform, Mail.approveAutomatic, bind_eq_ok, pure_eq_ok] at h
      obtain ⟨a, ha, -, -, _, -, _, -, _, -, _, -, -, -, -, -, -, -, -, -, rfl⟩ := h
      have hget := (account_eq_ok.mp ha).1
      have hn := hs _ a hget
      exact numbered_write hs hget (hn.write (.refl a) rfl rfl hn.messages (hn.redrafted rfl approve_id))
  | claimSend actor identifier draftId revision =>
      obtain ⟨⟨content, t'⟩, hclaim, rfl⟩ := map_eq_ok.mp h
      simp only [Mail.claimSend, bind_eq_ok, pure_eq_ok, Prod.mk.injEq] at hclaim
      obtain ⟨a, ha, -, -, _, -, _, -, -, -, -, rfl⟩ := hclaim
      have hget := (account_eq_ok.mp ha).1
      have hn := hs _ a hget
      exact numbered_write hs hget (hn.write (.refl a) rfl rfl hn.messages (hn.redrafted rfl fun _ => rfl))
  | finishSend actor identifier draftId success =>
      simp only [ThreadRequest.perform, Mail.finishSend, bind_eq_ok, pure_eq_ok] at h
      obtain ⟨a, ha, rfl⟩ := h
      have hget := (account_eq_ok.mp ha).1
      have hn := hs _ a hget
      exact numbered_write hs hget (hn.write (.refl a) rfl rfl hn.messages (hn.redrafted rfl (finish_id success)))
  | update actor identifier revision value credentials =>
      simp only [ThreadRequest.perform, Mail.update, bind_eq_ok, pure_eq_ok] at h
      obtain ⟨a, ha, -, -, _, -, rfl⟩ := h
      have hget := (account_eq_ok.mp ha).1
      have hn := hs _ a hget
      exact numbered_write hs hget (hn.write (.refl a) rfl rfl hn.messages (hn.redrafted rfl revoke_id))

def MailStore.Unthreaded (s : MailStore) : Prop :=
  ∀ k a, s.get k = some a → a.threadEntries.rows = [] ∧ a.threadRecords.rows = []

def MailStore.records (s : MailStore) (k : String × String) (kind : RecordKind) (id : String) : Prop :=
  ∃ a, s.get k = some a ∧
    match kind with
    | .message => ∃ m ∈ a.messages.rows, m.id = id
    | .draft => ∃ d ∈ a.drafts.rows, d.id = id

theorem MailStore.Unthreaded.numbered (h : s.Unthreaded) : s.Numbered env s.records := by
  intro k a ha
  obtain ⟨hentries, hrecords⟩ := h k a ha
  refine ⟨?_, fun r hr => ?_, fun m hm => .inr ⟨a, ha, m, hm, rfl⟩, fun d hd => .inr ⟨a, ha, d, hd, rfl⟩⟩
  · rw [Account.places, hentries]
    exact .nil
  · rw [hrecords] at hr
    exact absurd hr List.not_mem_nil

theorem step_numbered (hs : s.Numbered env old) (time : String → Int) (r : ThreadRequest) :
    (threadStep env time s r).Numbered env old ∧ s.Grows env (threadStep env time s r) := by
  rw [threadStep]
  cases hperform : r.perform env time s with
  | error e => exact ⟨hs, fun k a ha => ⟨a, ha, .refl a⟩⟩
  | ok t => exact perform_numbered hs hperform

theorem MailStore.Grows.trans {u : MailStore} (h : s.Grows env t) (h' : t.Grows env u) : s.Grows env u := by
  intro k a ha
  obtain ⟨b, hb, hgrows⟩ := h k a ha
  obtain ⟨c, hc, hgrows'⟩ := h' k b hb
  exact ⟨c, hc, hgrows.trans hgrows'⟩

/-- Whatever the requests, every thread of a mailbox is numbered from one on in the
order in which its messages became known, and an answer is in the thread of its
parent. The messages and drafts of a run have a number from the start, older ones
get theirs in batches. Later requests change no number, thread or binding. A page
of a thread lists the first 128 numbers, each once, and when it tells that all is
indexed every message and draft has its number. -/
theorem threads_numbered (env : Engine) (time : String → Int) (start : MailStore) (h : start.Unthreaded)
    (requests : List ThreadRequest) :
    (∀ k a, (run (threadStep env time) start requests).get k = some a → Threaded env k a.places ∧
      (∀ m ∈ a.messages.rows, a.binds .message m.id ∨ start.records k .message m.id) ∧
      ∀ d ∈ a.drafts.rows, a.binds .draft d.id ∨ start.records k .draft d.id) ∧
    (∀ later : List ThreadRequest, (run (threadStep env time) start requests).Grows env
      (run (threadStep env time) start (requests ++ later))) ∧
    ∀ actor identifier messageId page t,
      thread env time (run (threadStep env time) start requests) actor identifier messageId = .ok (page, t) →
      ∃ b, t.get (actor.tenant, identifier) = some b ∧ (∃ rootKey, page.Lists b.places rootKey) ∧
        (page.indexedComplete = true →
          (∀ m ∈ b.messages.rows, b.binds .message m.id) ∧ ∀ d ∈ b.drafts.rows, b.binds .draft d.id) := by
  have hstep : ∀ s r, MailStore.Numbered env start.records s →
      MailStore.Numbered env start.records (threadStep env time s r) ∧ s.Grows env (threadStep env time s r) :=
    fun s r hs => step_numbered hs time r
  have hnumbered := run_invariant_always (fun s r hs => (hstep s r hs).1) h.numbered requests
  refine ⟨fun k a ha => ?_, fun later => ?_, fun actor identifier messageId page t ht => (thread_numbered hnumbered ht).2⟩
  · obtain ⟨hthreaded, -, hmessages, hdrafts⟩ := hnumbered k a ha
    exact ⟨hthreaded, hmessages, hdrafts⟩
  · rw [run_append]
    exact run_related (R := MailStore.Grows env) (fun s k a ha => ⟨a, ha, .refl a⟩) (fun _ _ _ => MailStore.Grows.trans) hstep
      hnumbered later

end Runs

def answeredThread : List ThreadRequest :=
  [.recordMessage 0 ada "box" "INBOX" 1 1 question,
    .saveDraft 0 ada "box" issuedDraft ⟨none, none, acknowledgement, none, false, none⟩]

theorem threads_numbered_answered :
    ((run (threadStep lengthEngine fun _ => 0) staffedBox answeredThread).get ("acme", "box")).map
      (fun a => a.places.map Place.number) = some [1, 2] ∧
    MailStore.Grows lengthEngine (run (threadStep lengthEngine fun _ => 0) staffedBox [])
      (run (threadStep lengthEngine fun _ => 0) staffedBox ([] ++ answeredThread)) := by
  refine ⟨by decide +kernel, (threads_numbered lengthEngine (fun _ => 0) staffedBox ?_ []).2.1 answeredThread⟩
  intro k a ha
  obtain ⟨r, hr, rfl⟩ := Option.map_eq_some_iff.mp ha
  obtain rfl := List.mem_singleton.mp (Table.find_eq_some.mp hr).1
  exact ⟨rfl, rfl⟩

end Galadril.Mail
