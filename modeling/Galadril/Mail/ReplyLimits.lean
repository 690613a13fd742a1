import Galadril.Mail.AutomaticReplies

namespace Galadril.Mail

open Lib Lib.Checked Lib.Transitions

def Live (s : MailStore) (reading : Reading) : Prop :=
  reading.message.historical = false ∧ ∃ a row, s.get reading.mailbox = some a ∧ a.messages.find reading.id = some row ∧
    row.historical = false ∧ row.content.sender = reading.message.sender

def Account.keepsMessages (a b : Account) : Prop :=
  ∀ id row, a.messages.find id = some row → ∃ row', b.messages.find id = some row' ∧ row'.historical = row.historical ∧
    row'.content.sender = row.content.sender

structure Desk.Tracked (env : Engine) (limits : String × String → ResponseProfile) (w : Desk) : Prop where
  agrees : ∀ k a, w.store.get k = some a → a.Agrees env k w.log
  filed : ∀ k a, w.store.get k = some a → a.Filed env k
  profiles : ∀ k a, w.store.get k = some a → a.replyProfile = limits k
  read : ∀ r ∈ w.read, Live w.store r

variable {env : Engine} {limits : String × String → ResponseProfile} {w : Desk} {k : String × String} {a b : Account}

theorem keepsMessages_of_eq (h : b.messages = a.messages) : a.keepsMessages b :=
  fun _ row hrow => ⟨row, by rw [h, hrow], rfl, rfl⟩

theorem Live.set {reading : Reading} {s : MailStore} (h : Live s reading) (hget : s.get k = some a) (hkeeps : a.keepsMessages b) :
    Live (s.set k b) reading := by
  obtain ⟨hlive, c, row, hc, hrow, hhistorical, hsender⟩ := h
  refine ⟨hlive, ?_⟩
  by_cases hk : reading.mailbox = k
  · obtain rfl := Option.some.inj (hget.symm.trans (hk ▸ hc))
    obtain ⟨row', hrow', hhistorical', hsender'⟩ := hkeeps _ row hrow
    refine ⟨b, row', ?_, hrow', hhistorical'.trans hhistorical, hsender'.trans hsender⟩
    rw [hk]
    exact Entries.get_set_self hget
  · exact ⟨c, row, by rwa [Entries.get_set_other b hk], hrow, hhistorical, hsender⟩

theorem Desk.Tracked.write (hw : w.Tracked env limits) (hget : w.store.get k = some a) {log : List ReplyEvent}
    (hagrees : b.Agrees env k log) (hother : ∀ k' c, k' ≠ k → w.store.get k' = some c → c.Agrees env k' log)
    (hfiled : b.Filed env k) (hprofile : b.profile = a.profile) (hkeeps : a.keepsMessages b) :
    Desk.Tracked env limits { w with
      store := w.store.set k b
      log } := by
  refine ⟨fun k' c hc => ?_, fun k' c hc => ?_, fun k' c hc => ?_, fun r hr => (hw.read r hr).set hget hkeeps⟩
  · by_cases hk : k' = k
    · subst hk
      rw [Entries.get_set_self hget] at hc
      exact Option.some.inj hc ▸ hagrees
    · rw [Entries.get_set_other b hk] at hc
      exact hother k' c hk hc
  · by_cases hk : k' = k
    · subst hk
      rw [Entries.get_set_self hget] at hc
      exact Option.some.inj hc ▸ hfiled
    · rw [Entries.get_set_other b hk] at hc
      exact hw.filed k' c hc
  · by_cases hk : k' = k
    · subst hk
      rw [Entries.get_set_self hget] at hc
      obtain rfl := Option.some.inj hc
      rw [Account.replyProfile, hprofile]
      exact hw.profiles k' a hget
    · rw [Entries.get_set_other b hk] at hc
      exact hw.profiles k' c hc

/-- A step that writes one account and reports nothing. -/
theorem Desk.Tracked.silent (hw : w.Tracked env limits) (hget : w.store.get k = some a) (hfollows : ∀ draft, a.follows b draft)
    (hfiled : b.Filed env k) (hprofile : b.profile = a.profile) (hkeeps : a.keepsMessages b) :
    Desk.Tracked env limits { w with store := w.store.set k b } :=
  hw.write hget ((hw.agrees k a hget).silent hfollows) (fun k' c _ hc => hw.agrees k' c hc) hfiled hprofile hkeeps

/-- A step that writes the drafts of one account and reports it. -/
theorem Desk.Tracked.report (hw : w.Tracked env limits) (hget : w.store.get k = some a) {e : ReplyEvent} (he : e.mailbox = k)
    (hagrees : b.Agrees env k (w.log ++ [e])) (hprofile : b.profile = a.profile) (hmessages : b.messages = a.messages) :
    Desk.Tracked env limits { w with
      store := w.store.set k b
      log := w.log ++ [e] } := by
  have hfiled := hw.filed k a hget
  refine hw.write hget hagrees (fun k' c hk hc => (hw.agrees k' c hc).other (he ▸ Ne.symm hk)) ?_ hprofile
    (keepsMessages_of_eq hmessages)
  exact ⟨hmessages ▸ hfiled.placed, hmessages ▸ hfiled.marked, hmessages ▸ hfiled.settled⟩

theorem Desk.Tracked.reading (hw : w.Tracked env limits) {found : List Reading} (h : ∀ r ∈ found, Live w.store r) :
    Desk.Tracked env limits { w with read := w.read ++ found } :=
  ⟨hw.agrees, hw.filed, hw.profiles, fun r hr => (List.mem_append.mp hr).elim (hw.read r) (h r)⟩

theorem Recorded.keeps {folder : String} {validity uid : Nat} {m : MailMessage} (h : Recorded env k a b folder validity uid m) :
    a.keepsMessages b := by
  intro id row hrow
  obtain ⟨hmem, hkey⟩ := Table.find_eq_some.mp hrow
  cases h with
  | added new hnone hrows hid hplace hsender hcontent hhistorical hprocessed =>
      refine ⟨row, Table.find_eq_some.mpr ⟨?_, hkey⟩, rfl, rfl⟩
      rw [hrows]
      exact List.mem_append_left _ hmem
  | kept old content hold hplace hsender hcontent hrows =>
      by_cases hid : row.id = old.id
      · obtain rfl := Table.eq_of_key hmem (Table.find_eq_some.mp hold).1 hid
        refine ⟨{ row with content }, Table.find_eq_some.mpr ⟨?_, hkey⟩, rfl, hsender⟩
        rw [hrows]
        exact List.mem_map.mpr ⟨row, hmem, if_pos rfl⟩
      · refine ⟨row, Table.find_eq_some.mpr ⟨?_, hkey⟩, rfl, rfl⟩
        rw [hrows]
        exact List.mem_map.mpr ⟨row, hmem, if_neg hid⟩

theorem keepsMessages_process (messageId : String) :
    a.keepsMessages { a with messages := a.messages.update (·.id = messageId) process process_id } := by
  intro id row hrow
  refine ⟨if row.id = messageId then process row else row, ?_, ?_, ?_⟩
  · rw [Table.find_update, hrow]
    simp
  · split <;> rfl
  · split <;> rfl

/-- What a listing or a lookup of messages returns is in the mailbox. -/
theorem pending_live {actor : Principal} {identifier : String} {found : List (String × MailMessage)} {s : MailStore}
    (hfiled : ∀ k a, s.get k = some a → a.Filed env k) (h : pending s actor identifier = .ok found) :
    ∀ r ∈ found, Live s ⟨(actor.tenant, identifier), r.1, r.2⟩ := by
  simp only [pending, bind_eq_ok] at h
  obtain ⟨a, ha, hfound⟩ := h
  have hget := (account_eq_ok.mp ha).1
  intro r hr
  obtain ⟨row, hrow, hread⟩ := mapM_eq_ok_mem hfound hr
  simp only [bind_eq_ok, pure_eq_ok] at hread
  obtain ⟨m, hmail, rfl⟩ := hread
  obtain ⟨hmem, hopen⟩ := List.mem_filter.mp (List.mem_of_mem_take hrow)
  obtain ⟨hsender, hhistorical⟩ := mail_eq_ok hmail
  have hlive : row.historical = false := by
    cases hold : row.historical with
    | false => rfl
    | true =>
        have hprocessed := (hfiled _ a hget).settled row hmem hold
        simp [hprocessed] at hopen
  have hmarked := (hfiled _ a hget).marked row hmem
  exact ⟨by rw [hhistorical, hmarked, hlive], a, row, hget, Table.find_eq_some.mpr ⟨hmem, rfl⟩, hlive, hsender.symm⟩

theorem message_live {actor : Principal} {identifier messageId : String} {m : MailMessage} {s : MailStore}
    (hfiled : ∀ k a, s.get k = some a → a.Filed env k) (h : message s actor identifier messageId .read = .ok m)
    (hlive : m.historical = false) : Live s ⟨(actor.tenant, identifier), messageId, m⟩ := by
  simp only [message, bind_eq_ok, context_eq_ok] at h
  obtain ⟨a, ha, row, hrow, hmail⟩ := h
  obtain ⟨hsender, hhistorical⟩ := mail_eq_ok hmail
  have hget := (account_eq_ok.mp ha).1
  have hmarked := (hfiled _ a hget).marked row (Table.find_eq_some.mp hrow).1
  exact ⟨hlive, a, row, hget, hrow, by rw [← hmarked, ← hhistorical, hlive], hsender.symm⟩

section Steps

def ReplyEvent.addressed : ReplyEvent → Prop
  | .automatic _ _ _ reading profile content =>
      profile.mode = .automatic ∧ reading.message.historical = false ∧ reading.message.sender ∈ profile.allowedSenders ∧
        content.toAddresses = [reading.message.sender] ∧ content.cc = [] ∧ content.bcc = [] ∧ content.attachments = []
  | _ => True

def Account.keepsDays (a b : Account) : Prop :=
  ∀ d row row', a.drafts.find d = some row → b.drafts.find d = some row' → row'.created = row.created

structure Desk.Steady (w w' : Desk) : Prop where
  held : ∀ k d time reading, Held k d w'.log time reading → Held k d w.log time reading
  addressed : ∀ e ∈ w'.log, e ∈ w.log ∨ e.addressed
  days : ∀ k b, w'.store.get k = some b → ∃ a, w.store.get k = some a ∧ a.keepsDays b

/-- The limits of every account, as far as the log goes. A day of drafts is
counted from their first saves, a day of senders from the approvals. -/
structure Desk.Limited (env : Engine) (limits : String × String → ResponseProfile) (w : Desk) : Prop where
  addressed : ∀ e ∈ w.log, e.addressed
  senders : ∀ k limit sender, (limits k).senderDailyLimit = some limit →
    AtMost limit (fun d => Held k d w.log) fun reading => senderDigest env k.2 reading.message = sender
  threads : ∀ k, (limits k).oneReplyPerThread = true → ∀ d d' time time' reading reading', Held k d w.log time reading →
    Held k d' w.log time' reading' → threadDigest env k.2 reading.message = threadDigest env k.2 reading'.message → d = d'
  daily : ∀ k a, w.store.get k = some a → ∀ (since : Int) (drafts : List String), drafts.Nodup →
    (∀ d ∈ drafts, ∃ row time reading, a.drafts.find d = some row ∧ since ≤ row.created ∧ Held k d w.log time reading ∧
      time ≤ since + 86400) → drafts.length ≤ (limits k).dailyLimit

variable {env : Engine} {limits : String × String → ResponseProfile} {w w' : Desk} {k : String × String} {a b : Account}

theorem keepsDays_of_eq (h : b.drafts = a.drafts) : a.keepsDays b := by
  intro d row row' hrow hrow'
  rw [h, hrow] at hrow'
  exact congrArg DraftRow.created (Option.some.inj hrow').symm

theorem keepsDays_of_update {p : DraftRow → Bool} {f : DraftRow → DraftRow} (hf : ∀ d, (f d).id = d.id)
    (h : b.drafts = a.drafts.update p f hf) (hcreated : ∀ d, (f d).created = d.created) : a.keepsDays b := by
  intro d row row' hrow hrow'
  rw [h, Table.find_update, hrow, Option.map_some] at hrow'
  obtain rfl := Option.some.inj hrow'
  split
  · exact hcreated row
  · rfl

theorem Desk.Limited.steady (h : w.Limited env limits) (hw : w.Tracked env limits) (hs : w.Steady w') :
    w'.Limited env limits where
  addressed e he := (hs.addressed e he).elim (h.addressed e) id
  senders k limit sender hlimit := (h.senders k limit sender hlimit).mono fun d => hs.held k d
  threads k hone d d' time time' reading reading' hd hd' :=
    h.threads k hone d d' time time' reading reading' (hs.held k d time reading hd) (hs.held k d' time' reading' hd')
  daily k b hb since drafts hnodup hdrafts := by
    obtain ⟨a, ha, hdays⟩ := hs.days k b hb
    refine h.daily k a ha since drafts hnodup fun d hd => ?_
    obtain ⟨row', time, reading, hrow', hsince, hheld, htime⟩ := hdrafts d hd
    have hbefore := hs.held k d time reading hheld
    obtain ⟨⟨row, hrow, -, -⟩, -⟩ := (hw.agrees k a ha).held d time reading hbefore
    exact ⟨row, time, reading, hrow, hdays d row row' hrow hrow' ▸ hsince, hbefore, htime⟩

theorem steady_store (hget : w.store.get k = some a) (hdays : a.keepsDays b) {k' : String × String} {c : Account}
    (hc : (w.store.set k b).get k' = some c) : ∃ a', w.store.get k' = some a' ∧ a'.keepsDays c := by
  by_cases hk : k' = k
  · subst hk
    rw [Entries.get_set_self hget] at hc
    exact ⟨a, hget, Option.some.inj hc ▸ hdays⟩
  · rw [Entries.get_set_other b hk] at hc
    exact ⟨c, hc, keepsDays_of_eq rfl⟩

/-- A step that writes one account and reports nothing. -/
theorem Desk.Tracked.quiet (hw : w.Tracked env limits) (hget : w.store.get k = some a) (hfollows : ∀ draft, a.follows b draft)
    (hfiled : b.Filed env k) (hprofile : b.profile = a.profile) (hkeeps : a.keepsMessages b) (hdays : a.keepsDays b) :
    Desk.Tracked env limits { w with store := w.store.set k b } ∧ w.Steady { w with store := w.store.set k b } :=
  ⟨hw.silent hget hfollows hfiled hprofile hkeeps, fun _ _ _ _ => id, fun _ => .inl, fun _ _ => steady_store hget hdays⟩

/-- A step that writes the drafts of one account and reports it, an automatic
approval apart. -/
theorem Desk.Tracked.told (hw : w.Tracked env limits) (hget : w.store.get k = some a) {e : ReplyEvent} (he : e.mailbox = k)
    (hplain : ∀ k draft time reading profile content, e ≠ .automatic k draft time reading profile content)
    (hagrees : b.Agrees env k (w.log ++ [e])) (hprofile : b.profile = a.profile) (hmessages : b.messages = a.messages)
    (hdays : a.keepsDays b) :
    Desk.Tracked env limits { w with
      store := w.store.set k b
      log := w.log ++ [e] } ∧
    w.Steady { w with
      store := w.store.set k b
      log := w.log ++ [e] } := by
  refine ⟨hw.report hget he hagrees hprofile hmessages, fun k' d time reading hheld => ?_, fun x hx => ?_,
    fun _ _ => steady_store hget hdays⟩
  · rcases held_snoc hheld with hheld | ⟨profile, content, heq⟩
    · exact hheld
    · exact absurd heq (hplain k' d time reading profile content)
  · refine (List.mem_append.mp hx).imp_right fun hx => ?_
    obtain rfl := List.mem_singleton.mp hx
    cases x with
    | automatic k draft time reading profile content => exact absurd rfl (hplain k draft time reading profile content)
    | approved k draft => trivial
    | saved k draft => trivial
    | updated k => trivial
    | claimed k draft => trivial

end Steps

variable {w' : Desk}

theorem recordMessage_bounded (hw : w.Tracked env limits) {actor : Principal} {identifier folder : String} {validity uid : Nat}
    {m : MailMessage} (h : w.perform env (.recordMessage actor identifier folder validity uid m) = .ok w') :
    w'.Tracked env limits ∧ w.Steady w' := by
  simp only [Desk.perform, Mail.recordMessage, bind_eq_ok, pure_eq_ok, Prod.exists, Prod.mk.injEq] at h
  obtain ⟨key, store, ⟨a, ha, b, hb, -, rfl⟩, rfl⟩ := h
  have hget := (account_eq_ok.mp ha).1
  have hfiled := hw.filed _ a hget
  have hrecorded := recordMessage_recorded hfiled hb
  obtain ⟨entries, records, messages, hframe⟩ := recordMessage_frame hb
  obtain ⟨cursors, hcursors⟩ := advance_frame { a with
    threadEntries := entries
    threadRecords := records
    messages } folder validity uid
  rw [hcursors] at hframe
  have hdrafts : b.drafts = a.drafts := by rw [hframe]
  exact hw.quiet hget (fun draft => follows_of_eq (by rw [hframe]) (by rw [hdrafts])) (hfiled.record hrecorded)
    (by rw [hframe]) hrecorded.keeps (keepsDays_of_eq hdrafts)

theorem processed_bounded (hw : w.Tracked env limits) {actor : Principal} {identifier messageId : String}
    (h : w.perform env (.processed actor identifier messageId) = .ok w') : w'.Tracked env limits ∧ w.Steady w' := by
  simp only [Desk.perform, Mail.processed, bind_eq_ok, pure_eq_ok] at h
  obtain ⟨store, ⟨a, ha, rfl⟩, rfl⟩ := h
  have hget := (account_eq_ok.mp ha).1
  exact hw.quiet hget (fun draft => follows_of_eq rfl rfl) ((hw.filed _ a hget).process messageId) rfl
    (keepsMessages_process messageId) (keepsDays_of_eq rfl)

theorem steady_read (found : List Reading) : w.Steady { w with read := w.read ++ found } :=
  ⟨fun _ _ _ _ => id, fun _ => .inl, fun _ b hb => ⟨b, hb, keepsDays_of_eq rfl⟩⟩

theorem pending_bounded (hw : w.Tracked env limits) {actor : Principal} {identifier : String}
    (h : w.perform env (.pending actor identifier) = .ok w') : w'.Tracked env limits ∧ w.Steady w' := by
  simp only [Desk.perform, bind_eq_ok, pure_eq_ok] at h
  obtain ⟨found, hfound, rfl⟩ := h
  refine ⟨hw.reading fun r hr => ?_, steady_read _⟩
  obtain ⟨x, hx, rfl⟩ := List.mem_map.mp hr
  exact pending_live hw.filed hfound x hx

theorem message_bounded (hw : w.Tracked env limits) {actor : Principal} {identifier messageId : String}
    (h : w.perform env (.message actor identifier messageId) = .ok w') : w'.Tracked env limits ∧ w.Steady w' := by
  simp only [Desk.perform, bind_eq_ok, ensure_eq_ok, pure_eq_ok, Bool.not_eq_true'] at h
  obtain ⟨m, hm, _, hlive, rfl⟩ := h
  refine ⟨hw.reading fun r hr => ?_, steady_read _⟩
  obtain rfl := List.mem_singleton.mp hr
  exact message_live hw.filed hm hlive

theorem saveDraft_bounded (hw : w.Tracked env limits) {actor : Principal} {identifier : String} {issued : Issued} {saving : Saving}
    (h : w.perform env (.saveDraft actor identifier issued saving) = .ok w') : w'.Tracked env limits ∧ w.Steady w' := by
  simp only [Desk.perform, bind_eq_ok, pure_eq_ok, Prod.exists] at h
  obtain ⟨row, store, hsave, rfl⟩ := h
  obtain ⟨a, b, ha, rfl, hsaved⟩ := saveDraft_saved hsave
  have hget := (account_eq_ok.mp ha).1
  have hid : row.id = saving.draftId.getD issued.draftId := Table.key_of_find hsaved.here
  have hother : ∀ d, d ≠ row.id → a.follows b d := fun d hd =>
    follows_of_eq hsaved.actions (hsaved.others d fun h => hd (h.trans hid.symm))
  refine hw.told hget rfl (by rintro _ _ _ _ _ _ ⟨⟩) ?_ hsaved.settings.2.2.2.1 hsaved.messages fun d old new hold hnew => ?_
  · refine (hw.agrees _ a hget).report (by rintro _ _ _ _ _ ⟨⟩) (fun d old hold hdelivered => hother d ?_)
      (fun d hends => hother d fun hd => hends ⟨rfl, hd.symm⟩) (by rintro _ ⟨⟩)
    rintro rfl
    rw [(hsaved.edited old (hid ▸ hold)).1] at hdelivered
    cases hdelivered
  · by_cases hd : d = row.id
    · have hhere := hsaved.here
      rw [← hid, ← hd, hnew] at hhere
      obtain rfl := Option.some.inj hhere
      exact (hsaved.edited old (hid ▸ hd ▸ hold)).2.2.1
    · rw [hsaved.others d fun h => hd (h.trans hid.symm), hold] at hnew
      exact congrArg DraftRow.created (Option.some.inj hnew).symm

theorem approve_bounded (hw : w.Tracked env limits) {actor : Principal} {identifier draftId : String} {revision : Nat}
    (h : w.perform env (.approve actor identifier draftId revision) = .ok w') : w'.Tracked env limits ∧ w.Steady w' := by
  simp only [Desk.perform, bind_eq_ok, pure_eq_ok] at h
  obtain ⟨store, happrove, rfl⟩ := h
  obtain ⟨a, row, ha, hrow, -, hopen, rfl⟩ := approve_writes happrove
  have hget := (account_eq_ok.mp ha).1
  have hother : ∀ d, d ≠ draftId → a.follows { a with
      drafts := a.drafts.update (·.id = draftId) DraftRow.approve approve_id } d := fun d hd =>
    follows_of_eq rfl (by rw [Table.find_update_key, if_neg hd])
  refine hw.told hget rfl (by rintro _ _ _ _ _ _ ⟨⟩) ?_ rfl rfl (keepsDays_of_update approve_id rfl fun _ => rfl)
  refine (hw.agrees _ a hget).report (by rintro _ _ _ _ _ ⟨⟩) (fun d old hold hdelivered => hother d ?_)
    (fun d hends => hother d fun hd => hends ⟨rfl, hd.symm⟩) (by rintro _ ⟨⟩)
  rintro rfl
  obtain rfl := Option.some.inj (hrow.symm.trans hold)
  rw [hopen] at hdelivered
  cases hdelivered

/-- An update ends the approvals of its account, not the deliveries. -/
theorem update_bounded (hw : w.Tracked env limits) {actor : Principal} {identifier : String} {revision : Nat}
    {value : ConnectionInput} {credentials : Option CredentialUpdate}
    (h : w.perform env (.update actor identifier revision value credentials) = .ok w') :
    w'.Tracked env limits ∧ w.Steady w' := by
  simp only [Desk.perform, Mail.update, bind_eq_ok, ensure_eq_ok, pure_eq_ok] at h
  obtain ⟨store, ⟨a, ha, _, -, secrets, -, rfl⟩, rfl⟩ := h
  have hget := (account_eq_ok.mp ha).1
  have hcreated : ∀ d : DraftRow, d.revoke.created = d.created := by
    intro d
    unfold DraftRow.revoke
    split <;> rfl
  refine hw.told hget rfl (by rintro _ _ _ _ _ _ ⟨⟩) ?_ rfl rfl (keepsDays_of_update revoke_id rfl hcreated)
  refine (hw.agrees _ a hget).report (by rintro _ _ _ _ _ ⟨⟩) (fun d row hrow hdelivered => ⟨rfl, fun old hold => ?_⟩)
    (fun d hends => absurd rfl hends) (by rintro _ ⟨⟩)
  obtain rfl := Option.some.inj (hrow.symm.trans hold)
  have hkeep : row.revoke = row := by
    rw [DraftRow.revoke, if_neg]
    intro hstatus
    rw [hstatus] at hdelivered
    cases hdelivered
  refine ⟨row, ?_, rfl, id, id⟩
  rw [Table.find_update, hrow, Option.map_some, if_pos rfl, hkeep]

theorem claimSend_bounded (hw : w.Tracked env limits) {actor : Principal} {identifier draftId : String} {revision : Nat}
    (h : w.perform env (.claimSend actor identifier draftId revision) = .ok w') : w'.Tracked env limits ∧ w.Steady w' := by
  simp only [Desk.perform, bind_eq_ok, pure_eq_ok, Prod.exists] at h
  obtain ⟨content, store, hclaim, rfl⟩ := h
  obtain ⟨a, row, ha, -, hrow, -, hstatus, -, rfl⟩ := claimSend_writes hclaim
  have hget := (account_eq_ok.mp ha).1
  have hfollows : ∀ d, a.follows { a with
      drafts := a.drafts.update (·.id = draftId) (fun d => { d with status := .sending }) fun _ => rfl } d := by
    refine fun d => ⟨rfl, fun old hold => ?_⟩
    by_cases hd : d = draftId
    · refine ⟨{ old with status := .sending }, ?_, rfl, fun _ => rfl, fun _ => rfl⟩
      rw [Table.find_update_key, if_pos hd, hold, Option.map_some]
    · refine ⟨old, ?_, rfl, id, id⟩
      rw [Table.find_update_key, if_neg hd, hold]
  refine hw.told hget rfl (by rintro _ _ _ _ _ _ ⟨⟩) ?_
    rfl rfl (keepsDays_of_update (f := fun d => { d with status := .sending }) (fun _ => rfl) rfl fun _ => rfl)
  refine (hw.agrees _ a hget).report (by rintro _ _ _ _ _ ⟨⟩) (fun d _ _ _ => hfollows d) (fun d _ => hfollows d) ?_
  rintro d ⟨⟩
  refine ⟨{ row with status := .sending }, ?_, rfl⟩
  rw [Table.find_update_key, if_pos rfl, hrow, Option.map_some]

theorem finishSend_bounded (hw : w.Tracked env limits) {actor : Principal} {identifier draftId : String} {success : Bool}
    (h : w.perform env (.finishSend actor identifier draftId success) = .ok w') : w'.Tracked env limits ∧ w.Steady w' := by
  simp only [Desk.perform, finishSend, bind_eq_ok, pure_eq_ok] at h
  obtain ⟨store, ⟨a, ha, rfl⟩, rfl⟩ := h
  have hget := (account_eq_ok.mp ha).1
  refine hw.quiet hget (fun d => ⟨rfl, fun row hrow => ?_⟩) ?_ rfl (keepsMessages_of_eq rfl)
    (keepsDays_of_update (finish_id success) rfl fun _ => rfl)
  · refine ⟨if (row.id = draftId && row.status = .sending) = true then row.finish success else row, ?_, ?_, ?_, ?_⟩
    · rw [Table.find_update, hrow, Option.map_some]
    · split <;> rfl
    · intro hauthorized
      split
      · cases success <;> rfl
      · exact hauthorized
    · intro hdelivered
      split
      · cases success <;> rfl
      · exact hdelivered
  · have hfiled := hw.filed _ a hget
    exact ⟨hfiled.placed, hfiled.marked, hfiled.settled⟩

theorem under_limits (profile : ResponseProfile) (mode : Option ReplyMode) (sender : String) :
    (profile.under mode sender).dailyLimit = profile.dailyLimit ∧
      (profile.under mode sender).senderDailyLimit = profile.senderDailyLimit ∧
      (profile.under mode sender).oneReplyPerThread = profile.oneReplyPerThread := by
  cases mode <;> exact ⟨rfl, rfl, rfl⟩

theorem Account.shows.counts {d : String} {time : Int} {reading : Reading} (h : a.shows env k d time reading) {action : AutoAction}
    (haction : a.autoActions.find d = some action) : a.counts action = true := by
  obtain ⟨⟨row, hrow, -, hauthorized⟩, -⟩ := h
  rw [Account.counts, Table.key_of_find haction, hrow]
  exact hauthorized

/-- Approvals of the last day that answer one sender are counted. -/
theorem sentToday_of_held (ha : a.Agrees env k w.log) {now : Int} {sender : String} {drafts : List String} (hnodup : drafts.Nodup)
    (h : ∀ d ∈ drafts, ∃ time reading, Held k d w.log time reading ∧ senderDigest env k.2 reading.message = sender ∧
      now - 86400 ≤ time) : drafts.length ≤ a.sentToday now sender := by
  refine Table.length_le_count hnodup fun d hd => ?_
  obtain ⟨time, reading, hheld, rfl, htime⟩ := h d hd
  have hshows := ha.held d time reading hheld
  refine ⟨_, hshows.2, ?_⟩
  simp [htime, hshows.counts hshows.2]

theorem repliedTo_of_held (ha : a.Agrees env k w.log) {d : String} {time : Int} {reading : Reading}
    (hheld : Held k d w.log time reading) :
    a.repliedTo (threadDigest env k.2 reading.message) = true := by
  have hshows := ha.held d time reading hheld
  refine List.any_eq_true.mpr ⟨_, (Table.find_eq_some.mp hshows.2).1, ?_⟩
  simp [hshows.counts hshows.2]

/-- Automatic drafts of the last day that hold an approval are counted. -/
theorem usedToday_of_held (ha : a.Agrees env k w.log) {now : Int} {drafts : List String} (hnodup : drafts.Nodup)
    (h : ∀ d ∈ drafts, ∃ row time reading, a.drafts.find d = some row ∧ now - 86400 ≤ row.created ∧ Held k d w.log time reading) :
    drafts.length ≤ a.usedToday now := by
  refine Table.length_le_count hnodup fun d hd => ?_
  obtain ⟨row, time, reading, hrow, hcreated, hheld⟩ := h d hd
  obtain ⟨⟨row', hrow', hautomatic, hauthorized⟩, -⟩ := ha.held d time reading hheld
  obtain rfl := Option.some.inj (hrow.symm.trans hrow')
  exact ⟨row, hrow, by simp [hautomatic, hauthorized, hcreated]⟩

section Approval

variable {env : Engine} {limits : String × String → ResponseProfile} {w w' : Desk} {k : String × String} {a b : Account}
  {draft : String} {reading : Reading} {profile : ResponseProfile} {content : DraftInput}

theorem held_automatic {k' : String × String} {d : String} {time now : Int} {other : Reading}
    (h : Held k' d (w.log ++ [.automatic k draft now reading profile content]) time other) :
    Held k' d w.log time other ∨ (k' = k ∧ d = draft ∧ time = now ∧ other = reading) := by
  refine (held_snoc h).imp_right ?_
  rintro ⟨profile', content', heq⟩
  cases heq
  exact ⟨rfl, rfl, rfl, rfl⟩

/-- An automatic approval for which the limits left room. -/
theorem Desk.Limited.approve (h : w.Limited env limits) (hw : w.Tracked env limits) (hget : w.store.get k = some a)
    {row : DraftRow} (hrow : a.drafts.find draft = some row) (hstatus : row.status = .draft)
    (haddressed : (ReplyEvent.automatic k draft w.now reading profile content).addressed)
    (hroom : a.usedToday w.now < (limits k).dailyLimit)
    (hsender : ∀ limit, (limits k).senderDailyLimit = some limit →
      a.sentToday w.now (senderDigest env k.2 reading.message) < limit)
    (hthread : (limits k).oneReplyPerThread = true → a.repliedTo (threadDigest env k.2 reading.message) = false)
    (hdays : a.keepsDays b) :
    Desk.Limited env limits { w with
      store := w.store.set k b
      log := w.log ++ [.automatic k draft w.now reading profile content] } := by
  have hagrees := hw.agrees k a hget
  refine ⟨fun e he => ?_, fun k' limit sender hlimit => ?_, fun k' hone d d' time time' r r' hd hd' hsame => ?_,
    fun k' c hc since drafts hnodup hdrafts => ?_⟩
  · rcases List.mem_append.mp he with he | he
    · exact h.addressed e he
    · exact List.mem_singleton.mp he ▸ haddressed
  · by_cases hanswers : k' = k ∧ senderDigest env k.2 reading.message = sender
    · obtain ⟨rfl, rfl⟩ := hanswers
      refine (h.senders k' limit _ hlimit).approve
        (show ∀ d time r, _ → _ ∨ (d = draft ∧ time = w.now) from fun d time r hheld => ?_)
        fun drafts hnodup hdrafts => (sentToday_of_held hagrees hnodup hdrafts).trans_lt (hsender limit hlimit)
      exact (held_automatic hheld).imp_right fun hnew => ⟨hnew.2.1, hnew.2.2.1⟩
    · intro since drafts hnodup hdrafts
      refine h.senders k' limit sender hlimit since drafts hnodup fun d hd => ?_
      obtain ⟨time, r, hheld, hdigest, hrest⟩ := hdrafts d hd
      rcases held_automatic hheld with hheld | ⟨rfl, -, -, rfl⟩
      · exact ⟨time, r, hheld, hdigest, hrest⟩
      · exact absurd ⟨rfl, hdigest⟩ hanswers
  · have hnew : ∀ {d time r}, k' = k → Held k' d w.log time r →
      threadDigest env k'.2 r.message = threadDigest env k'.2 reading.message →
        False := by
      rintro d time r rfl hheld hdigest
      have htaken := repliedTo_of_held hagrees hheld
      rw [hdigest, hthread hone] at htaken
      cases htaken
    rcases held_automatic hd with hbefore | ⟨rfl, rfl, -, rfl⟩
    · rcases held_automatic hd' with hbefore' | ⟨rfl, rfl, -, rfl⟩
      · exact h.threads k' hone d d' time time' r r' hbefore hbefore' hsame
      · exact (hnew rfl hbefore hsame).elim
    · rcases held_automatic hd' with hbefore' | ⟨-, rfl, -, -⟩
      · exact (hnew rfl hbefore' hsame.symm).elim
      · rfl
  · obtain ⟨c', hc', hdays'⟩ := steady_store hget hdays hc
    by_cases hin : k' = k ∧ draft ∈ drafts
    · obtain ⟨rfl, hmem⟩ := hin
      obtain rfl := Option.some.inj (hget.symm.trans hc')
      have hold : ∀ time r, ¬ Held k' draft w.log time r := by
        intro time r hheld
        obtain ⟨⟨x, hx, -, hauthorized⟩, -⟩ := hagrees.held draft time r hheld
        obtain rfl := Option.some.inj (hrow.symm.trans hx)
        rw [hstatus] at hauthorized
        cases hauthorized
      obtain ⟨-, time, r, -, -, hheld, htime⟩ := hdrafts draft hmem
      obtain rfl : time = w.now := (held_automatic hheld).elim (fun hheld => (hold time r hheld).elim) fun hnew => hnew.2.2.1
      have hless : (drafts.erase draft).length ≤ a.usedToday w.now := by
        refine usedToday_of_held hagrees (hnodup.erase draft) fun d hd => ?_
        obtain ⟨hne, hd⟩ := (List.Nodup.mem_erase_iff hnodup).mp hd
        obtain ⟨x', time', r', hx', hcreated, hheld', -⟩ := hdrafts d hd
        have hbefore : Held k' d w.log time' r' := (held_automatic hheld').elim id fun hnew => absurd hnew.2.1 hne
        obtain ⟨⟨x, hx, -, -⟩, -⟩ := hagrees.held d time' r' hbefore
        have hsame := hdays' d x x' hx hx'
        exact ⟨x, time', r', hx, by omega, hbefore⟩
      rw [List.length_erase_of_mem hmem] at hless
      omega
    · refine h.daily k' c' hc' since drafts hnodup fun d hd => ?_
      obtain ⟨x', time', r', hx', hcreated, hheld', htime'⟩ := hdrafts d hd
      rcases held_automatic hheld' with hbefore | ⟨hk, rfl, -, -⟩
      · obtain ⟨⟨x, hx, -, -⟩, -⟩ := (hw.agrees k' c' hc').held d time' r' hbefore
        exact ⟨x, time', r', hx, hdays' d x x' hx hx' ▸ hcreated, hbefore, htime'⟩
      · exact absurd ⟨hk, hd⟩ hin

theorem approveAutomatic_bounded (hw : w.Tracked env limits) (hl : w.Limited env limits) {actor : Principal}
    {identifier draftId : String} {reading : Reading} {mode : Option ReplyMode}
    (h : w.perform env (.approveAutomatic actor identifier draftId reading mode) = .ok w') :
    w'.Tracked env limits ∧ w'.Limited env limits := by
  simp only [Desk.perform, Desk.approveAutomatic, bind_eq_ok, context_eq_ok, ensure_eq_ok, pure_eq_ok, Bool.and_eq_true,
    decide_eq_true_eq] at h
  obtain ⟨a, hget, row, hrow, _, ⟨⟨hread, -⟩, -⟩, store, happrove, rfl⟩ := h
  obtain ⟨a', row', profile, incoming, ha, hrow', hstatus, hautomatic, hprofile, honly, hdaily, hsender, hthread, rfl⟩ :=
    approveAutomatic_writes happrove
  obtain rfl := Option.some.inj (hget.symm.trans (account_eq_ok.mp ha).1)
  obtain rfl := Option.some.inj (hrow.symm.trans hrow')
  obtain rfl : profile = a.replyProfile.under mode reading.message.sender := by
    cases mode with
    | none =>
        rw [Account.replyProfile, show a.profile = some profile from hprofile]
        rfl
    | some mode => exact (Option.some.inj hprofile).symm
  obtain ⟨hday, hsenders, hone⟩ := under_limits a.replyProfile mode reading.message.sender
  rw [hday, hw.profiles _ a hget] at hdaily
  rw [hsenders, hw.profiles _ a hget] at hsender
  rw [hone, hw.profiles _ a hget] at hthread
  have haddressed : (ReplyEvent.automatic (actor.tenant, identifier) draftId w.now reading
      (a.replyProfile.under mode reading.message.sender) row.content).addressed := by
    simp only [repliesOnly, Bool.and_eq_true, decide_eq_true_eq] at honly
    obtain ⟨⟨⟨⟨⟨⟨⟨⟨⟨⟨hmode, -⟩, hallowed⟩, -⟩, -⟩, hto⟩, hcc⟩, hbcc⟩, -⟩, hattachments⟩, -⟩ := honly
    exact ⟨hmode, (hw.read reading hread).1, hallowed, hto, hcc, hbcc, hattachments⟩
  refine ⟨hw.report hget rfl ((hw.agrees _ a hget).approve hrow hstatus hautomatic) rfl rfl, ?_⟩
  exact hl.approve hw hget hrow hstatus haddressed hdaily hsender hthread
    (keepsDays_of_update approve_id rfl fun _ => rfl)

end Approval

theorem perform_bounded (hw : w.Tracked env limits) (hl : w.Limited env limits) {r : ReplyRequest} (h : w.perform env r = .ok w') :
    w'.Tracked env limits ∧ w'.Limited env limits := by
  have hsteady : w'.Tracked env limits ∧ w.Steady w' → w'.Tracked env limits ∧ w'.Limited env limits :=
    fun hs => ⟨hs.1, hl.steady hw hs.2⟩
  cases r with
  | wait seconds =>
      obtain rfl := Except.ok.inj h
      exact ⟨⟨hw.agrees, hw.filed, hw.profiles, hw.read⟩, hl.addressed, hl.senders, hl.threads, hl.daily⟩
  | recordMessage actor identifier folder validity uid m => exact hsteady (recordMessage_bounded hw h)
  | processed actor identifier messageId => exact hsteady (processed_bounded hw h)
  | pending actor identifier => exact hsteady (pending_bounded hw h)
  | message actor identifier messageId => exact hsteady (message_bounded hw h)
  | saveDraft actor identifier issued saving => exact hsteady (saveDraft_bounded hw h)
  | approve actor identifier draftId revision => exact hsteady (approve_bounded hw h)
  | approveAutomatic actor identifier draftId reading mode => exact approveAutomatic_bounded hw hl h
  | update actor identifier revision value credentials => exact hsteady (update_bounded hw h)
  | claimSend actor identifier draftId revision => exact hsteady (claimSend_bounded hw h)
  | finishSend actor identifier draftId success => exact hsteady (finishSend_bounded hw h)

def Desk.profileOf (w : Desk) (k : String × String) : ResponseProfile := ((w.store.get k).map Account.replyProfile).getD .standard

theorem Desk.Fresh.bounded (h : w.Fresh) : w.Tracked env w.profileOf ∧ w.Limited env w.profileOf := by
  obtain ⟨hlog, hread, hmessages⟩ := h
  have hheld : ∀ k d time reading, ¬ Held k d w.log time reading := fun k d time reading => hlog ▸ not_held_nil
  refine ⟨⟨fun k a ha => ⟨fun d time reading hd => absurd hd (hheld k d time reading), fun d time reading hd =>
      absurd (.inl hd) (hheld k d time reading)⟩, fun k a ha => ?_, fun k a ha => ?_, fun r hr => ?_⟩,
    fun e he => ?_, fun k limit sender hlimit since drafts hnodup hdrafts => ?_,
    fun k hone d d' time time' reading reading' hd => absurd hd (hheld k d time reading),
    fun k a ha since drafts hnodup hdrafts => ?_⟩
  · have hrows := hmessages k a ha
    exact ⟨fun m hm => by simp [hrows] at hm, fun m hm => by simp [hrows] at hm, fun m hm => by simp [hrows] at hm⟩
  · rw [Desk.profileOf, ha]
    rfl
  · simp [hread] at hr
  · simp [hlog] at he
  · cases drafts with
    | nil => exact Nat.zero_le limit
    | cons d rest =>
        obtain ⟨time, reading, hd, -⟩ := hdrafts d List.mem_cons_self
        exact absurd hd (hheld k d time reading)
  · cases drafts with
    | nil => exact Nat.zero_le _
    | cons d rest =>
        obtain ⟨row, time, reading, -, -, hd, -⟩ := hdrafts d List.mem_cons_self
        exact absurd hd (hheld k d time reading)

theorem run_bounded (h : w.Fresh) (requests : List ReplyRequest) :
    (run (Desk.step env) w requests).Tracked env w.profileOf ∧ (run (Desk.step env) w requests).Limited env w.profileOf := by
  have hstep : ∀ v r, Desk.Tracked env w.profileOf v ∧ Desk.Limited env w.profileOf v →
      Desk.Tracked env w.profileOf (v.step env r) ∧ Desk.Limited env w.profileOf (v.step env r) := by
    intro v r hv
    rw [Desk.step]
    cases hperform : v.perform env r with
    | error e => exact hv
    | ok v' => exact perform_bounded hv.1 hv.2 hperform
  exact run_invariant_always hstep h.bounded requests

/-- Automatic replies stay within the limits of their account, whatever the
requests: they go to the senders of live messages alone, in a day no more of them
lead to a delivery for one sender than the profile says, no thread gets a second
one where the profile says so, and of the drafts that are first saved and
approved within one day no more than its limit are delivered. -/
theorem replies_within_limits (env : Engine) (start : Desk) (h : start.Fresh) (requests : List ReplyRequest) :
    (∀ e ∈ (run (Desk.step env) start requests).log, e.addressed) ∧ ∀ k,
      (∀ limit sender, (start.profileOf k).senderDailyLimit = some limit →
        AtMost limit (fun d => Leads k d (run (Desk.step env) start requests).log)
          fun reading => env.casefold reading.message.sender = sender) ∧
      ((start.profileOf k).oneReplyPerThread = true → ∀ d d' time time' reading reading',
        Leads k d (run (Desk.step env) start requests).log time reading →
        Leads k d' (run (Desk.step env) start requests).log time' reading' →
        rootOf reading.message = rootOf reading'.message → d = d') ∧
      ∀ a, (run (Desk.step env) start requests).store.get k = some a → ∀ (since : Int) (drafts : List String), drafts.Nodup →
        (∀ d ∈ drafts, ∃ row time reading, a.drafts.find d = some row ∧ since ≤ row.created ∧
          Leads k d (run (Desk.step env) start requests).log time reading ∧ time ≤ since + 86400) →
        drafts.length ≤ (start.profileOf k).dailyLimit := by
  have hlimited : (run (Desk.step env) start requests).Limited env start.profileOf := (run_bounded h requests).2
  refine ⟨hlimited.addressed, fun k => ⟨fun limit sender hlimit since drafts hnodup hdrafts => ?_,
    fun hone d d' time time' reading reading' hd hd' hroot => ?_, fun a ha since drafts hnodup hdrafts => ?_⟩⟩
  · refine hlimited.senders k limit (env.sha256 (k.2 ++ String.singleton (Char.ofNat 0) ++ sender)) hlimit since drafts hnodup
      fun d hd => ?_
    obtain ⟨time, reading, hleads, rfl, hrest⟩ := hdrafts d hd
    exact ⟨time, reading, .inl hleads, rfl, hrest⟩
  · refine hlimited.threads k hone d d' time time' reading reading' (.inl hd) (.inl hd') ?_
    rw [threadDigest, threadDigest, hroot]
  · refine hlimited.daily k a ha since drafts hnodup fun d hd => ?_
    obtain ⟨row, time, reading, hrow, hsince, hleads, htime⟩ := hdrafts d hd
    exact ⟨row, time, reading, hrow, hsince, .inl hleads, htime⟩

def lengthEngine : Engine := { plainEngine with
  uuid5 := fun text =>
    let digits := Nat.toDigits 10 text.length
    String.ofList (List.replicate (32 - digits.length) '0' ++ digits) }

def automaticProfile : ResponseProfile := ⟨none, false, .automatic, ["bob@acme.test"], 1, some 1, true⟩

def staffedBox : MailStore :=
  ⟨[(("acme", "box"), { emptyAccount with profile := some automaticProfile })], List.nodup_singleton _⟩

def question : MailMessage :=
  ⟨false, "", "", "", 0, "<question@acme.test>", "", "bob@acme.test", ["ada@acme.test"], "Hello", "", "Text", "", true, []⟩

def acknowledgement : DraftInput :=
  ⟨none, false, "", "", 0, "", ["bob@acme.test"], [], [], "Hello", "Thanks", "<question@acme.test>", "", []⟩

def answered : List ReplyRequest :=
  [.recordMessage ada "box" "INBOX" 1 1 question, .pending ada "box",
    .saveDraft ada "box" issuedDraft ⟨none, none, acknowledgement, some "reply", true, none⟩]

def received : Reading :=
  (run (Desk.step lengthEngine) ⟨staffedBox, 0, [], []⟩ answered).read.headD ⟨("", ""), "", question⟩

def answeredUnattended : List ReplyRequest :=
  answered ++ [.approveAutomatic ada "box" issuedDraft.draftId received none, .claimSend ada "box" issuedDraft.draftId 1]

theorem staffedBox_fresh : Desk.Fresh ⟨staffedBox, 0, [], []⟩ := by
  refine ⟨rfl, rfl, fun k a ha => ?_⟩
  obtain ⟨r, hr, rfl⟩ := Option.map_eq_some_iff.mp ha
  obtain rfl := List.mem_singleton.mp (Table.find_eq_some.mp hr).1
  rfl

theorem replies_within_limits_unattended :
    (run (Desk.step lengthEngine) ⟨staffedBox, 0, [], []⟩ answeredUnattended).log.length = 3 ∧
    AtMost 1 (fun d => Leads ("acme", "box") d (run (Desk.step lengthEngine) ⟨staffedBox, 0, [], []⟩ answeredUnattended).log)
      fun reading => reading.message.sender = "bob@acme.test" :=
  ⟨by decide +kernel, ((replies_within_limits lengthEngine ⟨staffedBox, 0, [], []⟩ staffedBox_fresh answeredUnattended).2
    ("acme", "box")).1 1 "bob@acme.test" (by decide +kernel)⟩

end Galadril.Mail
