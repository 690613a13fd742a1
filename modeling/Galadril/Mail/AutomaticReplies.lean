import Galadril.Mail.Delivery
import Galadril.Mail.Messages

namespace Galadril.Mail

open Lib Lib.Checked Lib.Transitions

structure Reading where
  mailbox : String × String
  id : String
  message : MailMessage
deriving DecidableEq

inductive ReplyEvent
  | automatic (k : String × String) (draft : String) (time : Int) (reading : Reading) (profile : ResponseProfile)
      (content : DraftInput)
  | approved (k : String × String) (draft : String)
  | saved (k : String × String) (draft : String)
  | updated (k : String × String)
  | claimed (k : String × String) (draft : String)

structure Desk where
  store : MailStore
  now : Int
  read : List Reading
  log : List ReplyEvent

inductive ReplyRequest
  | wait (seconds : Nat)
  | recordMessage (actor : Principal) (identifier folder : String) (validity uid : Nat) (m : MailMessage)
  | processed (actor : Principal) (identifier messageId : String)
  | pending (actor : Principal) (identifier : String)
  | message (actor : Principal) (identifier messageId : String)
  | saveDraft (actor : Principal) (identifier : String) (issued : Issued) (saving : Saving)
  | approve (actor : Principal) (identifier draftId : String) (revision : Nat)
  | approveAutomatic (actor : Principal) (identifier draftId : String) (reading : Reading) (mode : Option ReplyMode)
  | update (actor : Principal) (identifier : String) (revision : Nat) (value : ConnectionInput)
      (credentials : Option CredentialUpdate)
  | claimSend (actor : Principal) (identifier draftId : String) (revision : Nat)
  | finishSend (actor : Principal) (identifier draftId : String) (success : Bool)

def ResponseProfile.standard : ResponseProfile := ⟨none, false, .draft, [], 10, none, false⟩

def Account.replyProfile (a : Account) : ResponseProfile := a.profile.getD .standard

def ResponseProfile.under (profile : ResponseProfile) (mode : Option ReplyMode) (sender : String) : ResponseProfile :=
  match mode with
  | some mode => { profile with
      mode
      allowedSenders := [sender] }
  | none => profile

variable (env : Engine)

/-- The automatic approval as the collection and the pipelines ask for it. The
collection answers the mail of its own account under the saved profile, a
pipeline may put a policy in its place. -/
def Desk.approveAutomatic (w : Desk) (actor : Principal) (identifier draftId : String) (reading : Reading)
    (mode : Option ReplyMode) :
    Except String Desk := do
  let k := (actor.tenant, identifier)
  let a ← context (w.store.get k) "FORBIDDEN"
  let row ← context (a.drafts.find draftId) "Automatic reply unavailable"
  ensure (reading ∈ w.read && reading.mailbox.1 = actor.tenant && (mode.isSome || reading.mailbox = k)) "FORBIDDEN"
  let profile := a.replyProfile.under mode reading.message.sender
  let store ← Mail.approveAutomatic env w.store w.now actor identifier draftId reading.message
    (mode.map fun _ => profile) (mode.map fun _ => reading.mailbox.2)
  return { w with
    store
    log := w.log ++ [.automatic k draftId w.now reading profile row.content] }

def Desk.perform (w : Desk) : ReplyRequest → Except String Desk
  | .wait seconds => .ok { w with now := w.now + seconds }
  | .recordMessage actor identifier folder validity uid m => do
      let (_, store) ← Mail.recordMessage env w.store w.now actor identifier folder validity uid m
      return { w with store }
  | .processed actor identifier messageId => do
      let store ← Mail.processed w.store actor identifier messageId
      return { w with store }
  | .pending actor identifier => do
      let found ← Mail.pending w.store actor identifier
      return { w with read := w.read ++ found.map fun r => ⟨(actor.tenant, identifier), r.1, r.2⟩ }
  | .message actor identifier messageId => do
      let m ← Mail.message w.store actor identifier messageId .read
      -- a pipeline answers live messages only
      ensure (!m.historical) "historical_message"
      return { w with read := w.read ++ [⟨(actor.tenant, identifier), messageId, m⟩] }
  | .saveDraft actor identifier issued saving => do
      let (row, store) ← Mail.saveDraft env w.store w.now actor identifier issued saving
      return { w with
        store
        log := w.log ++ [.saved (actor.tenant, identifier) row.id] }
  | .approve actor identifier draftId revision => do
      let store ← Mail.approve w.store actor identifier draftId revision
      return { w with
        store
        log := w.log ++ [.approved (actor.tenant, identifier) draftId] }
  | .approveAutomatic actor identifier draftId reading mode => w.approveAutomatic env actor identifier draftId reading mode
  | .update actor identifier revision value credentials => do
      let store ← Mail.update w.store actor identifier revision value credentials
      return { w with
        store
        log := w.log ++ [.updated (actor.tenant, identifier)] }
  | .claimSend actor identifier draftId revision => do
      let (_, store) ← Mail.claimSend w.store actor identifier draftId revision
      return { w with
        store
        log := w.log ++ [.claimed (actor.tenant, identifier) draftId] }
  | .finishSend actor identifier draftId success => do
      let store ← Mail.finishSend w.store actor identifier draftId success
      return { w with store }

def Desk.step (w : Desk) (r : ReplyRequest) : Desk :=
  match w.perform env r with
  | .ok w' => w'
  | .error _ => w

def Desk.Fresh (w : Desk) : Prop :=
  w.log = [] ∧ w.read = [] ∧ ∀ k a, w.store.get k = some a → a.messages.rows = []

section Approvals

variable (k : String × String) (draft : String)

def ReplyEvent.ends : ReplyEvent → Prop
  | .automatic k' d _ _ _ _ | .approved k' d | .saved k' d => k' = k ∧ d = draft
  | .updated k' => k' = k
  | .claimed _ _ => False

def Standing (log : List ReplyEvent) (time : Int) (reading : Reading) : Prop :=
  ∃ before profile content after, log = before ++ .automatic k draft time reading profile content :: after ∧
    ∀ e ∈ after, ¬ e.ends k draft

def Leads (log : List ReplyEvent) (time : Int) (reading : Reading) : Prop :=
  ∃ before after, log = before ++ .claimed k draft :: after ∧ Standing k draft before time reading

def Held (log : List ReplyEvent) (time : Int) (reading : Reading) : Prop :=
  Leads k draft log time reading ∨ Standing k draft log time reading

variable {k draft} {log : List ReplyEvent} {e : ReplyEvent} {time : Int} {reading : Reading}

theorem standing_snoc (h : Standing k draft (log ++ [e]) time reading) :
    (Standing k draft log time reading ∧ ¬ e.ends k draft) ∨
      ∃ profile content, e = .automatic k draft time reading profile content := by
  obtain ⟨before, profile, content, after, heq, hafter⟩ := h
  rcases List.eq_nil_or_concat after with rfl | ⟨front, last, rfl⟩
  · obtain ⟨-, hlast⟩ := List.append_inj' heq rfl
    exact .inr ⟨profile, content, List.singleton_inj.mp hlast⟩
  · rw [List.concat_eq_append, ← List.cons_append, ← List.append_assoc] at heq
    obtain ⟨rfl, hlast⟩ := List.append_inj' heq rfl
    obtain rfl := List.singleton_inj.mp hlast
    rw [List.concat_eq_append] at hafter
    exact .inl ⟨⟨before, profile, content, front, rfl, fun x hx => hafter x (List.mem_append_left _ hx)⟩,
      hafter e (List.mem_append_right _ (List.mem_singleton_self e))⟩

theorem leads_snoc (h : Leads k draft (log ++ [e]) time reading) :
    Leads k draft log time reading ∨ (e = .claimed k draft ∧ Standing k draft log time reading) := by
  obtain ⟨before, after, heq, hstanding⟩ := h
  rcases List.eq_nil_or_concat after with rfl | ⟨front, last, rfl⟩
  · obtain ⟨rfl, hlast⟩ := List.append_inj' heq rfl
    exact .inr ⟨List.singleton_inj.mp hlast, hstanding⟩
  · rw [List.concat_eq_append, ← List.cons_append, ← List.append_assoc] at heq
    obtain ⟨rfl, -⟩ := List.append_inj' heq rfl
    exact .inl ⟨before, front, rfl, hstanding⟩

/-- What is held after an event was held before it, an automatic approval apart. -/
theorem held_snoc (h : Held k draft (log ++ [e]) time reading) :
    Held k draft log time reading ∨ ∃ profile content, e = .automatic k draft time reading profile content := by
  rcases h with h | h
  · rcases leads_snoc h with h | ⟨-, h⟩
    · exact .inl (.inl h)
    · exact .inl (.inr h)
  · exact (standing_snoc h).imp_left fun h => .inr h.1

theorem not_held_nil : ¬ Held k draft [] time reading := by
  rintro (⟨before, after, heq, -⟩ | ⟨before, profile, content, after, heq, -⟩)
  · cases List.append_ne_nil_of_right_ne_nil before (List.cons_ne_nil _ _) heq.symm
  · cases List.append_ne_nil_of_right_ne_nil before (List.cons_ne_nil _ _) heq.symm

end Approvals

/-- In every window of a day at most so many drafts have an approval of a kind
that answers such a message. -/
def AtMost (limit : Nat) (approval : String → Int → Reading → Prop) (answers : Reading → Prop) : Prop :=
  ∀ (since : Int) (drafts : List String), drafts.Nodup →
    (∀ d ∈ drafts, ∃ time reading, approval d time reading ∧ answers reading ∧ since ≤ time ∧ time ≤ since + 86400) →
    drafts.length ≤ limit

theorem AtMost.mono {limit : Nat} {approval other : String → Int → Reading → Prop} {answers : Reading → Prop}
    (h : AtMost limit approval answers) (hsub : ∀ d time reading, other d time reading → approval d time reading) :
    AtMost limit other answers := by
  intro since drafts hnodup hdrafts
  refine h since drafts hnodup fun d hd => ?_
  obtain ⟨time, reading, hother, hrest⟩ := hdrafts d hd
  exact ⟨time, reading, hsub d time reading hother, hrest⟩

/-- A further approval keeps the limit when the last day leaves room for it. -/
theorem AtMost.approve {limit : Nat} {approval other : String → Int → Reading → Prop} {answers : Reading → Prop} {draft : String}
    {now : Int} (h : AtMost limit approval answers)
    (hother : ∀ d time reading, other d time reading → approval d time reading ∨ (d = draft ∧ time = now))
    (hroom : ∀ drafts : List String, drafts.Nodup →
      (∀ d ∈ drafts, ∃ time reading, approval d time reading ∧ answers reading ∧ now - 86400 ≤ time) →
      drafts.length < limit) : AtMost limit other answers := by
  intro since drafts hnodup hdrafts
  by_cases hin : draft ∈ drafts ∧ since ≤ now ∧ now ≤ since + 86400
  · obtain ⟨hmem, hsince, huntil⟩ := hin
    have hless : (drafts.erase draft).length < limit := by
      refine hroom _ (hnodup.erase draft) fun d hd => ?_
      obtain ⟨hne, hd⟩ := (List.Nodup.mem_erase_iff hnodup).mp hd
      obtain ⟨time, reading, happroval, hanswers, hlow, -⟩ := hdrafts d hd
      rcases hother d time reading happroval with hold | ⟨rfl, -⟩
      · exact ⟨time, reading, hold, hanswers, by omega⟩
      · exact absurd rfl hne
    rw [List.length_erase_of_mem hmem] at hless
    omega
  · refine h since drafts hnodup fun d hd => ?_
    obtain ⟨time, reading, happroval, hanswers, hlow, hhigh⟩ := hdrafts d hd
    rcases hother d time reading happroval with hold | ⟨rfl, rfl⟩
    · exact ⟨time, reading, hold, hanswers, hlow, hhigh⟩
    · exact absurd ⟨hd, hlow, hhigh⟩ hin

section Agreement

def Account.shows (env : Engine) (k : String × String) (a : Account) (draft : String) (time : Int) (reading : Reading) : Prop :=
  (∃ row, a.drafts.find draft = some row ∧ row.automatic = true ∧ row.status.authorized = true) ∧
    a.autoActions.find draft =
      some ⟨draft, threadDigest env k.2 reading.message, senderDigest env k.2 reading.message, time⟩

structure Account.Agrees (env : Engine) (k : String × String) (log : List ReplyEvent) (a : Account) : Prop where
  held : ∀ draft time reading, Held k draft log time reading → a.shows env k draft time reading
  led : ∀ draft time reading, Leads k draft log time reading →
    ∃ row, a.drafts.find draft = some row ∧ row.status.delivered = true

def Account.follows (a b : Account) (draft : String) : Prop :=
  b.autoActions.find draft = a.autoActions.find draft ∧
    ∀ row, a.drafts.find draft = some row → ∃ row', b.drafts.find draft = some row' ∧ row'.automatic = row.automatic ∧
      (row.status.authorized = true → row'.status.authorized = true) ∧
      (row.status.delivered = true → row'.status.delivered = true)

variable {env : Engine} {k : String × String} {a b : Account} {log : List ReplyEvent} {e : ReplyEvent}

theorem follows_of_eq {draft : String} (hactions : b.autoActions = a.autoActions)
    (hdrafts : b.drafts.find draft = a.drafts.find draft) : a.follows b draft :=
  ⟨by rw [hactions], fun row hrow => ⟨row, hdrafts.trans hrow, rfl, id, id⟩⟩

theorem Account.shows.follow {draft : String} {time : Int} {reading : Reading} (h : a.shows env k draft time reading)
    (hf : a.follows b draft) : b.shows env k draft time reading := by
  obtain ⟨⟨row, hrow, hautomatic, hauthorized⟩, haction⟩ := h
  obtain ⟨row', hrow', hautomatic', hauthorized', -⟩ := hf.2 row hrow
  exact ⟨⟨row', hrow', hautomatic'.trans hautomatic, hauthorized' hauthorized⟩, hf.1.trans haction⟩

/-- A step of an account that reports an event on it, an automatic approval
apart. -/
theorem Account.Agrees.report (h : a.Agrees env k log)
    (hplain : ∀ draft time reading profile content, e ≠ .automatic k draft time reading profile content)
    (hdelivered : ∀ draft row, a.drafts.find draft = some row → row.status.delivered = true → a.follows b draft)
    (hopen : ∀ draft, ¬ e.ends k draft → a.follows b draft)
    (hclaim : ∀ draft, e = .claimed k draft → ∃ row, b.drafts.find draft = some row ∧ row.status.delivered = true) :
    b.Agrees env k (log ++ [e]) where
  held draft time reading hheld := by
    have hled : Leads k draft log time reading → b.shows env k draft time reading := by
      intro hl
      obtain ⟨row, hrow, hd⟩ := h.led draft time reading hl
      exact (h.held draft time reading (.inl hl)).follow (hdelivered draft row hrow hd)
    rcases hheld with hl | hs
    · rcases leads_snoc hl with hl | ⟨he, hs⟩
      · exact hled hl
      · refine (h.held draft time reading (.inr hs)).follow (hopen draft ?_)
        rw [he]
        exact id
    · rcases standing_snoc hs with ⟨hs, hends⟩ | ⟨profile, content, he⟩
      · exact (h.held draft time reading (.inr hs)).follow (hopen draft hends)
      · exact absurd he (hplain draft time reading profile content)
  led draft time reading hl := by
    rcases leads_snoc hl with hl | ⟨he, -⟩
    · obtain ⟨row, hrow, hd⟩ := h.led draft time reading hl
      obtain ⟨row', hrow', -, -, hd'⟩ := (hdelivered draft row hrow hd).2 row hrow
      exact ⟨row', hrow', hd' hd⟩
    · exact hclaim draft he

/-- A step of an account that reports nothing. -/
theorem Account.Agrees.silent (h : a.Agrees env k log) (hf : ∀ draft, a.follows b draft) : b.Agrees env k log where
  held draft time reading hheld := (h.held draft time reading hheld).follow (hf draft)
  led draft time reading hl := by
    obtain ⟨row, hrow, hd⟩ := h.led draft time reading hl
    obtain ⟨row', hrow', -, -, hd'⟩ := (hf draft).2 row hrow
    exact ⟨row', hrow', hd' hd⟩

def ReplyEvent.mailbox : ReplyEvent → String × String
  | .automatic k _ _ _ _ _ | .approved k _ | .saved k _ | .updated k | .claimed k _ => k

theorem Account.Agrees.other (h : a.Agrees env k log) (he : e.mailbox ≠ k) : a.Agrees env k (log ++ [e]) where
  held draft time reading hheld := by
    rcases held_snoc hheld with hheld | ⟨profile, content, rfl⟩
    · exact h.held draft time reading hheld
    · exact absurd rfl he
  led draft time reading hl := by
    rcases leads_snoc hl with hl | ⟨rfl, -⟩
    · exact h.led draft time reading hl
    · exact absurd rfl he

theorem Account.Agrees.approve (h : a.Agrees env k log) {draft : String} {row : DraftRow} {now : Int} {reading : Reading}
    {profile : ResponseProfile} {content : DraftInput} (hrow : a.drafts.find draft = some row) (hstatus : row.status = .draft)
    (hautomatic : row.automatic = true) :
    ({ a with
      autoActions := recordAction a.autoActions
        ⟨draft, threadDigest env k.2 reading.message, senderDigest env k.2 reading.message, now⟩
      drafts := a.drafts.update (·.id = draft) DraftRow.approve approve_id } : Account).Agrees env k
        (log ++ [.automatic k draft now reading profile content]) := by
  have hfind : ∀ action : AutoAction, (recordAction a.autoActions action).find action.draft = some action := by
    intro action
    unfold recordAction
    split
    · next x hx =>
        rw [Table.find_update_key, if_pos rfl, hx, Option.map_some, Table.key_of_find hx]
    · next hnone => rw [Table.find_insert hnone, if_pos rfl]
  have hother : ∀ (action : AutoAction) d, d ≠ action.draft →
    (recordAction a.autoActions action).find d = a.autoActions.find d := by
    intro action d hd
    unfold recordAction
    split
    · rw [Table.find_update_key, if_neg hd]
    · next hnone => rw [Table.find_insert hnone, if_neg (Ne.symm hd)]
  have hfollows : ∀ d, d ≠ draft → a.follows { a with
      autoActions := recordAction a.autoActions
        ⟨draft, threadDigest env k.2 reading.message, senderDigest env k.2 reading.message, now⟩
      drafts := a.drafts.update (·.id = draft) DraftRow.approve approve_id } d := by
    intro d hd
    refine ⟨hother _ d hd, fun x hx => ⟨x, ?_, rfl, id, id⟩⟩
    rw [Table.find_update_key, if_neg hd, hx]
  have hnone : ∀ time reading, ¬ Leads k draft log time reading := by
    intro time reading hl
    obtain ⟨x, hx, hd⟩ := h.led draft time reading hl
    obtain rfl := Option.some.inj (hrow.symm.trans hx)
    rw [hstatus] at hd
    cases hd
  refine ⟨fun d time r hheld => ?_, fun d time r hl => ?_⟩
  · by_cases hd : d = draft
    · subst hd
      rcases hheld with hl | hs
      · rcases leads_snoc hl with hl | ⟨he, -⟩
        · exact absurd hl (hnone time r)
        · cases he
      · rcases standing_snoc hs with ⟨-, hends⟩ | ⟨profile', content', he⟩
        · exact absurd ⟨rfl, rfl⟩ hends
        · cases he
          refine ⟨⟨row.approve, ?_, hautomatic, rfl⟩, hfind _⟩
          rw [Table.find_update_key, if_pos rfl, hrow, Option.map_some]
    · rcases held_snoc hheld with hheld | ⟨profile', content', he⟩
      · exact (h.held d time r hheld).follow (hfollows d hd)
      · cases he
        exact absurd rfl hd
  · rcases leads_snoc hl with hold | ⟨he, -⟩
    · have hd : d ≠ draft := by
        rintro rfl
        exact hnone time r hold
      obtain ⟨x, hx, hdelivered⟩ := h.led d time r hold
      obtain ⟨x', hx', -, -, hdelivered'⟩ := (hfollows d hd).2 x hx
      exact ⟨x', hx', hdelivered' hdelivered⟩
    · cases he

end Agreement

end Galadril.Mail
