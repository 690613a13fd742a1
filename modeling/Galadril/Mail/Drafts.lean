import Galadril.Mail.Threading

namespace Galadril.Mail

open Lib Lib.Checked

variable (env : Engine)

/-- A draft as it is saved. The identifiers are issued for new drafts. -/
structure Saving where
  draftId : Option String
  revision : Option Nat
  value : DraftInput
  sourceId : Option String
  automatic : Bool
  sourceReference : Option String

structure Issued where
  draftId : String
  deliveryId : String

def withSource (s : MailStore) (actor : Principal) (value : DraftInput) : Except String DraftInput :=
  match value.replySource with
  | none => .ok value
  | some source => do
      let a ← account s actor source.account .read
      let row ← context (a.messages.find source.message) "Message unavailable"
      decodeDraft { value with
        replyToMessageId := row.content.messageId
        references := row.content.references }

def Account.draftReference (a : Account) (draftId : String) (row : Option DraftRow) (value : DraftInput)
    (sourceReference : Option String) : Except String String :=
  let reference := "GDR-" ++ draftId.toUpper
  match row with
  | some row => do
      let previous ← decodeDraft row.content
      return if previous.reference = "" then reference else previous.reference
  | none =>
      match sourceReference.filter (· ≠ "") with
      | some sourceReference => do
          ensure (isReference sourceReference) "Invalid source reference"
          return sourceReference
      | none =>
          if value.reference ≠ "" ∧ value.replyToMessageId ≠ "" then
            let source := a.messages.find (String.ofList ((value.reference.toList.drop 4).map Char.toLower))
            match source.filter fun m => m.content.messageId = value.replyToMessageId with
            | some m => .ok ("GDR-" ++ m.id.toUpper)
            | none => .ok reference
          else .ok reference

def DraftStatus.delivered : DraftStatus → Bool
  | .sending | .sent | .uncertain => true
  | .draft | .approved => false

def sourceTaken (drafts : Table DraftRow.id) (sourceId : Option String) : Bool :=
  sourceId.isSome && drafts.rows.any (·.sourceId = sourceId)

def Account.writeDraft (a : Account) (now : Int) (draftId deliveryId : String) (saving : Saving) (content : DraftInput) :
    Except String Account :=
  match a.drafts.find draftId with
  | some row => do
      ensure (some row.revision = saving.revision && !row.status.delivered) "CONFLICT"
      let next := fun d : DraftRow => { d with
        revision := d.revision + 1
        content
        approved := none
        status := .draft }
      return { a with drafts := a.drafts.update (·.id = draftId) next fun _ => rfl }
  | none => do
      ensure saving.revision.isNone "CONFLICT"
      ensure (!sourceTaken a.drafts saving.sourceId) "UNIQUE constraint failed"
      return { a with
        drafts := a.drafts.insert ⟨draftId, 1, content, .draft, none, deliveryId, saving.sourceId, saving.automatic, now⟩ }

def saveDraft (s : MailStore) (now : Int) (actor : Principal) (identifier : String) (issued : Issued) (saving : Saving) :
    Except String (DraftRow × MailStore) := do
  let draftId := saving.draftId.getD issued.draftId
  let k := (actor.tenant, identifier)
  let a ← account s actor identifier .use
  let value ← withSource s actor saving.value
  ensure (!s.rows.any fun r => r.1.1 = actor.tenant && r.1.2 ≠ identifier && (r.2.drafts.find draftId).isSome) "CONFLICT"
  let row := a.drafts.find draftId
  let reference ← a.draftReference draftId row value saving.sourceReference
  let deliveryId := (row.map DraftRow.deliveryId).getD issued.deliveryId
  let roots := findIdentifiers env value.references
  let root := roots.head?.getD (if value.replyToMessageId = "" then deliveryId else value.replyToMessageId)
  let (binding, a) ← a.threadBinding env k draftId .draft deliveryId root value.subject "" value.replyToMessageId
  let content := { value with
    reference
    threadReference := binding.threadReference
    threadNumber := binding.threadNumber
    threadId := binding.threadId }
  let a ← a.writeDraft now draftId deliveryId saving content
  let saved ← context (a.drafts.find draftId) "Draft unavailable"
  let _ ← decodeDraft saved.content
  return (saved, s.set k a)

def DraftRow.approve (d : DraftRow) : DraftRow :=
  { d with
    approved := some d.revision
    status := .approved }

theorem approve_id (d : DraftRow) : d.approve.id = d.id := rfl

def approve (s : MailStore) (actor : Principal) (identifier draftId : String) (revision : Nat) : Except String MailStore := do
  let a ← account s actor identifier .approve
  ensure ((a.drafts.find draftId).any fun d => d.revision = revision && !d.status.delivered) "CONFLICT"
  return s.set (actor.tenant, identifier) { a with drafts := a.drafts.update (·.id = draftId) DraftRow.approve approve_id }

def claimSend (s : MailStore) (actor : Principal) (identifier draftId : String) (revision : Nat) :
    Except String (DraftInput × MailStore) := do
  let a ← account s actor identifier .send
  ensure a.config.enabled "Connection is disabled"
  let row ← context ((a.drafts.find draftId).filter fun d =>
      d.revision = revision && d.approved = some d.revision && d.status = .approved)
    "Draft requires approval or delivery reconciliation"
  let content ← decodeDraft row.content
  let _ ← (match content.replySource with
    | none => .ok ()
    | some source => do
        let b ← account s actor source.account .read
        ensure (b.messages.find source.message).isSome "Message unavailable")
  return ({ content with
      reference := if content.reference = "" then "GDR-" ++ draftId.toUpper else content.reference },
    s.set (actor.tenant, identifier) { a with
      drafts := a.drafts.update (·.id = draftId) (fun d => { d with status := .sending }) fun _ => rfl })

def DraftRow.finish (success : Bool) (d : DraftRow) : DraftRow :=
  { d with status := if success then .sent else .uncertain }

theorem finish_id (success : Bool) (d : DraftRow) : (d.finish success).id = d.id := rfl

def finishSend (s : MailStore) (actor : Principal) (identifier draftId : String) (success : Bool) : Except String MailStore := do
  let a ← account s actor identifier .send
  return s.set (actor.tenant, identifier) { a with
    drafts := a.drafts.update (fun d => d.id = draftId && d.status = .sending) (DraftRow.finish success) (finish_id success) }

section Saving

variable {env}

structure Saved (a b : Account) (now : Int) (draftId : String) (saving : Saving) (row : DraftRow) : Prop where
  here : b.drafts.find draftId = some row
  others : ∀ d, d ≠ draftId → b.drafts.find d = a.drafts.find d
  status : row.status = .draft
  marked : row.content.reference ≠ ""
  inserted : a.drafts.find draftId = none → b.drafts.rows = a.drafts.rows ++ [row] ∧ sourceTaken a.drafts saving.sourceId = false ∧
    row.created = now ∧ row.automatic = saving.automatic ∧ row.sourceId = saving.sourceId ∧ row.revision = 1
  edited : ∀ old, a.drafts.find draftId = some old → old.status.delivered = false ∧ row.revision = old.revision + 1 ∧
    row.created = old.created ∧ row.automatic = old.automatic ∧ row.sourceId = old.sourceId ∧
    b.drafts.rows = a.drafts.rows.map fun d => if d.id = draftId then row else d
  actions : b.autoActions = a.autoActions
  settings : b.owner = a.owner ∧ b.config = a.config ∧ b.secrets = a.secrets ∧ b.profile = a.profile ∧ b.grants = a.grants
  messages : b.messages = a.messages

theorem draftReference_ne_empty {a : Account} {draftId reference : String} {row : Option DraftRow} {value : DraftInput}
    {sourceReference : Option String} (h : a.draftReference draftId row value sourceReference = .ok reference) :
    reference ≠ "" := by
  have hmark : ∀ text : String, "GDR-" ++ text ≠ "" := by
    intro text htext
    have := congrArg String.length htext
    simp [String.length_append] at this
  simp only [Account.draftReference] at h
  split at h
  · simp only [bind_eq_ok, pure_eq_ok] at h
    obtain ⟨previous, -, rfl⟩ := h
    split
    · exact hmark _
    · assumption
  · split at h
    · simp only [bind_eq_ok, ensure_eq_ok, pure_eq_ok] at h
      obtain ⟨_, hvalid, rfl⟩ := h
      rintro rfl
      exact absurd hvalid (by decide)
    · split at h
      · split at h <;> exact Except.ok.inj h ▸ hmark _
      · exact Except.ok.inj h ▸ hmark _

theorem saveDraft_saved {s t : MailStore} {now : Int} {actor : Principal} {identifier : String} {issued : Issued}
    {saving : Saving} {row : DraftRow} (h : saveDraft env s now actor identifier issued saving = .ok (row, t)) :
    ∃ a b, account s actor identifier .use = .ok a ∧ t = s.set (actor.tenant, identifier) b ∧
      Saved a b now (saving.draftId.getD issued.draftId) saving row := by
  simp only [saveDraft, bind_eq_ok, pure_eq_ok, context_eq_ok, Prod.mk.injEq, Prod.exists] at h
  obtain ⟨a, ha, value, -, _, -, reference, hreference, binding, b, hbinding, c, hwrite, saved, hsaved, _, -, rfl, rfl⟩ := h
  obtain ⟨entries, records, rfl⟩ := threadBinding_frame env hbinding
  have hmarked := draftReference_ne_empty hreference
  refine ⟨a, c, ha, rfl, ?_⟩
  simp only [Account.writeDraft] at hwrite
  split at hwrite
  · next old hold =>
      simp only [bind_eq_ok, ensure_eq_ok, pure_eq_ok, Bool.and_eq_true, Bool.not_eq_true', decide_eq_true_eq] at hwrite
      obtain ⟨_, ⟨-, hopen⟩, rfl⟩ := hwrite
      have hkey : old.id = saving.draftId.getD issued.draftId := Table.key_of_find hold
      have hrow := hsaved
      rw [Table.find_update_key, if_pos rfl, hold, Option.map_some] at hrow
      obtain rfl := Option.some.inj hrow
      refine ⟨hsaved, fun d hd => ?_, rfl, hmarked, fun hnone => ?_, fun old' hold' => ?_, rfl, ⟨rfl, rfl, rfl, rfl, rfl⟩, rfl⟩
      · rw [Table.find_update_key]
        exact if_neg hd
      · cases hnone.symm.trans hold
      · obtain rfl := Option.some.inj (hold.symm.trans hold')
        refine ⟨hopen, rfl, rfl, rfl, rfl, ?_⟩
        refine List.map_congr_left fun d hd => ?_
        by_cases hid : d.id = saving.draftId.getD issued.draftId
        · obtain rfl : d = old := Table.eq_of_key hd (Table.find_eq_some.mp hold).1 (hid.trans hkey.symm)
          simp [hid]
        · simp [hid]
  · next hnone =>
      simp only [bind_eq_ok, ensure_eq_ok, pure_eq_ok, Bool.not_eq_true'] at hwrite
      obtain ⟨_, -, _, htaken, rfl⟩ := hwrite
      have hinsert : ∀ r : DraftRow, r.id = saving.draftId.getD issued.draftId → a.drafts.find r.id = none := by
        rintro r hr
        rwa [hr]
      have hrow := hsaved
      rw [Table.find_insert (hinsert _ rfl), if_pos rfl] at hrow
      obtain rfl := Option.some.inj hrow
      refine ⟨hsaved, fun d hd => ?_, rfl, hmarked, fun _ => ⟨Table.insert_rows (hinsert _ rfl), htaken, rfl, rfl, rfl, rfl⟩,
        fun old hold => ?_, rfl, ⟨rfl, rfl, rfl, rfl, rfl⟩, rfl⟩
      · rw [Table.find_insert (hinsert _ rfl)]
        exact if_neg (Ne.symm hd)
      · cases hold.symm.trans hnone

end Saving

def repliesOnly (profile : ResponseProfile) (config incoming : ConnectionInput) (source : MailMessage) (content : DraftInput) :
    Bool :=
  profile.mode = .automatic && source.replyAllowed && source.sender ∈ profile.allowedSenders &&
    env.casefold source.sender ≠ env.casefold config.address &&
    env.casefold incoming.address ∈ source.recipients.map env.casefold &&
    content.toAddresses = [source.sender] && content.cc = [] && content.bcc = [] &&
    !containsContactAddress env.toUnicode content.body && content.attachments = [] &&
    content.replyToMessageId = source.messageId

def DraftStatus.authorized (status : DraftStatus) : Bool := status ≠ .draft

def Account.counts (a : Account) (action : AutoAction) : Bool :=
  (a.drafts.find action.draft).any fun d => d.status.authorized

def threadDigest (identifier : String) (source : MailMessage) : String :=
  env.sha256 (identifier ++ String.singleton (Char.ofNat 0) ++ rootOf source)

def senderDigest (identifier : String) (source : MailMessage) : String :=
  env.sha256 (identifier ++ String.singleton (Char.ofNat 0) ++ env.casefold source.sender)

def Account.usedToday (a : Account) (now : Int) : Nat :=
  a.drafts.rows.countP fun d => d.automatic && d.status.authorized && now - 86400 ≤ d.created

def Account.sentToday (a : Account) (now : Int) (sender : String) : Nat :=
  a.autoActions.rows.countP fun action => action.sender = sender && now - 86400 ≤ action.created && a.counts action

def Account.repliedTo (a : Account) (thread : String) : Bool :=
  a.autoActions.rows.any fun action => action.thread = thread && a.counts action

def recordAction (actions : Table AutoAction.draft) (action : AutoAction) : Table AutoAction.draft :=
  match actions.find action.draft with
  | some _ => actions.update (·.draft = action.draft) (fun x => { action with draft := x.draft }) fun _ => rfl
  | none => actions.insert action

def approveAutomatic (s : MailStore) (now : Int) (actor : Principal) (identifier draftId : String) (source : MailMessage)
    (policy : Option ResponseProfile) (sourceAccount : Option String) : Except String MailStore := do
  let a ← account s actor identifier .automate
  ensure (a.owner = actor.user) "FORBIDDEN"
  let profile ← context (policy.or a.profile) "FORBIDDEN"
  let draft ← context ((a.drafts.find draftId).filter fun d => d.status = .draft && d.automatic) "Automatic reply unavailable"
  let content ← decodeDraft draft.content
  let incoming ← (match sourceAccount with
    | none => .ok a.config
    | some other => (account s actor other .use).map Account.config)
  ensure (repliesOnly env profile a.config incoming source content) "Automatic reply requires human approval"
  ensure (a.usedToday now < profile.dailyLimit) "Automatic reply daily limit reached"
  let thread := threadDigest env identifier source
  let sender := senderDigest env identifier source
  ensure (profile.senderDailyLimit.all fun limit => a.sentToday now sender < limit) "Configured sender reply limit reached"
  ensure (!(profile.oneReplyPerThread && a.repliedTo thread)) "This conversation already has an automatic acknowledgment"
  return s.set (actor.tenant, identifier) { a with
    autoActions := recordAction a.autoActions ⟨draftId, thread, sender, now⟩
    drafts := a.drafts.update (·.id = draftId) DraftRow.approve approve_id }

end Galadril.Mail
