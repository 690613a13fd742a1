import Galadril.Lib.Checked
import Galadril.Lib.Table
import Galadril.Mail.Models

namespace Galadril.Mail

open Lib Lib.Checked

inductive DraftStatus
  | draft
  | approved
  | sending
  | sent
  | uncertain
deriving DecidableEq

structure DraftRow where
  id : String
  revision : Nat
  content : DraftInput
  status : DraftStatus
  approved : Option Nat
  deliveryId : String
  sourceId : Option String
  automatic : Bool
  created : Int

structure AutoAction where
  draft : String
  thread : String
  sender : String
  created : Int

structure MessageRow where
  id : String
  folder : String
  validity : Nat
  uid : Nat
  content : MailMessage
  ingested : Bool
  processed : Bool
  historical : Bool
  created : Int

structure ThreadEntry where
  messageKey : String
  rootKey : String
  number : Nat
  summary : ThreadSummary
  messageRecord : Option String
  draftRecord : Option String

inductive RecordKind
  | message
  | draft
deriving DecidableEq

structure ThreadRecord where
  kind : RecordKind
  recordId : String
  messageKey : String

def ThreadRecord.key (r : ThreadRecord) : RecordKind × String := (r.kind, r.recordId)

structure Cursor where
  folder : String
  validity : Nat
  uid : Nat

structure HistoryBoundary where
  folder : String
  validity : Nat
  uid : Nat

def HistoryBoundary.key (b : HistoryBoundary) : String × Nat := (b.folder, b.validity)

structure ReplyDecision where
  pipeline : String
  revision : String
  message : String
  decisionId : String
  notRequired : Bool
  draft : Option String

def ReplyDecision.key (d : ReplyDecision) : String × String × String := (d.pipeline, d.revision, d.message)

structure Account where
  owner : String
  revision : Nat
  config : ConnectionInput
  secrets : Credentials
  profile : Option ResponseProfile
  grants : Entries String (List Right)
  drafts : Table DraftRow.id
  autoActions : Table AutoAction.draft
  messages : Table MessageRow.id
  threadEntries : Table ThreadEntry.messageKey
  threadRecords : Table ThreadRecord.key
  cursors : Table Cursor.folder
  historyBoundaries : Table HistoryBoundary.key
  replyDecisions : Table ReplyDecision.key

abbrev MailStore := Entries (String × String) Account

def Account.rightsOf (a : Account) (user : String) : List Right :=
  if a.owner = user then rights
  else
    match a.grants.get user with
    | none => []
    | some granted =>
        let held := rights.filter (· ∈ granted)
        if held ≠ [] ∧ Right.view ∉ held then .view :: held else held

def account (s : MailStore) (actor : Principal) (identifier : String) (right : Right) : Except String Account := do
  let a ← context (s.get (actor.tenant, identifier)) "FORBIDDEN"
  ensure (right ∈ a.rightsOf actor.user) "FORBIDDEN"
  return a

/-- What is read back is checked against its contract. -/
def decodeDraft (content : DraftInput) : Except String DraftInput := do
  ensure content.valid "validation error"
  return content

theorem account_eq_ok {s : MailStore} {actor : Principal} {identifier : String} {right : Right} {a : Account} :
    account s actor identifier right = .ok a ↔
      s.get (actor.tenant, identifier) = some a ∧ right ∈ a.rightsOf actor.user := by
  simp only [account, bind_eq_ok, context_eq_ok, ensure_eq_ok, pure_eq_ok, decide_eq_true_eq]
  constructor
  · rintro ⟨b, hb, _, hright, rfl⟩
    exact ⟨hb, hright⟩
  · rintro ⟨ha, hright⟩
    exact ⟨a, ha, (), hright, rfl⟩

theorem decodeDraft_eq_ok {content d : DraftInput} : decodeDraft content = .ok d ↔ content.valid = true ∧ content = d := by
  simp only [decodeDraft, bind_eq_ok, ensure_eq_ok, pure_eq_ok, exists_const]

inductive CredentialUpdate
  | credentials (credentials : Credentials)
  | passwordReplacement (password : String)

def Account.replacement (a : Account) (value : ConnectionInput) : Option CredentialUpdate → Except String Credentials
  | some (.credentials credentials) => .ok credentials
  | some (.passwordReplacement password) => do
      ensure (a.config.configuration = value.configuration)
        "Supply a replacement login when changing servers or identity"
      ensure (a.secrets.auth = .password) "Reconnect the OAuth provider instead of replacing its token"
      return { a.secrets with password }
  | none => do
      ensure (a.config.configuration = value.configuration)
        "Supply replacement credentials when changing servers or identity"
      return a.secrets

def DraftRow.revoke (d : DraftRow) : DraftRow :=
  if d.status = .approved then
    { d with
      approved := none
      status := .draft }
  else d

theorem revoke_id (d : DraftRow) : d.revoke.id = d.id := by
  unfold DraftRow.revoke
  split <;> rfl

def update (s : MailStore) (actor : Principal) (identifier : String) (revision : Nat) (value : ConnectionInput)
    (credentials : Option CredentialUpdate) : Except String MailStore := do
  let a ← account s actor identifier .edit
  ensure (a.revision = revision) "CONFLICT"
  let reset := a.config.initialSync = .new ∧ value.initialSync = .all
  let secrets ← a.replacement value credentials
  return s.set (actor.tenant, identifier) { a with
    revision := a.revision + 1
    config := value
    secrets
    cursors := if reset then .empty else a.cursors
    historyBoundaries := if reset then .empty else a.historyBoundaries
    drafts := a.drafts.update (fun _ => true) DraftRow.revoke revoke_id }

def delete (s : MailStore) (actor : Principal) (identifier : String) (revision : Nat) : Except String MailStore := do
  let a ← account s actor identifier .delete
  ensure (a.revision = revision) "CONFLICT"
  return s.remove (actor.tenant, identifier)

def connection (s : MailStore) (actor : Principal) (identifier : String) (right : Right) :
    Except String (ConnectionInput × Credentials) := do
  let a ← account s actor identifier right
  return (a.config, a.secrets)

def rotate (s : MailStore) (actor : Principal) (identifier : String) (credentials : Credentials) : Except String MailStore := do
  let a ← account s actor identifier .use
  return s.set (actor.tenant, identifier) { a with secrets := credentials }

end Galadril.Mail
