import Galadril.Lib.Text

namespace Galadril.Mail

open Lib.Text

structure Unicode where
  casefold : String → String
  isSpace : Char → Bool
  isWord : Char → Bool

inductive Right
  | view
  | read
  | use
  | edit
  | delete
  | reveal
  | share
  | send
  | approve
  | automate
deriving DecidableEq

def rights : List Right := [.view, .read, .use, .edit, .delete, .reveal, .share, .send, .approve, .automate]

structure Principal where
  tenant : String
  user : String
deriving DecidableEq

def letterOrDigit (c : Char) : Bool := ('A' ≤ c && c ≤ 'Z') || ('a' ≤ c && c ≤ 'z') || ('0' ≤ c && c ≤ '9')

def addressChar (c : Char) : Bool :=
  letterOrDigit c || c ∈ ['.', '!', '#', '$', '%', '&', '*', '+', '/', '=', '?', '^', '_', '|', '~', '-'] ||
    c.toNat ∈ [39, 96, 123, 125]

def domainChar (c : Char) : Bool := letterOrDigit c || c = '.' || c = '-'

def validateAddress (value : String) : Bool :=
  match splitOnce '@' value.toList with
  | none => false
  | some (mailbox, domain) =>
      mailbox.all addressChar && 1 ≤ mailbox.length && mailbox.length ≤ 64 &&
        domain.all domainChar && domain.length ≤ 253 && domain.head?.any letterOrDigit && domain.getLast?.any letterOrDigit

def containsContactAddress (u : Unicode) (body : String) : Bool :=
  body.toList.tails.any fun
    | before :: '@' :: after :: _ => !u.isSpace before && u.isWord after
    | _ => false

inductive InitialSync
  | new
  | all
deriving DecidableEq

structure ConnectionInput where
  address : String
  imapHost : String
  smtpHost : String
  folders : List String
  enabled : Bool
  ingest : Bool
  initialSync : InitialSync
deriving DecidableEq

def ConnectionInput.configuration (c : ConnectionInput) : String × String × String := (c.imapHost, c.smtpHost, c.address)

inductive Auth
  | password
  | google
  | microsoft
deriving DecidableEq

structure Credentials where
  username : String
  password : String
  auth : Auth
  refreshToken : Option String
  expiresAt : Int
deriving DecidableEq

structure Attachment where
  name : String
  contentType : String
  content : String
deriving DecidableEq

def Attachment.valid (a : Attachment) : Bool :=
  a.name.length ≤ 255 && a.contentType.length ≤ 128 && a.content.length ≤ 16777216

def referenceChar (c : Char) : Bool := ('A' ≤ c && c ≤ 'F') || ('0' ≤ c && c ≤ '9')

/-- The mark of a message in this system, which an unmarked one lacks. -/
def isReference (value : String) : Bool :=
  match stripStart ['G', 'D', 'R', '-'] value.toList with
  | some digits => digits.length = 32 && digits.all referenceChar
  | none => false

structure MailMessage where
  historical : Bool
  inReplyTo : String
  reference : String
  threadReference : String
  threadNumber : Nat
  messageId : String
  threadId : String
  sender : String
  recipients : List String
  subject : String
  date : String
  body : String
  references : String
  replyAllowed : Bool
  attachments : List Attachment
deriving DecidableEq

def MailMessage.valid (m : MailMessage) : Bool :=
  m.inReplyTo.length ≤ 998 && (m.reference = "" || isReference m.reference) && m.threadReference.length ≤ 1050 &&
    m.messageId.length ≤ 998 && m.threadId.length ≤ 998 && m.sender.length ≤ 320 && m.recipients.length ≤ 100 &&
    m.subject.length ≤ 998 && m.date.length ≤ 128 && m.body.length ≤ 1048576 && m.references.length ≤ 8192 &&
    m.attachments.length ≤ 32 && m.attachments.all Attachment.valid

structure ReplySource where
  account : String
  message : String
deriving DecidableEq

structure DraftInput where
  replySource : Option ReplySource
  trackOpens : Bool
  reference : String
  threadReference : String
  threadNumber : Nat
  threadId : String
  toAddresses : List String
  cc : List String
  bcc : List String
  subject : String
  body : String
  replyToMessageId : String
  references : String
  attachments : List Attachment
deriving DecidableEq

def safeHeader (value : String) : Bool := value.toList.all fun c => 32 ≤ c.toNat && c.toNat ≠ 127

def hexadecimal (value : String) : Bool :=
  value.length = 32 && value.toList.all fun c => ('a' ≤ c && c ≤ 'f') || ('0' ≤ c && c ≤ '9')

def DraftInput.valid (d : DraftInput) : Bool :=
  d.replySource.all (fun s => hexadecimal s.account && hexadecimal s.message) &&
    (d.reference = "" || isReference d.reference) && d.threadReference.length ≤ 1050 && d.threadId.length ≤ 998 &&
    1 ≤ d.toAddresses.length && d.toAddresses.length ≤ 20 && d.cc.length ≤ 20 && d.bcc.length ≤ 20 &&
    (d.toAddresses ++ d.cc ++ d.bcc).all validateAddress && 1 ≤ d.subject.length && d.subject.length ≤ 998 &&
    1 ≤ d.body.length && d.body.length ≤ 262144 && d.replyToMessageId.length ≤ 998 && d.references.length ≤ 8192 &&
    d.attachments.length ≤ 16 && d.attachments.all Attachment.valid &&
    [d.subject, d.replyToMessageId, d.references, d.threadReference, d.threadId].all safeHeader

structure ThreadSummary where
  root : String
  messageId : String
  parent : String
  subject : String
  date : String
  sourceKey : String
  model : String
  analysis : String
deriving DecidableEq

def ThreadSummary.valid (s : ThreadSummary) : Bool :=
  s.root.length ≤ 998 && s.messageId.length ≤ 998 && s.parent.length ≤ 998 && s.subject.length ≤ 998 &&
    s.date.length ≤ 128 && s.sourceKey.length ≤ 2048 && s.model.length ≤ 128 && s.analysis.length ≤ 4096

inductive ReplyMode
  | draft
  | approval
  | automatic
deriving DecidableEq

structure PipelineBinding where
  pipelineId : String
  revisionId : String
deriving DecidableEq

structure ResponseProfile where
  pipeline : Option PipelineBinding
  trackOpens : Bool
  mode : ReplyMode
  allowedSenders : List String
  dailyLimit : Nat
  senderDailyLimit : Option Nat
  oneReplyPerThread : Bool
deriving DecidableEq

end Galadril.Mail
