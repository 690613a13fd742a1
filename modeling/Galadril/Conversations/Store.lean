import Galadril.Lib.Checked
import Galadril.Lib.Table

namespace Galadril.Conversations

open Lib Lib.Checked

inductive AttachmentKind
  | image
  | audio
  | document
deriving DecidableEq

inductive MessageRole
  | user
  | assistant
  | system
deriving DecidableEq

inductive MessageStatus
  | pending
  | completed
  | failed
deriving DecidableEq

inductive EventKind
  | content
  | completed
  | failed
deriving DecidableEq

structure EvidenceSource where
  resourceType : String
  resourceId : String
  manage : Bool
  entityId : Option String
  modality : Option String
  stateType : Option String
deriving DecidableEq

structure MessageAttachment where
  objectKey : String
  kind : AttachmentKind
  fileName : Option String
  contentType : Option String
  sizeBytes : Option Int
deriving DecidableEq

structure NewConversationMessage where
  messageId : String
  role : MessageRole
  content : String
  modelAlias : Option String
  status : MessageStatus
  createdBy : String
  attachments : List MessageAttachment

structure ConversationMessage where
  messageId : String
  role : MessageRole
  content : String
  modelAlias : Option String
  status : MessageStatus
  revision : Nat
  createdBy : String
  attachments : List MessageAttachment
  createdAt : Int
  updatedAt : Int
  deletedAt : Option Int
  evidence : Option (List EvidenceSource)

structure GenerationEvent where
  sequence : Nat
  kind : EventKind
  content : String

/-- The value of an id in a column of 32 characters, where blanks at the end mean
nothing. -/
def column (id : String) : String := String.ofList (id.toList.rdropWhile (· = ' '))

def padded (id : String) : String := id ++ String.ofList (List.replicate (32 - id.length) ' ')

structure ConversationRow where
  ownerId : String
  title : String
  revision : Nat
  activeGenerationId : Option String
  createdAt : Int
  updatedAt : Int
  deletedAt : Option Int

structure MessageRow where
  messageId : String
  role : MessageRole
  content : String
  modelAlias : Option String
  status : MessageStatus
  revision : Nat
  createdBy : String
  createdAt : Int
  updatedAt : Int
  deletedAt : Option Int
  generationSequence : Nat
  evidenceSources : List EvidenceSource
  sourceGenerationId : Option String

structure RevisionRow where
  messageId : String
  revision : Nat
  content : String
  status : MessageStatus
  attachments : List MessageAttachment
  deletedAt : Option Int
  changedBy : String

structure AttachmentRow where
  messageId : String
  attachment : MessageAttachment

structure EventRow where
  generationId : String
  sequence : Nat
  kind : EventKind
  content : String

def RevisionRow.key (r : RevisionRow) : String × Nat := (r.messageId, r.revision)

def AttachmentRow.key (r : AttachmentRow) : String × String := (r.messageId, r.attachment.objectKey)

def EventRow.key (r : EventRow) : String × Nat := (r.generationId, r.sequence)

def NewConversationMessage.row (message : NewConversationMessage) (now : Int) : MessageRow where
  messageId := message.messageId
  role := message.role
  content := message.content
  modelAlias := message.modelAlias
  status := message.status
  revision := 1
  createdBy := message.createdBy
  createdAt := now
  updatedAt := now
  deletedAt := none
  generationSequence := 0
  evidenceSources := []
  sourceGenerationId := none

def MessageRow.revisionRow (m : MessageRow) (attachments : List MessageAttachment) (changedBy : String) : RevisionRow where
  messageId := m.messageId
  revision := m.revision
  content := m.content
  status := m.status
  attachments := attachments
  deletedAt := m.deletedAt
  changedBy := changedBy

structure Tables where
  conversation : ConversationRow
  messages : Table MessageRow.messageId
  revisions : Table RevisionRow.key
  attachments : Table AttachmentRow.key
  events : Table EventRow.key

structure Conversation where
  row : ConversationRow
  messages : List ConversationMessage

def insertRow {ρ κ : Type} [DecidableEq κ] {key : ρ → κ} (t : Table key) (r : ρ) : Except String (Table key) := do
  ensure (t.find (key r)).isNone "duplicate key value violates unique constraint"
  return t.insert r

theorem insertRow_eq_ok {ρ κ : Type} [DecidableEq κ] {key : ρ → κ} {t u : Table key} {r : ρ} :
    insertRow t r = .ok u ↔ t.find (key r) = none ∧ t.insert r = u := by
  simp only [insertRow, bind_eq_ok, ensure_eq_ok, Option.isNone_iff_eq_none, pure_eq_ok, exists_const]

theorem insertRow_rows {ρ κ : Type} [DecidableEq κ] {key : ρ → κ} {t u : Table key} {r : ρ} (h : insertRow t r = .ok u) :
    u.rows = t.rows ++ [r] := by
  obtain ⟨hnone, rfl⟩ := insertRow_eq_ok.mp h
  exact Table.insert_rows hnone

namespace Tables

variable (t : Tables)

def revisionsOf (messageId : String) : List RevisionRow := t.revisions.rows.filter (·.messageId = messageId)

def attachmentsOf (messageId : String) : List MessageAttachment :=
  ((t.attachments.rows.filter (·.messageId = messageId)).map (·.attachment)).insertionSort (·.objectKey ≤ ·.objectKey)

def eventsOf (generationId : String) : List EventRow := t.events.rows.filter (·.generationId = generationId)

def touch (now : Int) : Tables :=
  { t with conversation := { t.conversation with
      revision := t.conversation.revision + 1
      updatedAt := now } }

def updateRow (messageId : String) (conditions : MessageRow → Bool) (f : MessageRow → MessageRow)
    (hf : ∀ m, (f m).messageId = m.messageId) (e : String) : Except String Tables := do
  ensure ((t.messages.find messageId).any conditions) e
  return { t with messages := t.messages.update (fun m => m.messageId = messageId && conditions m) f hf }

def appendEvent (generationId : String) (kind : EventKind) (content : String) : Except String Tables := do
  ensure (t.conversation.activeGenerationId = some generationId) "Generation is no longer active"
  let generation ← context (t.messages.find generationId) "no rows returned"
  let t ← t.updateRow generationId (fun m => m.generationSequence + 1 ≤ 4096)
    (fun m => { m with generationSequence := m.generationSequence + 1 }) (fun _ => rfl)
    "violates check constraint"
  ensure (content.utf8ByteSize ≤ 65536) "violates check constraint"
  let events ← insertRow t.events ⟨generationId, generation.generationSequence + 1, kind, content⟩
  return { t with events }

def insertAttachment (messageId : String) (t : Tables) (attachment : MessageAttachment) : Except String Tables := do
  ensure (attachment.objectKey != "" && attachment.sizeBytes.all (0 ≤ ·)) "Failed to persist conversation attachment"
  let attachments ← insertRow t.attachments ⟨messageId, attachment⟩
  return { t with attachments }

def insertAttachments (messageId : String) (attachments : List MessageAttachment) : Except String Tables :=
  attachments.foldlM (insertAttachment messageId) t

def appendMessageRevision (messageId changedBy : String) : Except String Tables := do
  let message ← context (t.messages.find messageId) "Conversation message is unavailable"
  ensure (changedBy != "") "Failed to append immutable message revision"
  let revisions ← insertRow t.revisions (message.revisionRow (t.attachmentsOf messageId) changedBy)
  return { t with revisions }

def insertMessage (now : Int) (message : NewConversationMessage) : Except String Tables := do
  ensure ((column message.messageId).length ≤ 32 && message.createdBy != "") "Failed to insert conversation message"
  -- no statement after the insertion finds the row by an id with blanks at the end
  ensure (column message.messageId = message.messageId) "Conversation message is unavailable"
  let messages ← insertRow t.messages (message.row now)
  let t ← { t with messages }.insertAttachments message.messageId message.attachments
  t.appendMessageRevision message.messageId message.createdBy

def evidenceOf (m : MessageRow) : Option (List EvidenceSource) :=
  if m.role = .assistant then (m.sourceGenerationId.bind t.messages.find).map MessageRow.evidenceSources
  else some m.evidenceSources

def mapMessage (m : MessageRow) : ConversationMessage where
  messageId := padded m.messageId
  role := m.role
  content := m.content
  modelAlias := m.modelAlias
  status := m.status
  revision := m.revision
  createdBy := m.createdBy
  attachments := t.attachmentsOf (padded m.messageId)
  createdAt := m.createdAt
  updatedAt := m.updatedAt
  deletedAt := m.deletedAt
  evidence := t.evidenceOf m

def newest (m n : MessageRow) : Bool :=
  n.createdAt < m.createdAt || (n.createdAt = m.createdAt && n.messageId ≤ m.messageId)

def loadConversation (includeDeletedMessages : Bool) (historyActor : Option String) : Option Conversation :=
  if t.conversation.deletedAt.isSome then none
  else
    let rows := (t.messages.rows.filter fun m =>
      (includeDeletedMessages || m.deletedAt.isNone) && historyActor.all (m.createdBy = ·)).insertionSort (newest · ·)
    let rows := if historyActor.isSome then rows.take 65 else rows
    some ⟨t.conversation, rows.reverse.map t.mapMessage⟩

def loadMessage (messageId : String) : Except String ConversationMessage := do
  let conversation ← context (t.loadConversation false none) "Conversation disappeared"
  context (conversation.messages.find? (·.messageId = messageId)) "Message is unavailable"

def available : Bool := t.conversation.deletedAt.isNone && t.conversation.activeGenerationId.isNone

def editable (expectedRevision : Int) (changedBy : String) (m : MessageRow) : Bool :=
  (m.revision : Int) = expectedRevision && m.role = .user && m.createdBy = changedBy && m.deletedAt.isNone

def release (now : Int) : Tables :=
  { t.touch now with conversation := { (t.touch now).conversation with activeGenerationId := none } }

def createConversation (now : Int) (conversationId ownerId title : String) : Except String Tables := do
  ensure ((column conversationId).length ≤ 32 && ownerId != "" && 1 ≤ title.length && title.length ≤ 256)
    "Failed to create conversation"
  return ⟨⟨ownerId, title, 0, none, now, now, none⟩, .empty, .empty, .empty, .empty⟩

def updateConversation (now expectedRevision : Int) (title : String) : Except String Tables := do
  ensure ((t.conversation.revision : Int) = expectedRevision && t.available)
    "Conversation revision changed or generation is active"
  ensure (1 ≤ title.length && title.length ≤ 256) "Failed to update conversation"
  return { t.touch now with conversation := { (t.touch now).conversation with title } }

def deleteConversation (now expectedRevision : Int) : Except String Tables := do
  ensure ((t.conversation.revision : Int) = expectedRevision && t.available)
    "Conversation revision changed or generation is active"
  return { t.touch now with conversation := { (t.touch now).conversation with deletedAt := some now } }

def createMessage (now : Int) (message : NewConversationMessage) : Except String (ConversationMessage × Tables) := do
  ensure t.available "Conversation is unavailable or generation is active"
  let t ← t.insertMessage now message
  let t := t.touch now
  let created ← t.loadMessage message.messageId
  return (created, t)

def updateMessage (now : Int) (messageId : String) (expectedRevision : Int) (content : String)
    (attachments : List MessageAttachment) (changedBy : String) : Except String (ConversationMessage × Tables) := do
  let t ← t.updateRow messageId (fun m => editable expectedRevision changedBy m && t.available)
    (fun m => { m with
      content
      revision := m.revision + 1
      updatedAt := now }) (fun _ => rfl)
    "Message revision changed, is not editable, or generation is active"
  let t := { t with attachments := t.attachments.delete (·.messageId = messageId) }
  let t ← t.insertAttachments messageId attachments
  let t ← t.appendMessageRevision messageId changedBy
  let t := t.touch now
  let result ← t.loadMessage messageId
  return (result, t)

def deleteMessage (now : Int) (messageId : String) (expectedRevision : Int) (changedBy : String) : Except String Tables := do
  let t ← t.updateRow messageId (fun m => editable expectedRevision changedBy m && t.available)
    (fun m => { m with
      deletedAt := some now
      revision := m.revision + 1
      updatedAt := now }) (fun _ => rfl)
    "Message revision changed, is not editable, or generation is active"
  let t ← t.appendMessageRevision messageId changedBy
  return t.touch now

def beginGeneration (now : Int) (generationId : String) (message : NewConversationMessage) :
    Except String (Conversation × Tables) := do
  ensure t.available "Conversation is unavailable or already generating"
  ensure ((column generationId).length ≤ 32) "Failed to reserve conversation generation"
  let t := { t.touch now with conversation := { (t.touch now).conversation with activeGenerationId := some (column generationId) } }
  let t ← t.insertMessage now message
  let conversation ← context (t.loadConversation false (some message.createdBy)) "Reserved conversation is unavailable"
  -- the reference of the reservation to a message is checked at the commit
  ensure (t.messages.find (column generationId)).isSome "Failed to commit generation reservation"
  return (conversation, t)

def recordGenerationEvidence (generationId : String) (sources : List EvidenceSource) : Except String Tables :=
  t.updateRow generationId
    (fun m => m.status = .pending && t.conversation.activeGenerationId = some generationId &&
      (m.evidenceSources ++ sources).dedup.length ≤ 512)
    (fun m => { m with evidenceSources := (m.evidenceSources ++ sources).dedup }) (fun _ => rfl)
    "Generation evidence is no longer writable"

def appendGenerationContent (generationId content : String) : Except String Tables := do
  ensure (content != "" && content.utf8ByteSize ≤ 65536) "Invalid generation batch"
  t.appendEvent generationId .content content

def completeGeneration (now : Int) (generationId : String) (message : NewConversationMessage) : Except String Tables := do
  let t ← t.appendEvent generationId .completed ""
  let t ← t.insertMessage now message
  let t ← t.updateRow message.messageId (fun _ => true)
    (fun m => { m with sourceGenerationId := some generationId }) (fun _ => rfl)
    "Generation source is unavailable"
  let t ← t.updateRow generationId (·.status = .pending)
    (fun m => { m with
      status := .completed
      revision := m.revision + 1
      updatedAt := now }) (fun _ => rfl)
    "Pending user message is unavailable"
  let t ← t.appendMessageRevision generationId message.createdBy
  ensure (t.conversation.activeGenerationId = some generationId && t.conversation.deletedAt.isNone)
    "Generation reservation changed before completion"
  return t.release now

def failGeneration (now : Int) (generationId messageId changedBy : String) : Except String Tables := do
  let t ← t.appendEvent generationId .failed ""
  let t ← t.updateRow messageId (·.status = .pending)
    (fun m => { m with
      status := .failed
      revision := m.revision + 1
      updatedAt := now }) (fun _ => rfl)
    "Pending user message is unavailable"
  let t ← t.appendMessageRevision messageId changedBy
  ensure (t.conversation.activeGenerationId = some generationId)
    "Generation reservation changed before failure persistence"
  return t.release now

def generationEvents (generationId : String) (after : Int) (limit : Nat) : Except String (List GenerationEvent) := do
  ensure (0 ≤ after && 1 ≤ limit && limit ≤ 64) "Invalid replay bounds"
  return (((t.eventsOf generationId).filter fun e => after < (e.sequence : Int)).insertionSort (·.sequence ≤ ·.sequence)
    |>.take limit).map fun e => ⟨e.sequence, e.kind, e.content⟩

end Tables

/-- A transaction of the store on one conversation. -/
inductive Operation
  | createConversation (ownerId title : String)
  | updateConversation (expectedRevision : Int) (title : String)
  | deleteConversation (expectedRevision : Int)
  | createMessage (message : NewConversationMessage)
  | updateMessage (messageId : String) (expectedRevision : Int) (content : String)
      (attachments : List MessageAttachment) (changedBy : String)
  | deleteMessage (messageId : String) (expectedRevision : Int) (changedBy : String)
  | beginGeneration (generationId : String) (message : NewConversationMessage)
  | recordGenerationEvidence (generationId : String) (sources : List EvidenceSource)
  | appendGenerationContent (generationId content : String)
  | completeGeneration (generationId : String) (message : NewConversationMessage)
  | failGeneration (generationId messageId changedBy : String)

structure Request where
  tenantId : String
  conversationId : String
  now : Int
  operation : Operation

abbrev Store := String × String → Option Tables

def Tables.perform (t : Tables) (now : Int) : Operation → Except String Tables
  | .createConversation .. => .error "Failed to create conversation"
  | .updateConversation expectedRevision title => t.updateConversation now expectedRevision title
  | .deleteConversation expectedRevision => t.deleteConversation now expectedRevision
  | .createMessage message => (t.createMessage now message).map Prod.snd
  | .updateMessage messageId expectedRevision content attachments changedBy =>
      (t.updateMessage now messageId expectedRevision content attachments changedBy).map Prod.snd
  | .deleteMessage messageId expectedRevision changedBy => t.deleteMessage now messageId expectedRevision changedBy
  | .beginGeneration generationId message => (t.beginGeneration now generationId message).map Prod.snd
  | .recordGenerationEvidence generationId sources => t.recordGenerationEvidence generationId sources
  | .appendGenerationContent generationId content => t.appendGenerationContent generationId content
  | .completeGeneration generationId message => t.completeGeneration now generationId message
  | .failGeneration generationId messageId changedBy => t.failGeneration now generationId messageId changedBy

def Request.key (r : Request) : String × String :=
  match r.operation with
  | .createConversation .. => (r.tenantId, column r.conversationId)
  | _ => (r.tenantId, r.conversationId)

def Store.perform (s : Store) (r : Request) : Except String Tables :=
  match s r.key with
  | some t => t.perform r.now r.operation
  | none =>
      match r.operation with
      | .createConversation ownerId title => Tables.createConversation r.now r.conversationId ownerId title
      | _ => .error "Conversation is unavailable"

/-- A transaction that is rejected rolls back. -/
def Store.step (s : Store) (r : Request) : Store :=
  match s.perform r with
  | .ok t => Function.update s r.key (some t)
  | .error _ => s

end Galadril.Conversations
