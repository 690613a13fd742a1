import Galadril.Json.Value
import Galadril.Lib.Checked

namespace Galadril.Pengolo

open Json Lib.Checked

inductive Status
  | pending
  | running
  | completed
  | failed
  | cancelled
  deriving DecidableEq

def Status.terminal : Status → Bool
  | .pending | .running => false
  | _ => true

inductive EventKind
  | content
  | tool
  | activity
  | completed
  | failed
  | cancelled
  | heartbeat
  | other (name : String)
  deriving DecidableEq

def EventKind.outcome : EventKind → Option Status
  | .completed => some .completed
  | .failed => some .failed
  | .cancelled => some .cancelled
  | _ => none

structure OutputEvent where
  sequence : Int
  kind : EventKind
  content : String
  deriving DecidableEq

structure SendInput where
  idempotencyKey : String
  chatId : Option String
  projectId : Option String
  prompt : String
  modelAlias : String
  agentIds : List String
  fileIds : List String
  graphContext : Option Value
  webQuery : Option String
  webSearch : Bool
  temporary : Bool
  withLibrary : Bool
  deriving DecidableEq

structure Checkpoint where
  offset : Nat
  operation : String
  deriving DecidableEq

inductive Role
  | user
  | assistant
  deriving DecidableEq

structure Message where
  id : String
  role : Role
  text : String
  fileIds : List String
  generationId : String
  status : Status
  evidence : List Value
  emailDrafts : List String
  activityKinds : List String
  toolCheckpoints : List Checkpoint
  taskChecks : Option Value

structure GenerationContext where
  graphContext : Option Value
  modelAlias : String
  webSearch : Bool
  agentIds : List String

structure Chat where
  id : String
  ownerId : String
  projectId : Option String
  expiresAt : Option Int
  revision : Int
  updatedAt : Int
  title : String
  pinned : Bool
  messages : List Message
  activeGeneration : Option String
  generationContext : Option GenerationContext

structure Generation where
  id : String
  ownerId : String
  projectId : Option String
  expiresAt : Option Int
  revision : Int
  updatedAt : Int
  chatId : String
  input : SendInput
  status : Status
  sequence : Nat
  response : String
  evidence : List Value
  leaseExpires : Int
  toolCheckpoints : List Checkpoint
  activityKinds : List String
  emailDrafts : List String
  authorization : Option Value

structure Capability where
  token : String
  generationId : String
  temporary : Bool
  expiresAt : Int
  deriving DecidableEq

inductive RetentionKind
  | chat
  | generation
  | lease
  deriving DecidableEq

/-- The tables of one tenant. Records and outputs are kept apart by the
temporary flag; capabilities and retention rows share one table each. -/
structure Store where
  chats : Bool → String → Option Chat
  generations : Bool → String → Option Generation
  outputs : Bool → String → List OutputEvent
  capabilities : List Capability
  retention : RetentionKind → String → Bool → Option Int

def Store.empty : Store := ⟨fun _ _ => none, fun _ _ => none, fun _ _ => [], [], fun _ _ _ => none⟩

/-- The kinds of activity that leave a trace in a generation. -/
inductive Activity
  | webResearch
  | warning
  | python
  | question
  | emailDraft
  | silent

def Activity.name : Activity → Option String
  | .webResearch => some "web_research"
  | .warning => some "warning"
  | .python => some "python"
  | .question => some "question"
  | .emailDraft | .silent => none

/-- What the transactions use from elsewhere: identifiers in simple form, the
activity format, and the check constraints of the tables. -/
structure Engine where
  uuid : String → Option String
  activity : String → Except String Activity
  admitsChat : Bool → Chat → Bool
  admitsGeneration : Bool → Generation → Bool
  admitsEvent : OutputEvent → Bool

variable {α : Type}

/-- The row of a table that a transaction writes. -/
def put (rows : Bool → String → α) (temporary : Bool) (id : String) (row : α) : Bool → String → α :=
  fun t i => if t = temporary ∧ i = id then row else rows t i

@[simp] theorem put_self (rows : Bool → String → α) (t : Bool) (id : String) (row : α) : put rows t id row t id = row := by
  simp [put]

theorem put_of_ne (rows : Bool → String → α) {t t' : Bool} {id id' : String} (row : α) (h : ¬ (t' = t ∧ id' = id)) :
    put rows t id row t' id' = rows t' id' := if_neg h

def unexpired (now : Int) : Option Int → Bool
  | none => true
  | some deadline => now < deadline

def readChat (s : Store) (now : Int) (temporary : Bool) (id : String) : Option Chat :=
  (s.chats temporary id).filter fun c => unexpired now c.expiresAt

def readGeneration (s : Store) (now : Int) (temporary : Bool) (id : String) : Option Generation :=
  (s.generations temporary id).filter fun g => unexpired now g.expiresAt

def retain (s : Store) (kind : RetentionKind) (id : String) (temporary : Bool) (deadline : Option Int) : Store :=
  match deadline with
  | none => s
  | some d => { s with retention := fun k i t => if k = kind ∧ i = id ∧ t = temporary then some d else s.retention k i t }

def nextRevision : Option Int → Option Int → Except String Int
  | none, none => .ok 1
  | none, some _ => .error "duplicate key"
  | some revision, some stored =>
      if stored = revision then .ok (revision + 1) else .error "Workspace revision conflict"
  | some _, none => .error "Workspace revision conflict"

def Chat.stamped (c : Chat) (revision now : Int) : Chat := { c with revision := revision, updatedAt := now }

def Generation.stamped (g : Generation) (revision now : Int) : Generation := { g with revision := revision, updatedAt := now }

variable (env : Engine)

def writeChat (s : Store) (now : Int) (temporary : Bool) (chat : Chat) (expected : Option Int) : Except String Store := do
  let revision ← nextRevision expected ((s.chats temporary chat.id).map Chat.revision)
  let row := chat.stamped revision now
  ensure (env.admitsChat temporary row) "check constraint"
  return retain { s with chats := put s.chats temporary chat.id (some row) } .chat chat.id temporary chat.expiresAt

def writeGeneration (s : Store) (now : Int) (temporary : Bool) (generation : Generation) (expected : Option Int) :
    Except String Store := do
  let revision ← nextRevision expected ((s.generations temporary generation.id).map Generation.revision)
  let row := generation.stamped revision now
  ensure (env.admitsGeneration temporary row) "check constraint"
  return retain { s with generations := put s.generations temporary generation.id (some row) } .generation generation.id
    temporary generation.expiresAt

def temporaryTtl : Int := 24 * 60 * 60 * 1000

def freshChat (actor : String) (input : SendInput) (now : Int) (freshId : String) : Chat where
  id := if input.temporary then input.chatId.getD freshId else freshId
  ownerId := actor
  projectId := input.projectId
  expiresAt := if input.temporary then some (now + temporaryTtl) else none
  revision := 1
  updatedAt := now
  title := String.ofList (input.prompt.toList.take 80)
  pinned := false
  messages := []
  activeGeneration := none
  generationContext := none

def userMessage (id : String) (input : SendInput) : Message where
  id := id
  role := .user
  text := input.prompt
  fileIds := input.fileIds
  generationId := id
  status := .pending
  evidence := []
  emailDrafts := []
  activityKinds := []
  toolCheckpoints := []
  taskChecks := none

def withPrompt (chat : Chat) (id : String) (input : SendInput) : Chat :=
  { chat with
    activeGeneration := some id
    generationContext := some ⟨input.graphContext, input.modelAlias, input.webSearch || input.webQuery.isSome, input.agentIds⟩
    messages := chat.messages ++ [userMessage id input] }

def freshGeneration (actor : String) (chat : Chat) (id : String) (input : SendInput) (now : Int) : Generation where
  id := id
  ownerId := actor
  projectId := chat.projectId
  expiresAt := chat.expiresAt
  revision := 1
  updatedAt := now
  chatId := chat.id
  input := input
  status := .pending
  sequence := 0
  response := ""
  evidence := []
  leaseExpires := now + 45000
  toolCheckpoints := []
  activityKinds := []
  emailDrafts := []
  authorization := none

def replayReservation (s : Store) (now : Int) (actor : String) (input : SendInput) (generation : Generation) :
    Except String Store := do
  ensure (generation.ownerId == actor && generation.input == input) "Idempotency key conflicts with an earlier request"
  let _ ← context (readChat s now input.temporary generation.chatId) "Conversation unavailable"
  return s

def createReservation (s : Store) (now : Int) (actor : String) (input : SendInput) (capability freshId id : String) :
    Except String Store := do
  let existing := input.chatId.bind (readChat s now input.temporary)
  ensure (input.chatId.isNone || input.temporary || existing.isSome) "Conversation unavailable"
  let chat := existing.getD (freshChat actor input now freshId)
  ensure (chat.projectId == input.projectId) "Conversation project changed"
  ensure chat.activeGeneration.isNone "A generation is already active"
  ensure (chat.messages.length < 1000) "Conversation message limit reached"
  let s ← writeChat env s now input.temporary (withPrompt chat id input) (existing.map Chat.revision)
  let s ← writeGeneration env s now input.temporary (freshGeneration actor chat id input now) none
  ensure (s.capabilities.all (·.token != capability)) "duplicate key"
  ensure (s.retention .lease id input.temporary).isNone "duplicate key"
  let s := { s with capabilities := ⟨capability, id, input.temporary, now + 900000⟩ :: s.capabilities }
  return retain s .lease id input.temporary (some (now + 45000))

def reserve (s : Store) (now : Int) (actor : String) (input : SendInput) (capability freshId : String) :
    Except String Store := do
  let id ← context (env.uuid input.idempotencyKey) "invalid UUID"
  match readGeneration s now input.temporary id with
  | some generation => replayReservation s now actor input generation
  | none => createReservation env s now actor input capability freshId id

/-- The rows from which a lookup of a generation's capability takes its token;
which of them is up to the database. -/
def generationCapability (s : Store) (id : String) : List Capability := s.capabilities.filter (·.generationId == id)

end Galadril.Pengolo
