import Galadril.Json.Equality
import Galadril.Pengolo.Store

namespace Galadril.Pengolo

open Json Lib.Checked

variable (env : Engine)

def toolNames : List String :=
  ["context", "web", "search", "graph", "causal", "library", "read_file", "document_templates", "compile_document",
    "document_job", "document_search", "evidence", "date_interval", "run_python", "mcp"]

def utf16Length (text : String) : Nat := (text.toList.map fun c => if 0xFFFF < c.toNat then 2 else 1).sum

def allocate (sequence : Nat) (event : OutputEvent) : Except String OutputEvent :=
  if event.sequence < 0 then do
    ensure (event.kind == .failed || event.kind == .cancelled) "Invalid terminal command"
    ensure (sequence + 1 < 2 ^ 31) "out of range integral type conversion attempted"
    return { event with sequence := sequence + 1 }
  else return event

def addTool (g : Generation) (operation : String) : Except String Generation := do
  ensure (toolNames.contains operation) "Invalid tool progress"
  return if g.toolCheckpoints.length < 32 then
      { g with toolCheckpoints := g.toolCheckpoints ++ [⟨utf16Length g.response, operation⟩] }
    else g

def addActivity (g : Generation) (content : String) : Except String Generation := do
  let activity ← env.activity content
  let kinds := match activity.name with
    | some kind => if g.activityKinds.contains kind then g.activityKinds else g.activityKinds ++ [kind]
    | none => g.activityKinds
  match activity with
  | .emailDraft => do
      ensure (g.emailDrafts.length < 8) "Too many email proposals"
      return { g with activityKinds := kinds, emailDrafts := g.emailDrafts ++ [content] }
  | _ => return { g with activityKinds := kinds }

def addContent (g : Generation) (content : String) : Except String Generation := do
  ensure (g.response.utf8ByteSize + content.utf8ByteSize ≤ 1048576) "Output exceeds limit"
  return { g with response := g.response ++ content }

def Generation.withSequence (g : Generation) (sequence : Nat) : Generation := { g with sequence := sequence }

def Generation.withStatus (g : Generation) (status : Status) : Generation := { g with status := status }

def Generation.renewed (g : Generation) (now : Int) : Generation := { g with leaseExpires := now + 45000 }

def advance (g : Generation) (event : OutputEvent) : Except String Generation := do
  ensure (event.sequence == g.sequence + 1) "Output cursor gap"
  let g := g.withSequence (g.sequence + 1)
  match event.kind with
  | .content => addContent g event.content
  | .tool => addTool g event.content
  | .activity => addActivity env g event.content
  | .completed | .failed | .cancelled => .ok g
  | _ => .error "Invalid output event"

def assistantMessage (messageId : String) (g : Generation) (outcome : Status) : Message where
  id := messageId
  role := .assistant
  text := g.response
  fileIds := []
  generationId := g.id
  status := outcome
  evidence := g.evidence
  emailDrafts := g.emailDrafts
  activityKinds := g.activityKinds
  toolCheckpoints := g.toolCheckpoints
  taskChecks := none

def markMessage (id : String) (status : Status) : List Message → List Message
  | [] => []
  | m :: rest => if m.id = id then { m with status := status } :: rest else m :: markMessage id status rest

def concluded (chat : Chat) (messageId : String) (g : Generation) (outcome : Status) : Chat :=
  { chat with
    activeGeneration := none
    messages := markMessage g.id outcome chat.messages ++ [assistantMessage messageId g outcome] }

def concludeChat (s : Store) (now : Int) (temporary : Bool) (messageId : String) (g : Generation) (outcome : Status) :
    Except String Store :=
  match readChat s now temporary g.chatId with
  | some chat => writeChat env s now temporary (concluded chat messageId g outcome) (some chat.revision)
  | none => .ok s

def conclude (s : Store) (now : Int) (temporary : Bool) (messageId : String) (g : Generation) (outcome : Status) :
    Except String Store := do
  let s ← concludeChat env s now temporary messageId g outcome
  let capabilities := s.capabilities.filter fun c => c.generationId != g.id
  let retention := fun k i t => if k = .lease ∧ i = g.id then none else s.retention k i t
  return { s with capabilities := capabilities, retention := retention }

def extendLease (s : Store) (now : Int) (temporary : Bool) (id : String) : Store :=
  { s with retention := fun k i t =>
      if k = .lease ∧ i = id ∧ t = temporary then (s.retention k i t).map fun _ => now + 45000 else s.retention k i t }

def Store.withLog (s : Store) (temporary : Bool) (id : String) (log : List OutputEvent) : Store :=
  { s with outputs := put s.outputs temporary id log }

def appendOutput (s : Store) (temporary : Bool) (id : String) (event : OutputEvent) : Except String Store := do
  ensure ((s.outputs temporary id).all (·.sequence != event.sequence)) "duplicate key"
  ensure (env.admitsEvent event) "check constraint"
  return s.withLog temporary id (s.outputs temporary id ++ [event])

def extend (s : Store) (now : Int) (temporary : Bool) (g : Generation) (event : OutputEvent) :
    Except String (Store × Generation) := do
  if event.kind = .heartbeat then return (s, g.renewed now)
  else do
    let g ← advance env (g.renewed now) event
    let s ← appendOutput env s temporary g.id event
    return (s, g)

def settle (s : Store) (now : Int) (temporary : Bool) (messageId : String) (g : Generation) :
    Option Status → Except String Store
  | some outcome => conclude env s now temporary messageId g outcome
  | none => .ok (extendLease s now temporary g.id)

def accept (s : Store) (now : Int) (temporary : Bool) (messageId : String) (g : Generation) (event : OutputEvent) :
    Except String Store := do
  ensure (!g.status.terminal) "Generation is terminal"
  ensure (event.content.utf8ByteSize ≤ 65536) "Output batch exceeds limit"
  let extended ← extend env s now temporary g event
  let g' := extended.2.withStatus (event.kind.outcome.getD .running)
  let s ← settle env extended.1 now temporary messageId g' event.kind.outcome
  writeGeneration env s now temporary g' (some g.revision)

def append (s : Store) (now : Int) (temporary : Bool) (id messageId : String) (event : OutputEvent) :
    Except String Store := do
  let g ← context (readGeneration s now temporary id) "Generation unavailable"
  if event.sequence = -2 ∧ now < g.leaseExpires then return s
  else do
    let event ← allocate g.sequence event
    if 0 < event.sequence ∧ event.sequence ≤ g.sequence then do
      let stored := (s.outputs temporary id).find? (·.sequence = event.sequence)
      ensure (stored.any fun e => e.kind == event.kind && e.content == event.content) "Output replay conflict"
      return s
    else accept env s now temporary messageId g event

def events (s : Store) (temporary : Bool) (id : String) (after : Int) : List OutputEvent :=
  (((s.outputs temporary id).filter fun e => max after 0 < e.sequence).insertionSort
    fun a b => a.sequence ≤ b.sequence).take 64

def recordEvidence (s : Store) (now : Int) (temporary : Bool) (id : String) (sources : List Value) : Except String Store := do
  let g ← context (readGeneration s now temporary id) "Generation unavailable"
  let evidence ← sources.foldlM (fun (evidence : List Value) source =>
    if evidence.contains source then .ok evidence
    else if evidence.length < 512 then .ok (evidence ++ [source]) else .error "Evidence limit reached") g.evidence
  writeGeneration env s now temporary { g with evidence := evidence } (some g.revision)

def saveChat (s : Store) (now : Int) (temporary : Bool) (chat : Chat) (expected : Option Int) : Except String Store := do
  let s ← writeChat env s now temporary chat expected
  return { s with generations := fun t i => (s.generations t i).map fun g =>
      if t = temporary ∧ g.chatId = chat.id then { g with projectId := chat.projectId } else g }

def saveGeneration (s : Store) (now : Int) (temporary : Bool) (generation : Generation) (expected : Option Int) :
    Except String Store :=
  writeGeneration env s now temporary generation expected

def expireTemporary (s : Store) (now : Int) (owner session : String) : Store :=
  let chatOf (i : String) (c : Chat) : Bool := c.ownerId == owner && i == session
  let generationOf (g : Generation) : Bool := g.ownerId == owner && g.chatId == session
  { s with
    chats := fun t i => (s.chats t i).map fun c =>
      if t = true ∧ chatOf i c = true then { c with expiresAt := some now } else c
    generations := fun t i => (s.generations t i).map fun g =>
      if t = true ∧ generationOf g = true then { g with expiresAt := some now } else g
    capabilities := s.capabilities.filter fun c =>
      !(c.temporary && ((s.generations true c.generationId).any generationOf))
    retention := fun k i t =>
      let expired := t && match k with
        | .chat => (s.chats true i).any (chatOf i)
        | .generation => (s.generations true i).any generationOf
        | .lease => false
      if expired = true then (s.retention k i t).map fun _ => now else s.retention k i t }

def removeChat (s : Store) (temporary : Bool) (id : String) : Store :=
  let gone (t : Bool) (i : String) : Bool := t == temporary && (s.generations t i).any fun g => g.chatId == id
  { chats := put s.chats temporary id none
    generations := fun t i => if gone t i = true then none else s.generations t i
    outputs := fun t i => if gone t i = true then [] else s.outputs t i
    capabilities := s.capabilities.filter fun c => !gone temporary c.generationId
    retention := fun k i t =>
      if (k = .chat ∧ i = id ∧ t = temporary) ∨ (k ≠ .chat ∧ t = temporary ∧ gone temporary i = true) then none
      else s.retention k i t }

def removeGeneration (s : Store) (temporary : Bool) (id : String) : Store :=
  { chats := s.chats
    generations := put s.generations temporary id none
    outputs := put s.outputs temporary id []
    capabilities := s.capabilities.filter fun c => c.generationId != id
    retention := fun k i t =>
      if i = id ∧ (k = .lease ∨ (k = .generation ∧ t = temporary)) then none else s.retention k i t }

/-- The transactions on the tables of a tenant, with the time at which they
run. -/
inductive Request
  | reserve (now : Int) (actor : String) (input : SendInput) (capability freshId : String)
  | append (now : Int) (temporary : Bool) (id messageId : String) (event : OutputEvent)
  | recordEvidence (now : Int) (temporary : Bool) (id : String) (sources : List Value)
  | saveChat (now : Int) (temporary : Bool) (chat : Chat) (expected : Option Int)
  | saveGeneration (now : Int) (temporary : Bool) (generation : Generation) (expected : Option Int)
  | expireTemporary (now : Int) (owner session : String)
  | removeChat (temporary : Bool) (id : String)
  | removeGeneration (temporary : Bool) (id : String)

def perform (s : Store) : Request → Except String Store
  | .reserve now actor input capability freshId => reserve env s now actor input capability freshId
  | .append now temporary id messageId event => append env s now temporary id messageId event
  | .recordEvidence now temporary id sources => recordEvidence env s now temporary id sources
  | .saveChat now temporary chat expected => saveChat env s now temporary chat expected
  | .saveGeneration now temporary generation expected => saveGeneration env s now temporary generation expected
  | .expireTemporary now owner session => .ok (expireTemporary s now owner session)
  | .removeChat temporary id => .ok (removeChat s temporary id)
  | .removeGeneration temporary id => .ok (removeGeneration s temporary id)

/-- A transaction that fails rolls back. -/
def Store.step (s : Store) (r : Request) : Store :=
  match perform env s r with
  | .ok s' => s'
  | .error _ => s

end Galadril.Pengolo
