import Galadril.Lib.Transitions
import Galadril.Pengolo.Output

namespace Galadril.Scribe

open Lib.Transitions Pengolo

def contentBatchBytes : Nat := 3072

def contentFragmentChars : Nat := contentBatchBytes / 6

/-- Bytes of a character inside a JSON string that keeps other alphabets. -/
def encodedChar (c : Char) : Nat :=
  if "\"\\\n\r\t".toList.contains c || c.toNat == 8 || c.toNat == 12 then 2
  else if c.toNat < 32 then 6
  else c.utf8Size

def encodedBytes (fragment : String) : Nat := (fragment.toList.map encodedChar).sum

/-- Slices of a fixed length. The first argument bounds their number. -/
def slices (size : Nat) : Nat → List Char → List (List Char)
  | 0, _ => []
  | _ + 1, [] => []
  | fuel + 1, rest => rest.take size :: slices size fuel (rest.drop size)

def fragments (content : String) : List String :=
  (slices contentFragmentChars content.length content.toList).map String.ofList

inductive ChunkKind
  | content
  | tool
  | activity
  | completed
  | failed
deriving DecidableEq

def ChunkKind.event : ChunkKind → EventKind
  | .content => .content
  | .tool => .tool
  | .activity => .activity
  | .completed => .completed
  | .failed => .failed

structure Chunk where
  kind : ChunkKind
  content : String

/-- What is left to do for a chunk while the lock is held. -/
inductive Work
  | room (fragment : String)
  | push (fragment : String)
  | full
  | flush
  | persist (kind : ChunkKind) (content : String)

def pieces (fragment : String) : List Work := [.room fragment, .push fragment, .full]

def Chunk.work (chunk : Chunk) : List Work :=
  if chunk.kind = .content then (fragments chunk.content).flatMap pieces
  else [.flush, .persist chunk.kind chunk.content]

/-- A delivery under the next sequence, with the attempts that were answered or
lost. The delivery of a batch clears it. -/
structure Delivery where
  kind : ChunkKind
  content : String
  batch : Bool
  attempt : Nat
  /-- Between two attempts. -/
  paused : Bool

inductive Main
  | starting (attempt : Nat) (paused : Bool)
  | reading
  | waiting (chunk : Chunk)
  | sending (d : Delivery) (rest : List Work)
  | failing (attempt : Nat) (paused : Bool)
  | done

inductive Flusher
  | sleeping
  | waiting
  | sending (d : Delivery)
  | done

inductive Party
  | main
  | flusher
deriving DecidableEq

/-- What comes of a request: it is acknowledged, refused for good, or not
answered in time or with a transient error. -/
inductive Outcome
  | accepted
  | refused
  | unavailable

/-- The worker of a generation and the gateway, which keeps the log. -/
structure Background where
  main : Main
  flusher : Flusher
  sequence : Nat
  pending : List String
  pendingBytes : Nat
  lock : Option Party
  cancelled : Bool
  /-- Requests with a positive sequence, in the order in which they were made. -/
  submitted : List OutputEvent
  /-- The content of the chunks so far. -/
  yielded : List Char
  /-- A delivery has raised. -/
  failed : Bool
  store : Store
  acknowledged : List OutputEvent
  /-- The generation was deleted meanwhile. -/
  gone : Bool

def Background.start (store : Store) : Background where
  main := .starting 0 false
  flusher := .sleeping
  sequence := 0
  pending := []
  pendingBytes := 0
  lock := none
  cancelled := false
  submitted := []
  yielded := []
  failed := false
  store := store
  acknowledged := []
  gone := false

inductive BackgroundStep
  | yields (chunk : Chunk)
  | raises
  | ends
  | locks (party : Party)
  | answers (party : Party) (outcome : Outcome)
  | resumes (party : Party)
  | wakes
  /-- A heartbeat failed, or the task is cancelled from outside. -/
  | cancels
  | stops
  | receives (now : Int) (messageId : String) (event : OutputEvent)
  | others (request : Request)

variable (env : Engine) (temporary : Bool) (id : String) (w : Background)

def Background.event (d : Delivery) : OutputEvent := ⟨w.sequence + 1, d.kind.event, d.content⟩

def failedEvent : OutputEvent := ⟨w.sequence + 1, .failed, ""⟩

def Background.submit (event : OutputEvent) : Background := { w with submitted := w.submitted ++ [event] }

def batch : Delivery := ⟨.content, String.join w.pending, true, 0, false⟩

def send (d : Delivery) (rest : List Work) : Background := { w.submit (w.event d) with main := .sending d rest }

/-- Carries on with a chunk up to its next delivery, and gives up the lock at
its end. -/
def carryOn : Background → List Work → Background
  | w, [] => { w with
      main := .reading
      lock := none }
  | w, .room fragment :: rest =>
      if contentBatchBytes < w.pendingBytes + encodedBytes fragment ∧ w.pending ≠ [] then send w (batch w) rest
      else carryOn w rest
  | w, .push fragment :: rest => carryOn { w with
      pending := w.pending ++ [fragment]
      pendingBytes := w.pendingBytes + encodedBytes fragment } rest
  | w, .full :: rest =>
      if contentBatchBytes ≤ w.pendingBytes ∧ w.pending ≠ [] then send w (batch w) rest else carryOn w rest
  | w, .flush :: rest => if w.pending ≠ [] then send w (batch w) rest else carryOn w rest
  | w, .persist kind content :: rest => send w ⟨kind, content, false, 0, false⟩ rest

def advanced (d : Delivery) : Background :=
  { w with
    sequence := w.sequence + 1
    pending := if d.batch then [] else w.pending
    pendingBytes := if d.batch then 0 else w.pendingBytes }

/-- The failure path reports under the next sequence without taking the lock. -/
def fail : Background :=
  { w.submit (failedEvent w) with
    main := .failing 0 false
    lock := if w.lock = some .main then none else w.lock }

def stopped : Background :=
  { w with
    main := .done
    flusher := .done }

/-- A delivery goes on after three attempts only when the last is acknowledged. -/
def exhausted (attempt : Nat) : Outcome → Bool
  | .accepted => false
  | .refused => true
  | .unavailable => 2 ≤ attempt

def answerMain (outcome : Outcome) : Background :=
  match w.main, outcome with
  | .starting _ false, .accepted => { w with main := .reading }
  | .starting attempt false, outcome =>
      if exhausted attempt outcome then fail { w with failed := true } else { w with main := .starting attempt true }
  | .sending d rest, outcome =>
      if d.paused then w
      else
        match outcome with
        | .accepted => if w.event d ∈ w.acknowledged then carryOn (advanced w d) rest else w
        | outcome =>
            if exhausted d.attempt outcome then fail { w with failed := true }
            else { w with main := .sending { d with paused := true } rest }
  | .failing _ false, .accepted => stopped w
  | .failing attempt false, outcome =>
      if exhausted attempt outcome then stopped w else { w with main := .failing attempt true }
  | _, _ => w

def answerFlusher (outcome : Outcome) : Background :=
  match w.flusher with
  | .sending d =>
      if d.paused then w
      else
        match outcome with
        | .accepted =>
            if w.event d ∈ w.acknowledged then { advanced w d with
              flusher := .sleeping
              lock := none }
            else w
        | outcome =>
            if exhausted d.attempt outcome then { w with
              flusher := .done
              lock := none
              failed := true
              cancelled := true }
            else { w with flusher := .sending { d with paused := true } }
  | _ => w

def again (d : Delivery) : Delivery :=
  { d with
    attempt := d.attempt + 1
    paused := false }

def resumeMain : Background :=
  match w.main with
  | .starting attempt true => { w with main := .starting (attempt + 1) false }
  | .sending d rest => if d.paused then { w.submit (w.event d) with main := .sending (again d) rest } else w
  | .failing attempt true => { w.submit (failedEvent w) with main := .failing (attempt + 1) false }
  | _ => w

def resumeFlusher : Background :=
  match w.flusher with
  | .sending d => if d.paused then { w.submit (w.event d) with flusher := .sending (again d) } else w
  | _ => w

def lockFlusher : Background :=
  match w.flusher with
  | .waiting =>
      if w.pending ≠ [] then { w.submit (w.event (batch w)) with
        flusher := .sending (batch w)
        lock := some .flusher }
      else { w with flusher := .sleeping }
  | _ => w

def Main.exhausts (outcome : Outcome) : Main → Bool
  | .starting attempt false => exhausted attempt outcome
  | .sending d _ => !d.paused && exhausted d.attempt outcome
  | _ => false

def Background.fails : BackgroundStep → Bool
  | .raises => w.main matches .reading && !w.cancelled
  | .answers .main outcome => !w.cancelled && w.main.exhausts outcome
  | _ => false

/-- Nothing is pending, and an event that failed to arrive was a failure report
itself. -/
def Background.Undisturbed : Prop :=
  w.pending = [] ∧ ∀ d rest, w.main = .sending d rest → d.kind = .failed ∧ d.content = ""

def received (now : Int) (messageId : String) (event : OutputEvent) : Background :=
  if event ∈ w.submitted then
    match append env w.store now temporary id messageId event with
    | .ok store => { w with
        store
        acknowledged := event :: w.acknowledged }
    | .error _ => w
  else w

/-- Requests of others, heartbeats included: only this worker appends output to
the generation, and its record is complete before the work begins. -/
def foreign : Request → Bool
  | .append _ t i _ event => !(t == temporary && i == id) || event.sequence ≤ 0
  | .saveGeneration _ t generation _ => !(t == temporary && generation.id == id)
  | _ => true

def served (request : Request) : Background :=
  if foreign temporary id request then
    let store := w.store.step env request
    { w with
      store
      gone := w.gone || (store.generations temporary id).isNone }
  else w

def Background.step : BackgroundStep → Background
  | .yields chunk =>
      match w.main with
      | .reading =>
          if w.cancelled then w else { w with
            main := .waiting chunk
            yielded := if chunk.kind = .content then w.yielded ++ chunk.content.toList else w.yielded }
      | _ => w
  | .raises =>
      match w.main with
      | .reading => if w.cancelled then w else fail w
      | _ => w
  | .ends =>
      match w.main with
      | .reading => if w.cancelled then w else stopped w
      | _ => w
  | .locks .main =>
      match w.main with
      | .waiting chunk =>
          if w.cancelled then w
          else if w.lock = none then carryOn { w with lock := some .main } chunk.work
          else w
      | _ => w
  | .locks .flusher => if w.lock = none then lockFlusher w else w
  | .answers .main outcome => if w.cancelled then w else answerMain w outcome
  | .answers .flusher outcome => answerFlusher w outcome
  | .resumes .main => if w.cancelled then w else resumeMain w
  | .resumes .flusher => resumeFlusher w
  | .wakes =>
      match w.flusher with
      | .sleeping => { w with flusher := .waiting }
      | _ => w
  | .cancels => { w with cancelled := true }
  | .stops => if w.cancelled then stopped w else w
  | .receives now messageId event => received env temporary id w now messageId event
  | .others request => served env temporary id w request

end Galadril.Scribe
