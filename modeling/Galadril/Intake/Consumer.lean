import Galadril.Lib.Checked
import Galadril.Lib.Transitions

namespace Galadril.Intake

open Lib.Checked Lib.Transitions

/-- An uploaded object as the ingestion service receives it. -/
structure FileEvent where
  bucket : String
  key : String
  size : Int
  eTag : String
  contentType : String
  eventName : String
  receivedAt : Int

/-- One entry of an object-store notification. -/
structure S3EventRecord where
  eventName : String
  eventTime : Option Int
  bucket : String
  key : String
  size : Option Int
  eTag : String
  contentType : String

variable (decode : String → Option String)

def segments (c : Char) (text : String) : List (List Char) := text.toList.splitOn c

def traverses (key : String) : Bool := key.toList.head? == some '/' || (segments '/' key).any (· == ['.', '.'])

def isCreation (eventName : String) : Bool := "s3:ObjectCreated".toList.isPrefixOf eventName.toList

/-- lakeFS writes share the notification bridge but are not raw inputs. -/
def isInternal (key : String) : Bool := (segments '/' key).any (· == "_lakefs".toList)

def fileEvent (now : Int) (key : String) (record : S3EventRecord) : FileEvent :=
  ⟨record.bucket, key, record.size.getD 0, record.eTag, record.contentType, record.eventName, record.eventTime.getD now⟩

def handleRecord (process : FileEvent → Except String Unit) (now : Int) (errors : List String) (record : S3EventRecord) :
    List String :=
  let key := (decode record.key).getD record.key
  if !isCreation record.eventName then errors
  else if isInternal key then errors
  else if traverses key then errors ++ [s!"Path traversal attempt detected in key: {key}"]
  else
    match process (fileEvent now key record) with
    | .ok _ => errors
    | .error e => errors ++ [e]

def handleMessage (parse : List UInt8 → Option (List S3EventRecord)) (process : FileEvent → Except String Unit)
    (now : Int) (payload : List UInt8) : Except String Unit := do
  let records ← context (parse payload) "Failed to deserialize S3 event notification"
  let errors := records.foldl (handleRecord decode process now) []
  ensure errors.isEmpty s!"Batch processing failures: {errors}"

/-- What the environment does next: the stream fails, the next message of the
partition arrives and its records and its commit meet the given outcomes, or
the consumer restarts. -/
inductive Event
  | streamFailed
  | received (process : FileEvent → Except String Unit) (now : Int) (commits : Bool)
  | restarted

/-- A consumer of one partition. The last two fields only record what happened:
the messages handled successfully so far, and whether one of this session was
left behind. -/
structure Consumer where
  position : Nat
  committed : Nat
  handled : List Nat
  leftBehind : Bool

def Consumer.fresh : Consumer := ⟨0, 0, [], false⟩

variable (parse : List UInt8 → Option (List S3EventRecord))
variable (log : List (Option (List UInt8)))

/-- One turn of the loop. Committing message n sets the offset to n + 1. -/
def Consumer.step (c : Consumer) : Event → Consumer
  | .streamFailed => c
  | .restarted => { c with position := c.committed, leftBehind := false }
  | .received process now commits =>
      match log[c.position]? with
      | none => c
      | some none => { c with position := c.position + 1, leftBehind := true }
      | some (some payload) =>
          match handleMessage decode parse process now payload with
          | .error _ => { c with position := c.position + 1, leftBehind := true }
          | .ok _ =>
              { c with
                position := c.position + 1
                committed := if commits then c.position + 1 else c.committed
                handled := c.position :: c.handled }

def Orderly (c : Consumer) : Event → Prop
  | .received process now commits => ∀ payload, log[c.position]? = some (some payload) →
      handleMessage decode parse process now payload = .ok () → commits = true → c.leftBehind = false
  | _ => True

/-- Everything below the committed offset was handled, and so was everything
this session passed unless it left something behind. -/
structure Accounted (c : Consumer) : Prop where
  below : ∀ n < c.committed, n ∈ c.handled
  passed : c.leftBehind = false → ∀ n < c.position, n ∈ c.handled

theorem Accounted.step {c : Consumer} (h : Accounted c) {e : Event} (ho : Orderly decode parse log c e) :
    Accounted (c.step decode parse log e) := by
  cases e with
  | streamFailed => exact h
  | restarted => exact ⟨h.below, fun _ => h.below⟩
  | received process now commits =>
      simp only [Consumer.step]
      split
      · exact h
      · exact ⟨h.below, fun hb => by cases hb⟩
      · next payload hlog =>
          split
          · exact ⟨h.below, fun hb => by cases hb⟩
          · next hok =>
              have hpassed : c.leftBehind = false → ∀ n < c.position + 1, n ∈ c.position :: c.handled := by
                intro hl n hn
                rcases Nat.lt_succ_iff_lt_or_eq.mp hn with hn | rfl
                · exact List.mem_cons_of_mem _ (h.passed hl n hn)
                · exact List.mem_cons_self
              refine ⟨fun n hn => ?_, hpassed⟩
              cases commits with
              | false => exact List.mem_cons_of_mem _ (h.below n hn)
              | true => exact hpassed (ho payload hlog hok rfl) n hn

/-- As long as no session commits past a message it left behind, every message
below the committed offset was handled successfully. -/
theorem committed_handled (events : List Event)
    (h : Along (Consumer.step decode parse log) (Orderly decode parse log) .fresh events) :
    ∀ n < (run (Consumer.step decode parse log) .fresh events).committed,
      n ∈ (run (Consumer.step decode parse log) .fresh events).handled := by
  have hstart : Accounted Consumer.fresh := ⟨fun n hn => absurd hn (Nat.not_lt_zero n), fun _ n hn => absurd hn (Nat.not_lt_zero n)⟩
  exact (run_invariant (fun c e hc ho => hc.step decode parse log ho) hstart h).below

def sampleParse (payload : List UInt8) : Option (List S3EventRecord) :=
  if payload = [123, 34, 82, 101, 99, 111, 114, 100, 115, 34, 58, 91, 93, 125] then some [] else none

def notification : List UInt8 := [123, 34, 82, 101, 99, 111, 114, 100, 115, 34, 58, 91, 93, 125]

def deliver : Event := .received (fun _ => .ok ()) 0 true

def sampleRun (log : List (Option (List UInt8))) (events : List Event) : Consumer :=
  run (Consumer.step some sampleParse log) .fresh events

theorem committed_handled_restart :
    (sampleRun [some notification, some [120]] [deliver, deliver, .restarted]).committed = 1 ∧
    ∀ n < (sampleRun [some notification, some [120]] [deliver, deliver, .restarted]).committed,
      n ∈ (sampleRun [some notification, some [120]] [deliver, deliver, .restarted]).handled :=
  ⟨by decide, committed_handled some sampleParse [some notification, some [120]] [deliver, deliver, .restarted]
    ⟨fun _ _ _ _ => rfl, fun _ _ _ _ => rfl, trivial, trivial⟩⟩

/-- The offset moves past a message that failed as soon as a later one
succeeds. -/
theorem failed_message_dropped :
    (sampleRun [some [120], some notification] [deliver, deliver]).committed = 2 ∧
      0 ∉ (sampleRun [some [120], some notification] [deliver, deliver]).handled := by
  decide

end Galadril.Intake
