import Galadril.Lib.Sha256
import Galadril.Lib.Transitions
import Galadril.Scribe.Accounts

namespace Galadril.Scribe

open Lib Lib.Checked Lib.PythonText Lib.Transitions

def hashOf (state : String) : String := Sha256.sha256 (state.toList.flatMap String.utf8EncodeChar)

inductive Call
  | reading (owner redirect registration : String) (issued : Nat)
  | reserving (owner redirect : String) (saved : Option Registration) (issued : Nat)
  | exchanging (state owner clientId : String) (pending : Pending)
  | publishing (state owner : String) (saved : Option Registration) (registration : Registration)
  | accessing (owner lease : String)
  | renewing (owner : String) (saved : Registration) (lease : String) (claimed : Nat)
  | ending (owner : String) (saved registration : Registration) (lease : String) (clear retry : Bool) (claimed : Nat)

/-- What the transactions of an installation have done. -/
inductive Event
  | begun (owner : String) (registration : Option String)
  | launched (state : String) (issued : Nat)
  | consumed (state : String)
  | published (state owner id : String)
  | renewed (owner id : String)
  | disconnected (owner id : String)
deriving DecidableEq

inductive Answer
  | tokens (response : TokenResponse)
  | invalidGrant
  | failed

structure Accounts where
  db : Database
  now : Int
  calls : Nat → Option Call
  /-- Random values handed out so far. -/
  drawn : List String
  steps : Nat
  log : List (Nat × Event)

def Accounts.start (now : Int) : Accounts := ⟨.empty, now, fun _ => none, [], 0, []⟩

/-- One transaction or answer of the provider. Values that the code draws at
random are part of the step. -/
inductive Step
  | wait (seconds : Nat)
  | begins (call : Nat) (owner redirect : String) (registration : Option String)
  | reads (call : Nat)
  | reserves (call : Nat) (verifier state nonce : String)
  | consumes (call : Nat) (state : String) (code clientId error : Option String)
  | exchanged (call : Nat) (response : TokenResponse) (identity : Option Identity)
  | publishes (call : Nat) (id : String)
  | accesses (call : Nat) (owner lease : String)
  | claims (call : Nat)
  | renewed (call : Nat) (answer : Answer)
  | endsLease (call : Nat) (stored : Bool)
  | selects (owner registration : String)
  | disconnects (owner registration : String)
  | updates (owner registration : String) (change : Change)
  | raises (call : Nat)

variable (loopback : String → Bool) (w : Accounts)

def Accounts.set (k : Nat) (call : Option Call) : Accounts := { w with calls := Function.update w.calls k call }

def Accounts.record (event : Event) : Accounts := { w with log := (w.steps, event) :: w.log }

def begin (k : Nat) (owner redirect : String) (registration : Option String) : Accounts :=
  if (w.calls k).isNone && validOwner owner && loopback redirect then
    (w.record (.begun owner registration)).set k (some (match registration with
      | some registration => .reading owner redirect registration w.steps
      | none => .reserving owner redirect none w.steps))
  else w

def readSaved (k : Nat) (owner redirect registration : String) (issued : Nat) : Accounts :=
  match (w.db.registrations owner).find? (·.id == registration) with
  | some saved => w.set k (some (.reserving owner redirect (some saved) issued))
  | none => w.set k none

def reserved (k : Nat) (owner redirect : String) (saved : Option Registration) (issued : Nat)
    (verifier state nonce : String) : Accounts :=
  let w := { w with drawn := hashOf state :: w.drawn }
  let pending : Pending := {
    verifier
    nonce
    redirect
    registration := saved }
  match reserve w.db w.now owner (hashOf state) (w.now + 300) pending with
  | .ok db => ({ w with db }.record (.launched (hashOf state) issued)).set k none
  | .error _ => w.set k none

def granted (pending : Pending) (code clientId error : Option String) : Option String :=
  let saved := pending.registration
  let issued := (clientId.filter (· ≠ "")).getD ((saved.map Registration.clientId).getD "")
  if error.isNone && code.any (within 1 8192) && validClient issued && saved.all (issued == ·.clientId) then some issued
  else none

def consumed (k : Nat) (state : String) (code clientId error : Option String) : Accounts :=
  if (w.calls k).isNone && within 32 256 state then
    let result := consume w.db w.now (hashOf state)
    let w := { w with db := result.1 }
    match result.2 with
    | none => w
    | some row => (w.record (.consumed (hashOf state))).set k
        ((granted row.payload code clientId error).map fun issued => .exchanging (hashOf state) row.owner issued row.payload)
  else w

/-- The registration that an exchange yields; a new one is named on publication. -/
def connected (now : Int) (clientId : String) (pending : Pending) (response : TokenResponse) (identity : Option Identity) :
    Option Registration := do
  let tokens ← Tokens.validate "" none response
  let _ ← tokens.idToken
  let claims ← identity
  if claims.nonce == pending.nonce && pending.registration.all (claims.sub == ·.subject) then
    some {
      id := (pending.registration.map Registration.id).getD ""
      clientId
      subject := claims.sub
      label := (claims.email.filter (· ≠ "")).getD "ChatGPT account"
      tokens := some tokens
      expiresAt := now + tokens.expiresIn
      quotaExhausted := false
      models := []
      modelsUntil := 0 }
  else none

def exchanged (k : Nat) (state owner clientId : String) (pending : Pending) (response : TokenResponse)
    (identity : Option Identity) : Accounts :=
  w.set k ((connected w.now clientId pending response identity).map (.publishing state owner pending.registration))

def named (saved : Option Registration) (registration : Registration) (id : String) : Registration :=
  if saved.isSome then registration else { registration with id }

def published (k : Nat) (state owner : String) (saved : Option Registration) (registration : Registration) (id : String) :
    Accounts :=
  let w := { w with drawn := id :: w.drawn }
  let registration := named saved registration id
  match publish w.db owner saved registration with
  | .ok db => ({ w with db }.record (.published state owner registration.id)).set k none
  | .error _ => w.set k none

def access (k : Nat) (owner lease : String) : Accounts :=
  if (w.calls k).isNone && validOwner owner then
    { w with drawn := lease :: w.drawn }.set k (some (.accessing owner lease))
  else w

def claimed (k : Nat) (owner lease : String) : Accounts :=
  match claim w.db w.now owner lease with
  | .ok (_, .unavailable) => w.set k none
  | .ok (_, .busy) => w
  | .ok (_, .current _) => w.set k none
  | .ok (db, .renewal saved) =>
      if (saved.tokens.bind Tokens.refreshToken).isSome then
        { w with db }.set k (some (.renewing owner saved lease w.steps))
      else { w with db }.set k (some (.ending owner saved saved lease true false w.steps))
  | .error _ => w.set k none

/-- How a renewal ends for an answer of the provider. Only new tokens that could
not be stored are given up for the old ones. -/
def renewal (now : Int) (owner : String) (saved : Registration) (lease : String) (claimedAt : Nat) : Answer → Call
  | .invalidGrant => .ending owner saved saved lease true false claimedAt
  | .failed => .ending owner saved saved lease false false claimedAt
  | .tokens response =>
      match saved.tokens.bind fun old => Tokens.validate old.scope old.idToken response with
      | none => .ending owner saved saved lease false false claimedAt
      | some tokens =>
          if tokens.refreshToken.isNone || !tokens.direct then .ending owner saved saved lease true false claimedAt
          else
            let renewed := { saved with
              tokens := some tokens
              expiresAt := now + tokens.expiresIn }
            .ending owner saved renewed lease false true claimedAt

def ended (k : Nat) (owner : String) (saved registration : Registration) (lease : String) (clear retry : Bool)
    (claimedAt : Nat) (stored : Bool) : Accounts :=
  match finish w.db owner registration lease clear, stored with
  | .ok db, true => ({ w with db }.record (.renewed owner registration.id)).set k none
  | _, _ => w.set k (if retry then some (.ending owner saved saved lease false false claimedAt) else none)

def select (owner registration : String) : Accounts :=
  match choose w.db owner registration with
  | .ok db => { w with db }
  | .error _ => w

def disconnect (owner registration : String) : Accounts :=
  match remove w.db owner registration with
  | .ok db => { w with db }.record (.disconnected owner registration)
  | .error _ => w

def updated (owner registration : String) (change : Change) : Accounts :=
  match update w.db owner registration change with
  | .ok db => { w with db }
  | .error _ => w

def perform : Step → Accounts
  | .wait seconds => { w with now := w.now + seconds }
  | .begins k owner redirect registration => begin loopback w k owner redirect registration
  | .reads k =>
      match w.calls k with
      | some (.reading owner redirect registration issued) => readSaved w k owner redirect registration issued
      | _ => w
  | .reserves k verifier state nonce =>
      match w.calls k with
      | some (.reserving owner redirect saved issued) => reserved w k owner redirect saved issued verifier state nonce
      | _ => w
  | .consumes k state code clientId error => consumed w k state code clientId error
  | .exchanged k response identity =>
      match w.calls k with
      | some (.exchanging state owner clientId pending) => exchanged w k state owner clientId pending response identity
      | _ => w
  | .publishes k id =>
      match w.calls k with
      | some (.publishing state owner saved registration) => published w k state owner saved registration id
      | _ => w
  | .accesses k owner lease => access w k owner lease
  | .claims k =>
      match w.calls k with
      | some (.accessing owner lease) => claimed w k owner lease
      | _ => w
  | .renewed k answer =>
      match w.calls k with
      | some (.renewing owner saved lease claimedAt) => w.set k (some (renewal w.now owner saved lease claimedAt answer))
      | _ => w
  | .endsLease k stored =>
      match w.calls k with
      | some (.ending owner saved registration lease clear retry claimedAt) =>
          ended w k owner saved registration lease clear retry claimedAt stored
      | _ => w
  | .selects owner registration => select w owner registration
  | .disconnects owner registration => disconnect w owner registration
  | .updates owner registration change => updated w owner registration change
  | .raises k => w.set k none

def Accounts.tick : Accounts := { w with steps := w.steps + 1 }

def Accounts.step (e : Step) : Accounts := (perform loopback w e).tick

end Galadril.Scribe
