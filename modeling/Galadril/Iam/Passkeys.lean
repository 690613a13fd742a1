import Galadril.Iam.Roles

namespace Galadril.Iam

open Lib Lib.Checked

structure PasskeyState where
  tenant : String
  user : String
  generation : Int
  deriving DecidableEq

def PasskeyState.owner (r : PasskeyState) : String × String := (r.tenant, r.user)

structure Passkey where
  tenant : String
  user : String
  credentialId : String
  publicKey : List UInt8
  counter : Int
  transports : List String
  deviceType : String
  backedUp : Bool
  enrolled : Int
  deriving DecidableEq

def Passkey.owner (r : Passkey) : String × String := (r.tenant, r.user)

/-- A stored challenge. The serial tells storages apart. -/
structure PasskeyChallenge where
  flow : String
  tenant : String
  user : String
  generation : Int
  challenge : String
  operation : String
  expiresAt : Int
  serial : Nat
  deriving DecidableEq

structure Challenge where
  generation : Int
  challenge : String
  operation : String

structure Credential where
  id : String
  publicKey : String
  counter : Int
  transports : List String
  deviceType : String
  backedUp : Bool

structure Returned where
  row : PasskeyChallenge
  time : Int

structure Passkeys where
  active : String → String → Bool
  mandatory : String → Bool
  states : Table PasskeyState.owner
  keys : Table Passkey.owner
  challenges : Table PasskeyChallenge.flow
  stored : Nat
  returned : List Returned

variable (s : Passkeys)

def Passkeys.generation (tenant user : String) : Option Int := (s.states.find (tenant, user)).map PasskeyState.generation

def belongs (tenant user : String) (owner : String × String) : Bool := owner == (tenant, user)

def passkeyContext (tenant user : String) : Except String (Passkeys × Option (Int × List Passkey)) := do
  ensure (validIdentifier user && validIdentifier tenant) "Invalid identity reference"
  ensure (s.active tenant user) "no rows returned"
  if s.mandatory tenant = false then return (s, none)
  else do
    let s := { s with states := s.states.insert ⟨tenant, user, 0⟩ }
    let generation ← context (s.generation tenant user) "no rows returned"
    return (s, some (generation, s.keys.rows.filter fun k => belongs tenant user k.owner))

def lock (tenant user : String) (expected : Int) : Except String Unit := do
  ensure (0 ≤ expected && expected ≤ 9007199254740991) "Invalid generation"
  ensure (s.active tenant user && s.mandatory tenant) "no rows returned"
  let generation ← context (s.generation tenant user) "no rows returned"
  ensure (generation == expected) "Credential generation changed"

def storeChallenge (now : Int) (tenant user flow : String) (value : Challenge) : Except String Passkeys := do
  ensure (flow.utf8ByteSize == 43 && value.challenge.utf8ByteSize ≤ 1024 &&
    (value.operation == "registration" || value.operation == "authentication")) "Invalid challenge"
  ensure (validIdentifier tenant) "Invalid identity reference"
  lock s tenant user value.generation
  let kept := s.challenges.delete fun c => c.tenant == tenant && c.expiresAt ≤ now
  let row : PasskeyChallenge :=
    ⟨flow, tenant, user, value.generation, value.challenge, value.operation, now + 300000, s.stored⟩
  match kept.find flow with
  | none => return { s with challenges := kept.insert row, stored := s.stored + 1 }
  | some old => do
      ensure (old.tenant == tenant && old.user == user) "Challenge binding changed"
      return { s with challenges := (kept.delete fun c => c.flow == flow).insert row, stored := s.stored + 1 }

def consume (now : Int) (tenant user flow : String) : Except String (Passkeys × PasskeyChallenge) := do
  ensure (validIdentifier tenant) "Invalid identity reference"
  let row ← context ((s.challenges.find flow).filter fun c => c.tenant == tenant && c.user == user && now < c.expiresAt)
    "no rows returned"
  return ({ s with challenges := s.challenges.delete fun c => c.flow == flow, returned := s.returned ++ [⟨row, now⟩] }, row)

variable (decode : String → Option (List UInt8))

def save (tenant user : String) (generation : Int) (value : Credential) (previous : Option Int) : Except String Passkeys := do
  ensure (!value.id.isEmpty && value.id.utf8ByteSize ≤ 2048 && 0 ≤ value.counter && value.counter ≤ 4294967295)
    "Invalid credential"
  ensure (validIdentifier tenant) "Invalid identity reference"
  lock s tenant user generation
  match previous with
  | some previous => do
      ensure (s.keys.rows.any fun k => belongs tenant user k.owner && k.credentialId == value.id && k.counter == previous)
        "Credential changed"
      let keys := s.keys.update (fun k => belongs tenant user k.owner && k.credentialId == value.id && k.counter == previous)
        (fun k => { k with counter := value.counter, backedUp := value.backedUp }) fun _ => rfl
      return { s with keys := keys }
  | none => do
      ensure (!s.keys.rows.any fun k => belongs tenant user k.owner) "Credential already enrolled"
      let key ← context (decode value.publicKey) "Invalid public key"
      ensure (!key.isEmpty && key.length ≤ 8192 && value.transports.length ≤ 8) "Invalid public key"
      ensure (value.deviceType == "singleDevice" || value.deviceType == "multiDevice") "check constraint"
      ensure (!s.keys.rows.any fun k => k.credentialId == value.id) "duplicate key"
      let row : Passkey :=
        ⟨tenant, user, value.id, key, value.counter, value.transports, value.deviceType, value.backedUp, generation⟩
      return { s with keys := s.keys.insert row }

def renewState (states : Table PasskeyState.owner) (tenant user : String) : Table PasskeyState.owner :=
  match states.find (tenant, user) with
  | none => states.insert ⟨tenant, user, 1⟩
  | some _ => states.update (fun r => belongs tenant user r.owner) (fun r => { r with generation := r.generation + 1 }) fun _ => rfl

def resetPasskeys (tenant user : String) : Except String Passkeys := do
  ensure (s.active tenant user) "Active tenant account required"
  return { s with
    states := renewState s.states tenant user
    keys := s.keys.delete fun k => belongs tenant user k.owner
    challenges := s.challenges.delete fun c => c.tenant == tenant && c.user == user }

def sessionAllowed (tenant user : String) (assurance : Option String) (generation : Option Int) : Bool :=
  s.active tenant user && (!s.mandatory tenant || (assurance == some "urn:galadril:webauthn:uv" &&
    generation.isSome && s.generation tenant user == generation && s.keys.rows.any fun k => belongs tenant user k.owner))

end Galadril.Iam
