import Galadril.Lib.Checked
import Galadril.Lib.Text
import Galadril.Lib.Table

namespace Galadril.Scribe

open Lib Lib.Checked Lib.PythonText

structure Tokens where
  accessToken : String
  refreshToken : Option String
  idToken : Option String
  expiresIn : Int
  earliestRefreshAt : Int
  scope : String
deriving DecidableEq

structure Registration where
  id : String
  clientId : String
  subject : String
  label : String
  tokens : Option Tokens
  expiresAt : Int
  quotaExhausted : Bool
  models : List String
  modelsUntil : Int
deriving DecidableEq

structure Pending where
  verifier : String
  nonce : String
  redirect : String
  registration : Option Registration

structure Identity where
  sub : String
  nonce : String
  email : Option String

/-- An answer of the token endpoint whose fields have their types, with `none`
for a field that is left out. -/
structure TokenResponse where
  accessToken : Option String
  refreshToken : Option String
  idToken : Option (Option String)
  tokenType : Option String
  expiresIn : Option Int
  earliestRefreshAt : Option Int
  scope : Option String

def directScope : String := "chatgpt.tokens.use.direct"

def Tokens.direct (tokens : Tokens) : Bool := (words tokens.scope).contains directScope

def within (least most : Nat) (value : String) : Bool := least ≤ value.length && value.length ≤ most

/-- The tokens of an answer, where the scope and the identity token fall back to
given ones. -/
def Tokens.validate (scope : String) (idToken : Option String) (r : TokenResponse) : Option Tokens := do
  let accessToken ← r.accessToken
  let expiresIn ← r.expiresIn
  let tokens : Tokens := {
    accessToken
    refreshToken := r.refreshToken
    idToken := r.idToken.getD idToken
    expiresIn
    earliestRefreshAt := r.earliestRefreshAt.getD 0
    scope := r.scope.getD scope }
  if within 1 32768 tokens.accessToken && tokens.refreshToken.all (within 0 32768) && tokens.idToken.all (within 0 32768) &&
      r.tokenType == some "Bearer" && 60 ≤ tokens.expiresIn && tokens.expiresIn ≤ 7200 && 0 ≤ tokens.earliestRefreshAt &&
      within 0 2048 tokens.scope then
    some tokens
  else none

def validOwner (owner : String) : Bool :=
  owner.length == 64 && owner.toList.all fun c => ('a' ≤ c && c ≤ 'f') || ('0' ≤ c && c ≤ '9')

def validClient (clientId : String) : Bool :=
  match Text.stripStart "oaiapp_".toList clientId.toList with
  | some rest => 1 ≤ rest.length && rest.length ≤ 240 && rest.all fun c => c.isAlphanum || c == '_' || c == '-'
  | none => false

structure PendingRow where
  state : String
  owner : String
  expires : Int
  payload : Pending

structure AccountRow where
  owner : String
  id : String
  selected : Bool
  payload : Registration
  lease : Option String
  leaseExpires : Int

abbrev AccountRow.key (r : AccountRow) : String × String := (r.owner, r.id)

structure Database where
  pending : Table PendingRow.state
  accounts : Table AccountRow.key

def Database.empty : Database := ⟨.empty, .empty⟩

def Database.registrations (db : Database) (owner : String) : List Registration :=
  (db.accounts.rows.filter (·.owner == owner)).map AccountRow.payload

def Database.accountCount (db : Database) (owner : String) : Nat := db.accounts.count (·.owner == owner)

variable (db : Database) (now : Int)

def reserve (owner state : String) (expires : Int) (payload : Pending) : Except String Database := do
  let pending := db.pending.delete fun r => decide (r.expires ≤ now) || r.owner == owner
  ensure (pending.rows.length < 128) "Too many pending sign-ins"
  ensure (payload.registration.isSome || db.accountCount owner < 4) "Account registration limit reached"
  ensure (pending.find state).isNone "Credential storage unavailable"
  return { db with pending := pending.insert ⟨state, owner, expires, payload⟩ }

/-- A sign-in is taken out, and returned unless it expired. -/
def consume (state : String) : Database × Option PendingRow :=
  ({ db with pending := db.pending.delete (·.state == state) },
    (db.pending.find state).filter fun r => decide (now < r.expires))

def unselected (accounts : Table AccountRow.key) (owner : String) : Table AccountRow.key :=
  accounts.update (·.owner == owner) (fun r => { r with selected := false }) fun _ => rfl

def publish (owner : String) (saved : Option Registration) (registration : Registration) : Except String Database := do
  ensure (saved.isSome || db.accountCount owner < 4) "Account registration limit reached"
  let accounts := unselected db.accounts owner
  let key := (owner, registration.id)
  if (accounts.find key).isSome then
    return { db with
      accounts := accounts.update (·.key == key)
        (fun r => { r with
          selected := true
          payload := registration
          lease := none
          leaseExpires := 0 })
        fun _ => rfl }
  else
    return { db with accounts := accounts.insert ⟨owner, registration.id, true, registration, none, 0⟩ }

inductive Claim
  | unavailable
  | busy
  | current (saved : Registration)
  | renewal (saved : Registration)

def claim (owner lease : String) : Except String (Database × Claim) :=
  match db.accounts.rows.find? fun r => r.owner == owner && r.selected with
  | none => .ok (db, .unavailable)
  | some row =>
      match row.payload.tokens with
      | none => .ok (db, .unavailable)
      | some tokens =>
          if row.payload.quotaExhausted || !tokens.direct then .ok (db, .unavailable)
          else if now + 60 < row.payload.expiresAt ∨ (now < tokens.earliestRefreshAt ∧ now < row.payload.expiresAt) then
            .ok (db, .current row.payload)
          else if now < tokens.earliestRefreshAt then .error "Credential renewal is not available yet"
          else if now < row.leaseExpires then .ok (db, .busy)
          else
            .ok ({ db with
              accounts := db.accounts.update (·.key == (owner, row.payload.id))
                (fun r => { r with
                  lease := some lease
                  leaseExpires := now + 30 })
                fun _ => rfl }, .renewal row.payload)

def Database.leased (owner id lease : String) : Option AccountRow :=
  (db.accounts.find (owner, id)).filter fun r => r.lease == some lease

def finish (owner : String) (registration : Registration) (lease : String) (clear : Bool) : Except String Database := do
  let row ← context (db.leased owner registration.id lease) "Account changed during renewal"
  let merged := { row.payload with
    tokens := if clear then none else registration.tokens
    expiresAt := if clear then 0 else registration.expiresAt }
  return { db with
    accounts := db.accounts.update (fun r => r.key == (owner, registration.id) && r.lease == some lease)
      (fun r => { r with
        payload := merged
        lease := none
        leaseExpires := 0 })
      fun _ => rfl }

def choose (owner registration : String) : Except String Database := do
  ensure (db.accounts.find (owner, registration)).isSome "Account registration unavailable"
  return { db with
    accounts := db.accounts.update (·.owner == owner) (fun r => { r with selected := r.id == registration }) fun _ => rfl }

def remove (owner registration : String) : Except String Database := do
  let row ← context (db.accounts.find (owner, registration)) "Account registration unavailable"
  let cleared := { row.payload with
    tokens := none
    expiresAt := 0 }
  return {
    accounts := db.accounts.update (·.key == (owner, registration))
      (fun r => { r with
        payload := cleared
        lease := none
        leaseExpires := 0 })
      fun _ => rfl
    pending := db.pending.delete (·.owner == owner) }

/-- What else is written to a registration: quota pauses and the catalog. -/
inductive Change
  | quota (exhausted : Bool)
  | catalog (models : List String) (limit : Int)

def Change.apply (saved : Registration) : Change → Registration
  | .quota exhausted => { saved with quotaExhausted := exhausted }
  | .catalog models limit => { saved with
      models := models
      modelsUntil := limit }

def update (owner registration : String) (change : Change) : Except String Database := do
  let row ← context (db.accounts.find (owner, registration)) "Account registration unavailable"
  return { db with
    accounts := db.accounts.update (·.key == (owner, registration))
      (fun r => { r with payload := change.apply row.payload }) fun _ => rfl }

end Galadril.Scribe
