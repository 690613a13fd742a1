import Galadril.Lib.Checked
import Galadril.Lib.Transitions

namespace Galadril.Iam

open Lib.Checked

structure Account where
  active : Bool
  deleted : Bool
  deriving DecidableEq

def Account.current (a : Account) : Bool := a.active && !a.deleted

/-- The accounts and role assignments of a tenant, with its live roles, next to
the relations that the authorization service holds about its users. -/
structure Stores where
  users : String → Option Account
  assigned : List (String × String)
  liveRoles : List String
  member : String → Bool
  administrator : String → Bool
  roleMember : String → String → Bool

def Stores.active (s : Stores) (user : String) : Bool := (s.users user).any Account.current

def Stores.withUser (s : Stores) (user : String) (account : Account) : Stores :=
  { s with users := Function.update s.users user (some account) }

def Stores.withMember (s : Stores) (user : String) (enabled : Bool) : Stores :=
  { s with member := Function.update s.member user enabled }

def Stores.withoutAdministrator (s : Stores) (user : String) : Stores :=
  { s with administrator := Function.update s.administrator user false }

def Stores.withRole (s : Stores) (role user : String) (enabled : Bool) : Stores :=
  { s with roleMember := fun r u => if r = role ∧ u = user then enabled else s.roleMember r u }

def setUserGuarded (s : Stores) (actor user : String) (active upsert : Bool) : Except String Stores := do
  ensure (active || actor != user) "You cannot suspend or delete your own account"
  ensure (s.active actor) "An active administrator must perform this operation"
  ensure (match s.users user with
    | some account => !account.deleted
    | none => upsert) "User is unavailable or its identifier cannot be reused"
  return s.withUser user ⟨active, false⟩

def assignRole (s : Stores) (user role : String) : Except String Stores := do
  ensure (s.active user && s.liveRoles.contains role) "Active user and role are required for assignment"
  return { s with assigned := if (user, role) ∈ s.assigned then s.assigned else (user, role) :: s.assigned }

def roleNamesForUser (s : Stores) (user : String) : List String :=
  ((s.assigned.filter fun row => row.1 == user).map Prod.snd).filter s.liveRoles.contains

def deleteUser (s : Stores) (user : String) : Except String Stores := do
  ensure ((s.users user).any fun account => !account.deleted) "User is unavailable"
  return { s.withUser user ⟨false, true⟩ with assigned := s.assigned.filter fun row => row.1 != user }

inductive Call
  | createUser (actor user : String) (active : Bool)
  | updateUser (actor user : String) (active : Bool)
  | deleteUser (actor user : String)
  | assignRoleToUser (actor user role : String)

def Call.actor : Call → String
  | .createUser actor _ _ | .updateUser actor _ _ | .deleteUser actor _ | .assignRoleToUser actor _ _ => actor

def Call.user : Call → String
  | .createUser _ user _ | .updateUser _ user _ | .deleteUser _ user | .assignRoleToUser _ user _ => user

/-- How far a call got. After its first commit, a deletion removes the role
relations that it read, the member relation and the administrator relation,
and ends with the tombstone. -/
inductive Stage
  | authorized
  | written
  | revoking (roles : List String)
  | demoting
  | removing
  | finished
  | failed

/-- Between a call's first commit and its last step. -/
def Stage.pending : Stage → Bool
  | .authorized | .finished | .failed => false
  | _ => true

def Call.write (s : Stores) : Call → Except String Stores
  | .createUser actor user active => setUserGuarded s actor user active true
  | .updateUser actor user active => setUserGuarded s actor user active false
  | .deleteUser actor user => setUserGuarded s actor user false false
  | .assignRoleToUser _ user role => assignRole s user role

def commit (s : Stores) (next : Stage) : Except String Stores → Stores × Stage
  | .ok s' => (s', next)
  | .error _ => (s, .failed)

def Call.advance (s : Stores) : Call → Stage → Stores × Stage
  | call, .authorized => commit s .written (call.write s)
  | .createUser _ user active, .written | .updateUser _ user active, .written => (s.withMember user active, .finished)
  | .assignRoleToUser _ user role, .written => (s.withRole role user true, .finished)
  | .deleteUser _ user, .written => (s, .revoking (roleNamesForUser s user))
  | .deleteUser _ user, .revoking (role :: roles) => (s.withRole role user false, .revoking roles)
  | .deleteUser _ user, .revoking [] => (s.withMember user false, .demoting)
  | .deleteUser _ user, .demoting => (s.withoutAdministrator user, .removing)
  | .deleteUser _ user, .removing => commit s .finished (Iam.deleteUser s user)
  | _, stage => (s, stage)

structure State where
  stores : Stores
  calls : List (Call × Stage)

/-- A caller is authorized, or a call takes its next step. A call that is
interrupted takes no further steps. -/
inductive Event
  | authorized (call : Call)
  | advanced (index : Nat)

def State.step (s : State) : Event → State
  | .authorized call =>
      if s.stores.administrator call.actor && s.stores.active call.actor then
        { s with calls := s.calls ++ [(call, .authorized)] }
      else s
  | .advanced i =>
      match s.calls[i]? with
      | some (call, stage) => ⟨(call.advance s.stores stage).1, s.calls.set i (call, (call.advance s.stores stage).2)⟩
      | none => s

variable {s s' : Stores} {actor user : String} {active upsert : Bool}

theorem setUserGuarded_eq_ok (h : setUserGuarded s actor user active upsert = .ok s') :
    s' = s.withUser user ⟨active, false⟩ ∧ s.active actor = true ∧ (active = true ∨ actor ≠ user) ∧
      ∀ account, s.users user = some account → account.deleted = false := by
  simp only [setUserGuarded, bind_eq_ok, ensure_eq_ok, pure_eq_ok, Bool.or_eq_true, bne_iff_ne] at h
  obtain ⟨_, hself, _, hactor, _, hrow, rfl⟩ := h
  refine ⟨rfl, hactor, hself, fun account ha => ?_⟩
  rw [ha] at hrow
  simpa using hrow

theorem assignRole_eq_ok {role : String} (h : assignRole s user role = .ok s') :
    s.active user = true ∧ role ∈ s.liveRoles ∧
      s' = { s with assigned := if (user, role) ∈ s.assigned then s.assigned else (user, role) :: s.assigned } := by
  simp only [assignRole, bind_eq_ok, ensure_eq_ok, pure_eq_ok, Bool.and_eq_true, List.contains_iff_mem] at h
  obtain ⟨_, ⟨hactive, hlive⟩, rfl⟩ := h
  exact ⟨hactive, hlive, rfl⟩

theorem deleteUser_eq_ok (h : deleteUser s user = .ok s') :
    s' = { s.withUser user ⟨false, true⟩ with assigned := s.assigned.filter fun row => row.1 != user } := by
  simp only [deleteUser, bind_eq_ok, ensure_eq_ok, pure_eq_ok] at h
  obtain ⟨_, _, rfl⟩ := h
  rfl

end Galadril.Iam
