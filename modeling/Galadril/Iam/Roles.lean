import Galadril.Iam.Accounts
import Galadril.Json.Value
import Galadril.Lib.Chains
import Galadril.Lib.Table

namespace Galadril.Iam

open Json Lib Lib.Checked Lib.Chains

structure RoleRow where
  name : String
  deleted : Bool
  deriving DecidableEq

structure MembershipRow where
  user : String
  role : String
  manual : Bool
  deriving DecidableEq

def MembershipRow.key (m : MembershipRow) : String × String := (m.user, m.role)

structure FederatedRow where
  user : String
  connection : String
  role : String
  deriving DecidableEq

structure ParentRow where
  role : String
  parent : String
  deriving DecidableEq

structure FederationMapping where
  externalGroup : String
  roleName : String
  deriving DecidableEq

structure FederationConfig where
  connectionId : String
  claim : String
  mappings : List FederationMapping
  enabled : Bool
  deriving DecidableEq

structure Tables where
  users : String → Option Account
  roles : Table RoleRow.name
  memberships : Table MembershipRow.key
  federated : Table (id : FederatedRow → FederatedRow)
  parents : Table ParentRow.role
  configs : Table FederationConfig.connectionId
  connections : List String
  permissionImport : Bool

variable (t : Tables)

def Tables.live (role : String) : Bool := (t.roles.find role).any fun r => !r.deleted

def Tables.tombstoned (role : String) : Bool := (t.roles.find role).any RoleRow.deleted

def Tables.activeUser (user : String) : Bool := (t.users user).any Account.current

def identifierChar (c : Char) : Bool := c.isAlphanum || c == '_' || c == '-'

def validIdentifier (value : String) : Bool :=
  !value.isEmpty && value.utf8ByteSize ≤ 64 && value.toList.all identifierChar

def roleLimit : Nat := 256

def insertRoles (roles : Table RoleRow.name) (names : List String) : Table RoleRow.name :=
  names.foldl (fun roles name => roles.insert ⟨name, false⟩) roles

def createRoles (names : List String) : Except String Tables := do
  ensure (names.length ≤ 64) "At most 64 role names can be created at once"
  ensure (names.all validIdentifier) "Invalid local identifier"
  ensure (t.roles.rows.length + (names.dedup.filter fun name => (t.roles.find name).isNone).length ≤ roleLimit)
    "This organization has reached its limit of 256 role names, including archived roles"
  ensure (!names.any t.tombstoned) "Role identifier is tombstoned and cannot be reused"
  return { t with roles := insertRoles t.roles names }

def managed (role : String) : Bool :=
  (t.configs.rows.any fun c => c.mappings.any fun m => m.roleName == role) || t.federated.rows.any fun f => f.role == role

def roleDeletionUsers (role : String) : Except String (List String) := do
  ensure (t.live role) "Role is unavailable"
  ensure (!t.parents.rows.any fun e => e.role == role || e.parent == role)
    "Remove this role's hierarchy connections before deleting it"
  ensure (!managed t role) "Remove this role's identity-provider mappings and imported assignments before deleting it"
  let users := (t.memberships.rows.filter fun m => m.role == role).map MembershipRow.user
  ensure (users.length ≤ 100) "Remove role assignments before deleting a role with more than 100 members"
  return users

def deleteRole (role : String) : Except String Tables := do
  let _ ← roleDeletionUsers t role
  return { t with
    memberships := t.memberships.delete fun m => m.role == role
    roles := t.roles.update (fun r => r.name == role) (fun r => { r with deleted := true }) fun _ => rfl }

/-- A role by hand, on top of what the identity provider says. -/
def assignMembership (user role : String) : Except String Tables := do
  ensure (t.activeUser user && t.live role) "Active user and role are required for assignment"
  return { t with memberships := (t.memberships.update (fun m => m.key == (user, role)) (fun m => { m with manual := true })
      fun _ => rfl).insert ⟨user, role, true⟩ }

def unassignMembership (user role : String) : Except String Tables := do
  ensure (!t.federated.rows.any fun f => f.user == user && f.role == role)
    "This role is managed by your identity provider; change its group mapping first"
  return { t with memberships := t.memberships.delete fun m => m.key == (user, role) }

def setMembership (user role : String) (enabled : Bool) : Except String Tables :=
  if enabled then assignMembership t user role else unassignMembership t user role

def parentsOf (role : String) : List String := (t.parents.rows.filter fun e => e.role == role).map ParentRow.parent

def childrenOf (role : String) : List String := (t.parents.rows.filter fun e => e.parent == role).map ParentRow.role

def levelLimit : Nat := 16

def insertParent (role parent : String) : Except String Tables := do
  ensure (role != parent) "A role cannot inherit itself"
  ensure (t.live role && t.live parent) "Both roles must exist in this organization"
  ensure (!t.parents.rows.any fun e => e.role == role && e.parent != parent)
    "Remove the existing parent role before choosing another"
  ensure (!reaches (parentsOf t) t.parents.rows.length [parent] role) "Role hierarchy cannot contain a cycle"
  ensure (depth (parentsOf t) t.parents.rows.length [parent] + depth (childrenOf t) t.parents.rows.length [role] + 1 ≤ levelLimit)
    "Role hierarchy must contain at most 16 levels"
  return { t with parents := t.parents.insert ⟨role, parent⟩ }

def removeParent (role parent : String) : Except String Tables := do
  ensure (role != parent) "A role cannot inherit itself"
  return { t with parents := t.parents.delete fun e => e.role == role && e.parent == parent }

def setParent (role parent : String) (enabled : Bool) : Except String Tables :=
  if enabled then insertParent t role parent else removeParent t role parent

def isControl (c : Char) : Bool := c.toNat < 32 || (127 ≤ c.toNat && c.toNat < 160)

def dotted : List Char → List (List Char)
  | [] => [[]]
  | c :: rest =>
      match dotted rest with
      | [] => [[]]
      | first :: others => if c = '.' then [] :: first :: others else (c :: first) :: others

def claimPath (claim : String) : List String := (dotted claim.toList).map String.ofList

def reservedRoles : List String := ["admin", "administrator", "owner", "organization_admin"]

def FederationMapping.valid (m : FederationMapping) : Except String Unit := do
  ensure (!m.externalGroup.isEmpty && m.externalGroup.utf8ByteSize ≤ 256 && !m.externalGroup.toList.any isControl)
    "External group names must contain between 1 and 256 printable characters"
  ensure (validIdentifier m.roleName) "Choose a role belonging to this organization"
  ensure (!reservedRoles.contains (m.roleName.map Char.toLower))
    "Organization administrator roles cannot be assigned by identity-provider synchronization"

def FederationConfig.validate (c : FederationConfig) : Except String Unit := do
  ensure (!c.connectionId.isEmpty && c.connectionId.utf8ByteSize ≤ 2048 && !c.connectionId.toList.any isControl)
    "Choose a valid sign-in connection"
  ensure (!c.claim.isEmpty && c.claim.utf8ByteSize ≤ 128 && (claimPath c.claim).length ≤ 4 &&
    (claimPath c.claim).all fun part => !part.isEmpty && part.toList.all identifierChar) "Choose a valid groups or roles claim"
  ensure (c.mappings.length ≤ 64 && (!c.enabled || !c.mappings.isEmpty))
    "Configure between 1 and 64 group mappings before enabling synchronization"
  let _ ← c.mappings.mapM FederationMapping.valid

def claimedGroups (claim : String) (profile : Value) : Option (List Value) :=
  ((claimPath claim).foldlM (fun (value : Value) part => value.get part) profile).bind Value.asArray

def validGroup (group : Value) : Bool :=
  group.asStr.any fun value => !value.isEmpty && value.utf8ByteSize ≤ 256 && !value.toList.any isControl

def mappedRoles (groups : List Value) : List FederationMapping → List String → List String
  | [], desired => desired
  | m :: rest, desired =>
      if (groups.any fun group => group.asStr == some m.externalGroup) && !desired.contains m.roleName then
        mappedRoles groups rest (desired ++ [m.roleName])
      else mappedRoles groups rest desired

def desiredRoles (c : FederationConfig) (profile : Value) : Except String (List String) := do
  c.validate
  if c.enabled = false then return []
  else do
    let groups ← context (claimedGroups c.claim profile) "The identity provider did not return the configured groups claim"
    ensure (groups.length ≤ 256) "The identity provider returned too many groups"
    ensure (groups.all validGroup) "The identity provider returned an invalid groups claim"
    return mappedRoles groups c.mappings []

def configure (c : FederationConfig) : Except String Tables := do
  c.validate
  ensure (!c.enabled || t.permissionImport)
    "Enable permission import for this organization before enabling role synchronization"
  ensure (t.connections.contains c.connectionId) "Choose an active sign-in connection belonging to this organization"
  ensure (c.mappings.all fun m => t.live m.roleName)
    "Create the selected organization role before mapping an external group"
  return { t with configs := (t.configs.delete fun old => old.connectionId == c.connectionId).insert c }

def configureApprovedRoles (c : FederationConfig) : Except String Tables := do
  c.validate
  let t ← createRoles t (c.mappings.map FederationMapping.roleName)
  configure t c

def importRole (user connection : String) (t : Tables) (role : String) : Except String Tables := do
  ensure (t.live role) "A mapped role was removed; ask an organization administrator to update the mapping"
  ensure ((t.memberships.find (user, role)).isSome || (t.users user).isSome) "foreign key"
  return { t with
    memberships := t.memberships.insert ⟨user, role, false⟩
    federated := t.federated.insert ⟨user, connection, role⟩ }

def dropFederated (user connection : String) (desired : List String) : Tables :=
  { t with federated := t.federated.delete fun f => f.user == user && f.connection == connection && !desired.contains f.role }

def orphaned (user : String) (m : MembershipRow) : Bool :=
  m.user == user && !m.manual && !t.federated.rows.any fun f => f.user == user && f.role == m.role

def dropOrphans (user : String) : Tables := { t with memberships := t.memberships.delete (orphaned t user) }

/-- What a sign-in does to the tables, with the roles that it takes away and
the roles that it gives. -/
structure Reconciled where
  tables : Tables
  revoked : List String
  desired : List String

def reconcile (user connection : String) (profile : Value) (writer : Bool) : Except String (Option Reconciled) :=
  match t.configs.find connection with
  | none => .ok none
  | some c =>
      if (c.enabled && t.permissionImport) = false then .ok none
      else do
        let desired ← desiredRoles c profile
        ensure writer "Identity-provider role synchronization is not available"
        let dropped := dropFederated t user connection desired
        let revoked := (dropped.memberships.rows.filter (orphaned dropped user)).map MembershipRow.role
        let t ← desired.foldlM (importRole user connection) (dropOrphans dropped user)
        return some ⟨t, revoked, desired⟩

end Galadril.Iam
