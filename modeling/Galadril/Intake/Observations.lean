import Galadril.Intake.Consumer
import Galadril.Json.Path
import Galadril.Lib.Text
import Galadril.Registry.Identity

namespace Galadril.Intake

open Json Lib.Checked Lib.Text Registry.Identity

def canonicalSubject (value tenant : String) (ownerOnly : Bool) : Except String String := do
  let value := trimBy isWhitespace value.toList
  ensure (!value.isEmpty && !value.any isWhitespace) "authorization subject is invalid"
  let typed := if ["user:", "role:", "group:"].any fun start => start.toList.isPrefixOf value then value
    else "user:".toList ++ value
  let (subject, relation) := match splitOnce '#' typed with
    | some (subject, relation) => (subject, some relation)
    | none => (typed, none)
  let (subjectType, subjectId) ← context (splitOnce ':' subject) "authorization subject type is required"
  ensure (!subjectId.isEmpty && (!ownerOnly || subjectType == "user".toList)) "authorization subject type is not allowed"
  ensure ((subjectType == "user".toList && relation.isNone) ||
      ((subjectType == "role".toList || subjectType == "group".toList) && !ownerOnly &&
        relation == some "member".toList && (tenant.toList ++ ['/']).isPrefixOf subjectId))
    "authorization subject relation is invalid"
  return String.ofList typed

/-- What the object store says about the delegation behind an object. -/
structure AuthzHints where
  resource : Option String
  viewers : List String
  owner : Option String
  authenticationProvenance : Option String
  delegationId : Option String

def optionalText (text : Option String) : Value := (text.map Value.string).getD .null

def authzTuple (resource relation subject : String) : Value :=
  .object [("resource", .string resource), ("relation", .string relation), ("subject", .string subject)]

def injectAuthz (hints : AuthzHints) (tenant : String) (record : Value) : Except String Value := do
  let resource ← context hints.resource "Trusted object resource is missing"
  let members ← context record.asObject "record is not a JSON object"
  ensure (("raw:".toList ++ tenant.toList ++ ['/']).isPrefixOf resource.toList)
    "authorization resource crosses tenant boundary"
  let readers ← hints.viewers.mapM fun viewer => do
    let subject ← canonicalSubject viewer tenant false
    return authzTuple resource "reader" subject
  let owners ← hints.owner.toList.mapM fun owner => do
    let subject ← canonicalSubject owner tenant true
    return authzTuple resource "owner" subject
  let tuples := authzTuple resource "parent" s!"tenant:{tenant}" :: readers ++ owners
  return .object (Members.insert "authz" (.object [
    ("tenant", .string tenant), ("tuples", .array tuples), ("source_principal", .string "service:intake"),
    ("execution_identity", .string "service:intake"), ("initiating_actor", .string (hints.owner.getD "unknown")),
    ("authentication_provenance", optionalText hints.authenticationProvenance),
    ("delegation_id", optionalText hints.delegationId), ("requested_permission", .string "materialize"),
    ("requested_resource", .string resource)]) members)

variable (uuid : String → String)

def stableId (kind value : String) : String := uuid (kind ++ ":" ++ value)

def objectVersion (event : FileEvent) : String :=
  "s3://" ++ event.bucket ++ "/" ++ event.key ++ "#" ++ String.ofList (trimBy (· == Char.ofNat 34) event.eTag.toList)

structure ObservationIds where
  ingestionId : String
  sourceObjectId : String

def observationIds (event : FileEvent) : ObservationIds :=
  ⟨stableId uuid "ingestion" (objectVersion event), stableId uuid "source-object" (objectVersion event)⟩

def explicitId (record : Value) : Option String := (record.getStr "id").filter (· != "")

def fragmentKey (record : Value) (ordinal : Nat) : String := (explicitId record).getD (toString ordinal)

def observationId (event : FileEvent) (record : Value) (ordinal : Nat) : String :=
  stableId uuid "observation" ((observationIds uuid event).sourceObjectId ++ ":" ++ fragmentKey record ordinal)

structure ResolvedRoute where
  sourceId : String
  topic : String
  parser : String

structure Publication where
  topic : String
  key : String
  record : Value

/-- What a publication run does not compute itself: the record's timestamp and
its observation metadata, which include floating-point fields, the parsers, and
the delegation of the object. -/
structure Surroundings where
  uuid : String → String
  timestamp : Option Value → Option Int
  metadata : FileEvent → ResolvedRoute → String → Value → Nat → Value
  parse : String → Except String (List Value)
  hints : AuthzHints
  tenant : String

variable (env : Surroundings)

def insertAbsent (key : String) (v : Value) (members : Members) : Members :=
  if (Members.field members key).isSome then members else Members.insert key v members

/-- The identity a record is published under, and the record with the shared
observation contract attached. -/
def enrichRecord (event : FileEvent) (route : ResolvedRoute) (ordinal : Nat) (record : Value) :
    Except String (String × Value) := do
  let members ← context record.asObject "record must be a JSON object"
  let id := observationId env.uuid event record ordinal
  let members ← match Members.field members "id" with
    | none => .ok (Members.insert "id" (.string id) members)
    | some (.string text) => if text = "" then .error "record 'id' must be a string" else .ok members
    | some _ => .error "record 'id' must be a string"
  let eventTime := (env.timestamp (Members.field members "timestamp")).getD event.receivedAt
  let members := Members.insert "ingested_at" (.number (.int event.receivedAt)) members
  let members := insertAbsent "storage_path" (.string ("s3://" ++ event.bucket ++ "/" ++ event.key)) members
  let members := insertAbsent "source" (.string route.sourceId) members
  let metadata := env.metadata event route id (.object members) ordinal
  let members := insertAbsent "timestamp" (.number (.int eventTime)) members
  return (id, .object (Members.insert "observation" metadata members))

def publishRecords (event : FileEvent) (route : ResolvedRoute) : Nat → List Value → List Publication × Except String Unit
  | _, [] => ([], .ok ())
  | ordinal, record :: rest =>
      match enrichRecord env event route ordinal record with
      | .error e => ([], .error e)
      | .ok (id, enriched) =>
          match injectAuthz env.hints env.tenant enriched with
          | .error e => ([], .error e)
          | .ok authorized =>
              let next := publishRecords event route (ordinal + 1) rest
              (⟨route.topic, id, authorized⟩ :: next.1, next.2)

def publishRoutes (event : FileEvent) : List ResolvedRoute → List Publication × Except String Unit
  | [] => ([], .ok ())
  | route :: rest =>
      match env.parse route.parser with
      | .error e => ([], .error e)
      | .ok records =>
          let published := publishRecords env event route 0 records
          match published.2 with
          | .error e => (published.1, .error e)
          | .ok _ =>
              let next := publishRoutes event rest
              (published.1 ++ next.1, next.2)

/-- A run of process for an object. The broker may refuse a publication, which
ends the run there. -/
def process (event : FileEvent) (routes : List ResolvedRoute) (refused : Option Nat) :
    List Publication × Except String Unit :=
  let full := publishRoutes env event routes
  match refused with
  | some n => if n < full.1.length then (full.1.take n, .error "Broker publication failure for pipeline") else full
  | none => full

end Galadril.Intake
