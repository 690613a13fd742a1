import Galadril.Lib.Checked
import Galadril.Registry.Identity

namespace Galadril.Documents

open Lib.Checked Registry.Identity

variable {ν : Type}

structure Fact where
  subject : String
  predicate : String
  object : String
  deriving DecidableEq

structure Unit where
  id : String
  ordinal : Int
  text : String
  start : Int
  stop : Int
  page : Option Int
  facts : List Fact
  deriving DecidableEq

def Unit.withFacts (u : Unit) (facts : List Fact) : Unit := { u with facts := facts }

structure Feature (ν : Type) where
  unitId : String
  ordinal : Int
  embedding : ν

inductive IndexStage
  | queued
  | reading
  | parsing
  | extracting
  | embedding
  | publishing
  deriving DecidableEq

structure UnitRow where
  revision : String
  checksum : String
  unit : Unit
  enriched : Bool
  deriving DecidableEq

structure FeatureRow (ν : Type) where
  revision : String
  profile : String
  feature : Feature ν

structure JobRow where
  checksum : String
  attempts : Nat
  nextAttempt : Int
  lease : Option String
  leaseExpires : Int
  workRevision : Option String
  stage : IndexStage
  percent : Nat
  deriving DecidableEq

inductive Retrieval
  | ready (revision : String) (profile : Option String) (warnings : List String)
  | failed (warnings : List String)
  deriving DecidableEq

def Retrieval.revision : Retrieval → Option String
  | .ready revision _ _ => some revision
  | .failed _ => none

structure File where
  checksum : String
  ready : Bool
  expiresAt : Option Int
  revision : Int
  retrieval : Option Retrieval
  deriving DecidableEq

structure Index (ν : Type) where
  file : Option File
  job : Option JobRow
  units : List UnitRow
  features : List (FeatureRow ν)

structure IndexJob where
  checksum : String
  lease : String
  revision : String
  completed : List String
  profile : Option String
  units : Option (List Unit)

/-- What the statements rely on: the check constraints of the tables, and the
size and validity of vectors. -/
structure Engine (ν : Type) where
  admitsUnit : UnitRow → Bool
  admitsFeature : FeatureRow ν → Bool
  dimension : ν → Nat
  soundVector : ν → Bool

variable (env : Engine ν)

def identifier (value : String) (length : Nat) : Bool :=
  value.utf8ByteSize == length && value.toList.all fun c => c.isDigit || ('a' ≤ c && c ≤ 'f')

def validFact (fact : Fact) : Bool :=
  [fact.subject, fact.predicate, fact.object].all fun text =>
    !blank text && text.utf8ByteSize ≤ 1024

def validUnit (u : Unit) : Except String PUnit := do
  ensure (identifier u.id 64 && 0 ≤ u.ordinal && u.ordinal < 2048) "Invalid evidence identifier"
  ensure (!blank u.text && u.text.utf8ByteSize ≤ 16384 && 0 ≤ u.start &&
    u.stop - u.start == u.text.length && u.page.all fun page => 1 ≤ page && page ≤ 1000) "Invalid evidence span"
  ensure (u.facts.length ≤ 8 && u.facts.all validFact) "Invalid extracted relationships"

def validFeature (units : List Unit) (f : Feature ν) : Except String PUnit := do
  ensure (units.any fun u => u.id == f.unitId && (f.ordinal == -1 || (0 ≤ f.ordinal && f.ordinal < u.facts.length)))
    "Vector has no matching evidence"
  ensure (1 ≤ env.dimension f.embedding && env.dimension f.embedding ≤ 4096) "Incompatible vector dimensions"
  ensure (env.soundVector f.embedding) "Invalid evidence vector"

def distinct {α : Type} [DecidableEq α] : List α → Bool
  | [] => true
  | x :: rest => !rest.contains x && distinct rest

def validateIndex (source : String) (units : List Unit) (features : List (Feature ν)) : Except String PUnit := do
  ensure (identifier source 32 && !units.isEmpty && units.length ≤ 32 && features.length ≤ 288) "Indexing batch exceeds limit"
  ensure (distinct (units.map Unit.id)) "Invalid evidence identifier"
  let _ ← units.mapM validUnit
  ensure (distinct (features.map fun f => (f.unitId, f.ordinal))) "Vector has no matching evidence"
  ensure (features.all fun f => features.all fun g => env.dimension f.embedding == env.dimension g.embedding)
    "Incompatible vector dimensions"
  let _ ← features.mapM (validFeature env units)

variable (s : Index ν) (now : Int)

def live (checksum : String) : Bool :=
  s.file.any fun r => r.checksum == checksum && r.ready && r.expiresAt.any (now < ·)

def held (lease : String) : Bool := s.job.any fun j => j.lease == some lease && now < j.leaseExpires

def leased (lease : String) : Bool := held s now lease && s.job.any fun j => live s now j.checksum

def updateJob (lease : String) (f : JobRow → JobRow) : Index ν :=
  { s with job := s.job.map fun j => if j.lease = some lease then f j else j }

def JobRow.released (j : JobRow) : JobRow := { j with lease := none, leaseExpires := 0 }

def JobRow.deferred (j : JobRow) (now : Int) : JobRow :=
  { j.released with nextAttempt := now + min 3600000 (1000 * 2 ^ j.attempts) }

def progress (lease : String) (stage : IndexStage) (percent : Nat) : Except String (Index ν) := do
  ensure (percent < 100) "Index progress exceeds limit"
  ensure (leased s now lease) "Index progress lease lost"
  return updateJob s lease fun j => { j with stage := stage, percent := max j.percent percent }

def renew (lease : String) : Except String (Index ν) := do
  ensure (leased s now lease) "Document indexing lease lost"
  return updateJob s lease fun j => { j with leaseExpires := now + 300000 }

def JobRow.fresh (checksum : String) : JobRow where
  checksum := checksum
  attempts := 0
  nextAttempt := 0
  lease := none
  leaseExpires := 0
  workRevision := none
  stage := .queued
  percent := 0

def JobRow.claimed (j : JobRow) (now : Int) (lease revision : String) : JobRow :=
  { j with
    lease := some lease
    leaseExpires := now + 300000
    attempts := j.attempts + 1
    workRevision := some revision }

/-- A request to index starts over when the content changed or all attempts are
used up. -/
def enqueue : Except String (Index ν) := do
  let r ← context (s.file.filter fun r => r.ready && r.expiresAt.any (now < ·)) "Document unavailable for indexing"
  let job := match s.job with
    | none => JobRow.fresh r.checksum
    | some j => if j.checksum ≠ r.checksum ∨ (j.attempts = 8 ∧ j.leaseExpires ≤ now) then JobRow.fresh r.checksum else j
  return { s with job := some job }

def cascade (units : List UnitRow) (features : List (FeatureRow ν)) : List (FeatureRow ν) :=
  features.filter fun f => units.any fun u => u.unit.id == f.feature.unitId && u.revision == f.revision

def deleteUnits (p : UnitRow → Bool) : Index ν :=
  { s with units := s.units.filter fun u => !p u, features := cascade (s.units.filter fun u => !p u) s.features }

def claim (lease revision : String) : Except String (Index ν × IndexJob) := do
  let j ← context (s.job.filter fun j => j.attempts < 8 && j.nextAttempt ≤ now && j.leaseExpires ≤ now && live s now j.checksum)
    "nothing to claim"
  let revision := j.workRevision.getD revision
  let published := s.file.bind fun r => r.retrieval.bind Retrieval.revision
  let s := deleteUnits { s with job := some (j.claimed now lease revision) } fun u => u.revision != revision &&
    some u.revision != published
  let own := s.units.filter fun u => u.revision == revision
  let completed := own.filter UnitRow.enriched
  let profiles := ((s.features.filter fun f => f.revision == revision &&
    completed.any fun u => u.unit.id == f.feature.unitId).map FeatureRow.profile).dedup
  ensure (profiles.length ≤ 1) "Resumed embedding profiles disagree"
  let resumed := if published = some revision then some (own.map UnitRow.unit) else none
  ensure (resumed.all fun units => units.length ≤ 2048) "Resumed document exceeds chunk budget"
  return (s, ⟨j.checksum, lease, revision, completed.map (·.unit.id), profiles.head?, resumed⟩)

def putUnit (checksum revision : String) (rows : List UnitRow) (u : Unit) : Except String (List UnitRow) := do
  if rows.any fun row => row.revision == revision && row.unit.id == u.id then do
    ensure (env.admitsUnit ⟨revision, checksum, u, false⟩) "check constraint"
    return rows.map fun row => if row.revision = revision ∧ row.unit.id = u.id then
      { row with unit := row.unit.withFacts u.facts, enriched := false } else row
  else do
    ensure (rows.all fun row => !(row.revision == revision && row.unit.ordinal == u.ordinal)) "duplicate key"
    ensure (env.admitsUnit ⟨revision, checksum, u, false⟩) "check constraint"
    return rows ++ [⟨revision, checksum, u, false⟩]

def sameFeature (revision : String) (f : Feature ν) (row : FeatureRow ν) : Bool :=
  row.revision == revision && row.feature.unitId == f.unitId && row.feature.ordinal == f.ordinal

def putFeature (revision profile : String) (rows : List (FeatureRow ν)) (f : Feature ν) :
    Except String (List (FeatureRow ν)) := do
  ensure (env.admitsFeature ⟨revision, profile, f⟩) "check constraint"
  return rows.filter (fun row => !sameFeature revision f row) ++ [⟨revision, profile, f⟩]

def stalePositions (revision : String) (units : List Unit) (row : FeatureRow ν) : Bool :=
  row.revision == revision && units.any fun u => u.id == row.feature.unitId && u.facts.length ≤ row.feature.ordinal

def stage (source : String) (job : IndexJob) (units : List Unit) (features : List (Feature ν)) (profile : Option String) :
    Except String (Index ν) := do
  validateIndex env source units features
  ensure (features.isEmpty || profile.any fun p => p.utf8ByteSize == 64 && p.toList.all fun c =>
    c.isDigit || ('a' ≤ c && c ≤ 'f') || ('A' ≤ c && c ≤ 'F')) "Invalid indexing profile"
  ensure (held s now job.lease && live s now job.checksum) "Indexing lease or source expired"
  let rows ← units.foldlM (putUnit env job.checksum job.revision) s.units
  let kept := s.features.filter fun row => !stalePositions job.revision units row
  let features ← features.foldlM (putFeature env job.revision (profile.getD "")) kept
  return { s with units := rows, features := features }

def positions (s : Index ν) (revision id : String) : Nat :=
  s.features.countP fun f => f.revision == revision && f.feature.unitId == id

def covered (s : Index ν) (job : IndexJob) (units : List Unit) (row : UnitRow) : Bool :=
  row.revision == job.revision && (units.map Unit.id).contains row.unit.id &&
    positions s job.revision row.unit.id == 1 + row.unit.facts.length

def complete (job : IndexJob) (units : List Unit) : Except String (Index ν) := do
  ensure (held s now job.lease) "Index completion lease lost"
  ensure (s.units.countP (covered s job units) == units.length) "Incomplete indexing features"
  let s := { s with units := s.units.map fun row => if covered s job units row then { row with enriched := true } else row }
  return updateJob s job.lease fun j => { j with attempts := 0 }

def activateRevision (job : IndexJob) (profile : Option String) (warnings : List String) : Except String (Index ν) := do
  ensure (held s now job.lease && live s now job.checksum) "Stale document indexing result"
  let s := { s with file := s.file.map fun r =>
    { r with retrieval := some (.ready job.revision profile warnings), revision := r.revision + 1 } }
  return deleteUnits s fun u => u.revision != job.revision

def checkpoint (job : IndexJob) (warnings : List String) : Except String (Index ν) :=
  activateRevision s now job job.profile warnings

def transient (warnings : List String) : Bool :=
  warnings.any fun w => w == "embeddings_unavailable" || w == "extraction_unavailable" || w == "graph_extraction_unavailable"

def publish (job : IndexJob) (profile : Option String) (warnings : List String) : Except String (Index ν) := do
  let s ← activateRevision s now job profile warnings
  if warnings.contains "graph_extraction_unauthorized" then
    return updateJob s job.lease fun j => { j.released with attempts := 8 }
  else if transient warnings then return updateJob s job.lease (·.deferred now)
  else return { s with job := s.job.filter fun j => j.lease ≠ some job.lease }

def Retrieval.isReady : Retrieval → Bool
  | .ready _ _ _ => true
  | .failed _ => false

def failedRecord (s : Index ν) (code : String) : Option File :=
  s.file.map fun r =>
    if s.job.any (fun j => 8 ≤ j.attempts) && !r.retrieval.any Retrieval.isReady then
      { r with retrieval := some (.failed [code]), revision := r.revision + 1 }
    else r

def fail (lease code : String) : Except String (Index ν) := do
  ensure (code == "unsupported" || code == "unavailable" || code == "invalid") "Invalid indexing failure"
  let s := updateJob s lease (·.deferred now)
  return { s with file := failedRecord s code }

end Galadril.Documents
