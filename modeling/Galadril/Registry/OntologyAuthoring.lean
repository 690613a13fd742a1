import Galadril.Registry.Domain

namespace Galadril.Registry

open Json Lib.Checked Lib.Revisions Lib.Programs Identity Ontology

inductive OntologyCommand
  | createBranch (branch fromBranch : String)
  | saveDraft (branch : String)
  | merge (branch : String)
  | deleteBranch (branch : String)
  | delete
  | restore

def OntologyCommand.operationName : OntologyCommand → String
  | .createBranch _ _ => "create_branch"
  | .saveDraft _ => "save_draft"
  | .merge _ => "merge"
  | .deleteBranch _ => "delete_branch"
  | .delete => "delete"
  | .restore => "restore"

def OntologyCommand.restores : OntologyCommand → Bool
  | .restore => true
  | _ => false

abbrev OntologyEdit := OntologyRecord × String

variable (record : OntologyRecord) (expected author : String) (now : Int)

def withBranch (branch : String) (value : OntologyBranch) : OntologyRecord :=
  { record with
    authoring := { record.authoring with branches := record.authoring.branches.insert branch value } }

def tip (branch : String) : Op (Value × String) :=
  if branch = "main" then pure (record.ontology, record.displayName)
  else do
    let parent ← require .ontologyService record.authoring.branches[branch]? "parent ontology branch unavailable"
    return (parent.definition, parent.displayName)

def fork (branch fromBranch : String) : Op OntologyEdit := do
  check .ontologyService (validBranch branch && branch != "main" && record.authoring.branches[branch]?.isNone)
    "invalid ontology branch"
  check .ontologyService (record.authoring.branches.size < 20) "ontology branch limit exceeded"
  let (definition, name) ← tip record fromBranch
  let value : OntologyBranch := {
    parentBranch := fromBranch
    definition
    displayName := name
    baseDefinition := definition
    baseDisplayName := name
    baseRevisionId := expected
    author
    updatedAtMs := now }
  return (withBranch record branch value, branch)

def saveInto (input : PutOntology) (branch : String) : Op OntologyRecord :=
  if branch = "main" then pure { record with ontology := input.ontology, displayName := input.displayName }
  else do
    let selected ← require .ontologyService record.authoring.branches[branch]? "ontology branch unavailable"
    return withBranch record branch {
      selected with
      definition := input.ontology
      displayName := input.displayName
      author := input.author
      updatedAtMs := now }

def saveBranch (input : PutOntology) (branch : String) : Op OntologyEdit := do
  check .ontologyService (validBranch branch) "invalid ontology branch"
  check .ontologyService (!blank input.displayName && input.displayName.utf8ByteSize ≤ 256)
    "invalid ontology display name"
  reported .semantics (validateOntology input.ontology)
  check .ontologyService (record.ontology.get "plugin_origin" == input.ontology.get "plugin_origin")
    "ontology plugin provenance is immutable"
  let record ← saveInto record now input branch
  return (record, branch)

def mergeInto (parent : String) (merged : Value) (name : String) : Op OntologyRecord :=
  if parent = "main" then pure { record with ontology := merged, displayName := name }
  else do
    let value ← require .ontologyService record.authoring.branches[parent]? "parent ontology branch unavailable"
    return withBranch record parent {
      value with
      definition := merged
      displayName := name
      author
      updatedAtMs := now }

def mergeBranch (branch : String) : Op OntologyEdit := do
  check .ontologyService (branch != "main") "invalid ontology merge source"
  let source ← require .ontologyService record.authoring.branches[branch]? "ontology branch unavailable"
  let (target, name) ← tip record source.parentBranch
  check .ontologyService (name == source.baseDisplayName || source.displayName == source.baseDisplayName ||
    name == source.displayName) "ontology name conflict"
  let result ← reported .semantics (mergeOntology source.baseDefinition target source.definition)
  check .ontologyService result.conflicts.isEmpty "ontology merge has conflicts"
  let merged ← require .ontologyService result.ontology "ontology merge unavailable"
  let rebased := withBranch record branch {
    source with
    baseDefinition := source.definition
    baseDisplayName := source.displayName
    baseRevisionId := expected }
  let mergedName := if name = source.baseDisplayName then source.displayName else name
  let record ← mergeInto rebased author now source.parentBranch merged mergedName
  return (record, source.parentBranch)

def removeBranch (branch : String) : Op OntologyEdit := do
  check .ontologyService (branch != "main" && record.authoring.branches[branch]?.isSome) "ontology branch unavailable"
  check .ontologyService (!record.authoring.branches.values.any fun child => child.parentBranch == branch)
    "ontology branch has children"
  return ({ record with
    authoring := { record.authoring with branches := record.authoring.branches.erase branch } }, branch)

def targets (ontologyId : String) (other : OntologyRecord) : Bool :=
  other.authoring.deletedAtMs.isNone &&
    (other.ontology.pointer "target_origin" "ontology_id").bind Value.asStr == some ontologyId

def deleteOntology (state : TenantState) : Op OntologyEdit := do
  check .ontologyService (record.ontology.get "plugin_origin").isNone "plugin ontology is protected"
  check .ontologyService (!state.bindings.values.any fun b => b.ontologyId == record.ontologyId)
    "ontology is used by a pipeline"
  check .ontologyService (!state.ontologies.values.any (targets record.ontologyId))
    "ontology is used by another model"
  return ({ record with
    authoring := { record.authoring with deletedAtMs := some now }
    productionPublication := none }, "main")

def restoreOntology : Op OntologyEdit := do
  check .ontologyService record.authoring.deletedAtMs.isSome "ontology is not deleted"
  return ({ record with authoring := { record.authoring with deletedAtMs := none } }, "main")

def applyOntologyCommand (input : PutOntology) (state : TenantState) : OntologyCommand → Op OntologyEdit
  | .createBranch branch fromBranch => fork record expected input.author now branch fromBranch
  | .saveDraft branch => saveBranch record now input branch
  | .merge branch => mergeBranch record expected input.author now branch
  | .deleteBranch branch => removeBranch record branch
  | .delete => deleteOntology record now state
  | .restore => restoreOntology record

def OntologyRecord.stampedBy (record : OntologyRecord) (revisionId affected : String) (command : OntologyCommand)
    (author : String) (now : Int) : OntologyRecord :=
  { record with
    authoring := record.authoring.touch (some revisionId) affected command.operationName author now
    author
    message := "Ontology " ++ command.operationName }

def authorOntology (clock : Nat → Int) (tenantId : String) (input : PutOntology) (command : OntologyCommand) :
    Op OntologyView := do
  validateIdentity tenantId input.ontologyId
  check .ontologyService (!input.createOnly) "ontology commands require an existing model"
  check .ontologyService (input.author != "" && input.author.utf8ByteSize ≤ 256) "invalid ontology author"
  let expected ← require .ontologyService input.expectedRevisionId "expected revision ID is required"
  check .ontologyService (validRevision expected) "invalid ontology revision"
  let snapshot ← Prog.head
  check .ontologyService (snapshot.revisionId == expected) "ontology head changed"
  let record ← require .ontologyService snapshot.state.ontologies[input.ontologyId]? "ontology unavailable"
  let state := snapshot.state.withoutOntology input.ontologyId
  check .ontologyService (record.authoring.deletedAtMs.isNone || command.restores) "ontology is deleted"
  let edited ← applyOntologyCommand record expected (clock 0) input state command
  let record := edited.1.stampedBy snapshot.revisionId edited.2 command input.author (clock 1)
  record.validateWorkspaceSize
  let state := state.withOntology input.ontologyId record
  let revision ← Prog.commits expected state input.author command.operationName
  let record ← require .ontologyService state.ontologies[input.ontologyId]? "committed ontology unavailable"
  return ⟨revision, record⟩

structure OntologyHistoryItem where
  revisionId : String
  author : String
  message : String
  branch : String
  operation : String
  createdAtMs : Int
  deriving DecidableEq

structure OntologyHistoryPage where
  items : List OntologyHistoryItem
  nextRevisionId : Option String
  deriving DecidableEq

/-- Summary of the mutation that a record carries in its metadata. Records of
older writers fall back to their own fields. -/
def historyItem (revisionId : String) (record : OntologyRecord) : OntologyHistoryItem where
  revisionId := revisionId
  author := if record.authoring.lastAuthor = "" then record.author else record.authoring.lastAuthor
  message := record.message
  branch := if record.authoring.lastBranch = "" then "main" else record.authoring.lastBranch
  operation := if record.authoring.lastOperation = "" then "save_draft" else record.authoring.lastOperation
  createdAtMs := if record.authoring.updatedAtMs = 0 then record.createdAtMs else record.authoring.updatedAtMs

def loadAt : Option String → Op (Snapshot String TenantState)
  | none => Prog.head
  | some revisionId => Prog.pinned revisionId

/-- Walks the revision chain of one ontology. The first argument is the number
of entries that still fit on the page. -/
def historyItems (ontologyId : String) : Nat → Option String → List String → Op OntologyHistoryPage
  | 0, next, _ => pure ⟨[], next⟩
  | room + 1, next, visited => do
      let snapshot ← loadAt next
      check .ontologyService (!visited.contains snapshot.revisionId) "ontology revision cycle"
      let record ← require .ontologyService snapshot.state.ontologies[ontologyId]? "ontology unavailable at revision"
      let item := historyItem snapshot.revisionId record
      match record.authoring.previousRevisionId with
      | none => return ⟨[item], none⟩
      | some previous => do
          let page ← historyItems ontologyId room (some previous) (snapshot.revisionId :: visited)
          return { page with items := item :: page.items }

def ontologyHistory (tenantId ontologyId : String) (after : Option String) (limit : Nat) :
    Op OntologyHistoryPage := do
  validateIdentity tenantId ontologyId
  check .ontologyService (1 ≤ limit && limit ≤ 100) "invalid ontology history limit"
  check .ontologyService (after.all validRevision) "invalid ontology revision"
  historyItems ontologyId limit after []

end Galadril.Registry
