import Galadril.Lib.Programs
import Galadril.Registry.Authoring
import Galadril.Registry.MergeParts

namespace Galadril.Registry

open Json

abbrev Keyed := Std.ExtTreeMap String

namespace Keyed

variable {α : Type}

def values (m : Keyed α) : List α := m.toList.map (·.2)

@[simp] theorem getElem?_insert (m : Keyed α) (k a : String) (v : α) :
    (m.insert k v)[a]? = if k = a then some v else m[a]? := by
  rw [Std.ExtTreeMap.getElem?_insert]
  simp only [compare_eq_iff_eq]

@[simp] theorem getElem?_erase (m : Keyed α) (k a : String) :
    (m.erase k)[a]? = if k = a then none else m[a]? := by
  rw [Std.ExtTreeMap.getElem?_erase]
  simp only [compare_eq_iff_eq]

@[simp] theorem getElem?_empty (a : String) : (∅ : Keyed α)[a]? = none := Std.ExtTreeMap.getElem?_empty

theorem mem_toList {m : Keyed α} {k : String} {v : α} : (k, v) ∈ m.toList ↔ m[k]? = some v :=
  Std.ExtTreeMap.mem_toList_iff_getElem?_eq_some

theorem mem_values {m : Keyed α} {v : α} : v ∈ m.values ↔ ∃ k : String, m[k]? = some v := by
  simp only [values, List.mem_map, Prod.exists, mem_toList, exists_eq_right]

@[simp] theorem insert_erase (m : Keyed α) (k : String) (v : α) : (m.erase k).insert k v = m.insert k v := by
  refine Std.ExtTreeMap.ext_getElem? fun a => ?_
  simp only [getElem?_insert, getElem?_erase]
  split <;> rfl

end Keyed

/-- A fork with the base content its merge needs. -/
structure Branch where
  parentBranch : Option String
  definition : Value
  baseDefinition : Value
  baseRevisionId : String
  authorId : String
  updatedAtMs : Int

structure MergeProposal where
  sourceBranch : String
  sourceHash : String
  targetHash : String
  authorId : String
  createdAtMs : Int

/-- Approval of exactly the content whose hash it records. -/
structure ContentReview where
  definitionHash : String
  authorId : String
  reviewedAtMs : Int

/-- A published pin, independent of the runtime pointer. -/
structure PipelineRelease where
  revisionId : String
  definitionHash : String
  authorId : String
  publishedAtMs : Int

structure AuthoringState where
  enabled : Bool := false
  branches : Keyed Branch := ∅
  proposals : Keyed MergeProposal := ∅
  approval : Option ContentReview := none
  release : Option PipelineRelease := none

structure PipelineRecord where
  authoring : AuthoringState
  previousRevisionId : Option String
  pipelineId : String
  name : String
  ownerId : String
  publishedRevisionId : Option String
  definition : Value
  authorId : String
  message : String
  createdAtMs : Int
  updatedAtMs : Int
  deletedAtMs : Option Int

structure OntologyBranch where
  parentBranch : String
  definition : Value
  displayName : String
  baseDefinition : Value
  baseDisplayName : String
  baseRevisionId : String
  author : String
  updatedAtMs : Int

structure OntologyAuthoringState where
  branches : Keyed OntologyBranch := ∅
  previousRevisionId : Option String := none
  lastBranch : String := ""
  lastOperation : String := ""
  lastAuthor : String := ""
  updatedAtMs : Int := 0
  deletedAtMs : Option Int := none

structure OntologyPublicationRecord where
  publicationId : String
  revisionId : String
  lifecycle : String
  metadata : Value
  baseVersion : String
  baseHash : String
  effectiveHash : String
  author : String
  message : String
  publishedAtMs : Int
  retiredAtMs : Option Int

structure OntologyRecord where
  authoring : OntologyAuthoringState
  ontologyId : String
  displayName : String
  ontology : Value
  author : String
  message : String
  createdAtMs : Int
  productionPublication : Option OntologyPublicationRecord

structure OntologyBindingRecord where
  pipelineId : String
  blockId : String
  ontologyId : String
  resourceIds : List String
  resourceKinds : List String
  includeDependencies : Bool
  metadata : Value
  updatedAtMs : Int
  deriving DecidableEq

/-- The complete projection of a tenant stored at one revision. -/
structure TenantState where
  pipelines : Keyed PipelineRecord := ∅
  ontologies : Keyed OntologyRecord := ∅
  bindings : Keyed OntologyBindingRecord := ∅

namespace TenantState

def withPipeline (state : TenantState) (id : String) (record : PipelineRecord) : TenantState :=
  { state with pipelines := state.pipelines.insert id record }

def withOntology (state : TenantState) (id : String) (record : OntologyRecord) : TenantState :=
  { state with ontologies := state.ontologies.insert id record }

def withBinding (state : TenantState) (key : String) (record : OntologyBindingRecord) : TenantState :=
  { state with bindings := state.bindings.insert key record }

def withoutOntology (state : TenantState) (id : String) : TenantState :=
  { state with ontologies := state.ontologies.erase id }

variable (state : TenantState) (id k : String) (pipeline : PipelineRecord) (ontology : OntologyRecord)
  (binding : OntologyBindingRecord)

@[simp] theorem withPipeline_pipelines :
    (state.withPipeline id pipeline).pipelines[k]? = if id = k then some pipeline else state.pipelines[k]? :=
  Keyed.getElem?_insert _ _ _ _

@[simp] theorem withPipeline_ontologies : (state.withPipeline id pipeline).ontologies = state.ontologies := rfl

@[simp] theorem withPipeline_bindings : (state.withPipeline id pipeline).bindings = state.bindings := rfl

@[simp] theorem withOntology_pipelines : (state.withOntology id ontology).pipelines = state.pipelines := rfl

@[simp] theorem withOntology_ontologies :
    (state.withOntology id ontology).ontologies[k]? = if id = k then some ontology else state.ontologies[k]? :=
  Keyed.getElem?_insert _ _ _ _

@[simp] theorem withOntology_bindings : (state.withOntology id ontology).bindings = state.bindings := rfl

@[simp] theorem withBinding_pipelines : (state.withBinding id binding).pipelines = state.pipelines := rfl

@[simp] theorem withBinding_ontologies : (state.withBinding id binding).ontologies = state.ontologies := rfl

@[simp] theorem withBinding_bindings :
    (state.withBinding id binding).bindings[k]? = if id = k then some binding else state.bindings[k]? :=
  Keyed.getElem?_insert _ _ _ _

@[simp] theorem withoutOntology_withOntology :
    (state.withoutOntology id).withOntology id ontology = state.withOntology id ontology := by
  simp [withoutOntology, withOntology]

end TenantState

def bindingKey (pipelineId blockId : String) : String := pipelineId ++ String.singleton (Char.ofNat 31) ++ blockId

def optional {α : Type} (f : α → Value) : Option α → Value
  | none => .null
  | some a => f a

def int (n : Int) : Value := .number (.int n)

def Keyed.toJson {α : Type} (f : α → Value) (m : Keyed α) : Value := .object (m.toList.map fun p => (p.1, f p.2))

def Branch.toJson (b : Branch) : Value :=
  .object ((b.parentBranch.map fun parent => ("parent_branch", Value.string parent)).toList ++
    [("definition", b.definition), ("base_definition", b.baseDefinition),
      ("base_revision_id", .string b.baseRevisionId), ("author_id", .string b.authorId),
      ("updated_at_ms", int b.updatedAtMs)])

def MergeProposal.toJson (p : MergeProposal) : Value :=
  .object [("source_branch", .string p.sourceBranch), ("source_hash", .string p.sourceHash),
    ("target_hash", .string p.targetHash), ("author_id", .string p.authorId), ("created_at_ms", int p.createdAtMs)]

def ContentReview.toJson (r : ContentReview) : Value :=
  .object [("definition_hash", .string r.definitionHash), ("author_id", .string r.authorId),
    ("reviewed_at_ms", int r.reviewedAtMs)]

def PipelineRelease.toJson (r : PipelineRelease) : Value :=
  .object [("revision_id", .string r.revisionId), ("definition_hash", .string r.definitionHash),
    ("author_id", .string r.authorId), ("published_at_ms", int r.publishedAtMs)]

def AuthoringState.toJson (a : AuthoringState) : Value :=
  .object [("enabled", .bool a.enabled), ("branches", a.branches.toJson Branch.toJson),
    ("proposals", a.proposals.toJson MergeProposal.toJson), ("approval", optional ContentReview.toJson a.approval),
    ("release", optional PipelineRelease.toJson a.release)]

def PipelineRecord.toJson (r : PipelineRecord) : Value :=
  .object [("authoring", r.authoring.toJson), ("previous_revision_id", optional .string r.previousRevisionId),
    ("pipeline_id", .string r.pipelineId), ("name", .string r.name), ("owner_id", .string r.ownerId),
    ("published_revision_id", optional .string r.publishedRevisionId), ("definition", r.definition),
    ("author_id", .string r.authorId), ("message", .string r.message), ("created_at_ms", int r.createdAtMs),
    ("updated_at_ms", int r.updatedAtMs), ("deleted_at_ms", optional int r.deletedAtMs)]

def OntologyBranch.toJson (b : OntologyBranch) : Value :=
  .object [("parent_branch", .string b.parentBranch), ("definition", b.definition),
    ("display_name", .string b.displayName), ("base_definition", b.baseDefinition),
    ("base_display_name", .string b.baseDisplayName), ("base_revision_id", .string b.baseRevisionId),
    ("author", .string b.author), ("updated_at_ms", int b.updatedAtMs)]

def OntologyAuthoringState.toJson (a : OntologyAuthoringState) : Value :=
  .object [("branches", a.branches.toJson OntologyBranch.toJson),
    ("previous_revision_id", optional .string a.previousRevisionId), ("last_branch", .string a.lastBranch),
    ("last_operation", .string a.lastOperation), ("last_author", .string a.lastAuthor),
    ("updated_at_ms", int a.updatedAtMs), ("deleted_at_ms", optional int a.deletedAtMs)]

def OntologyPublicationRecord.toJson (p : OntologyPublicationRecord) : Value :=
  .object [("publication_id", .string p.publicationId), ("revision_id", .string p.revisionId),
    ("lifecycle", .string p.lifecycle), ("metadata", p.metadata), ("base_version", .string p.baseVersion),
    ("base_hash", .string p.baseHash), ("effective_hash", .string p.effectiveHash), ("author", .string p.author),
    ("message", .string p.message), ("published_at_ms", int p.publishedAtMs),
    ("retired_at_ms", optional int p.retiredAtMs)]

def OntologyRecord.toJson (r : OntologyRecord) : Value :=
  .object [("authoring", r.authoring.toJson), ("ontology_id", .string r.ontologyId),
    ("display_name", .string r.displayName), ("ontology", r.ontology), ("author", .string r.author),
    ("message", .string r.message), ("created_at_ms", int r.createdAtMs),
    ("production_publication", optional OntologyPublicationRecord.toJson r.productionPublication)]

end Galadril.Registry
