import Galadril.Registry.Requests

namespace Galadril.Registry

open Json Lib.Checked Lib.Revisions Lib.Programs Identity Ontology Pipeline

inductive Operation
  | putPipeline (input : PutPipeline)
  | publishPipeline (pipelineId revisionId : String)
  | deletePipeline (pipelineId expectedRevisionId : String)
  | putOntology (input : PutOntology)
  | publishOntology (input : PublishOntology)
  | retireOntology (ontologyId publicationId revisionId : String)
  | putBinding (expectedRevisionId : String) (binding : OntologyBindingRecord)
  | mergeOntology (input : MergeRevisions)
  | authorPipeline (input : PutPipeline) (command : AuthoringCommand)
  | authorOntology (input : PutOntology) (command : OntologyCommand)

def answered {α : Type} (p : Op α) : Op Unit := p >>= fun _ => pure ()

variable (clock : Nat → Int) (tenantId : String)

def program : Operation → Op Unit
  | .putPipeline input => answered (putPipeline clock tenantId input)
  | .publishPipeline pipelineId revisionId => answered (publishPipeline clock tenantId pipelineId revisionId)
  | .deletePipeline pipelineId expected => answered (deletePipeline clock tenantId pipelineId expected)
  | .putOntology input => answered (putOntology clock tenantId input)
  | .publishOntology input => answered (publishOntology clock tenantId input)
  | .retireOntology ontologyId publicationId revisionId =>
      answered (retireOntology clock tenantId ontologyId publicationId revisionId)
  | .putBinding expected binding => answered (putBinding tenantId expected binding)
  | .mergeOntology input => answered (mergeOntologyRevisions clock tenantId input)
  | .authorPipeline input command => answered (authorPipeline clock tenantId input command)
  | .authorOntology input command => answered (authorOntology clock tenantId input command)

structure Merges (s : Branchline) (input : MergeRevisions) (merged : PutOntology) : Prop where
  addressed : merged.ontologyId = input.ontologyId
  author : merged.author = input.author
  edits : merged.createOnly = false
  models : ∃ base left right result,
    (ontologyAt tenantId input.ontologyId input.baseRevisionId).query backend s = .ok base ∧
    (ontologyAt tenantId input.ontologyId input.leftRevisionId).query backend s = .ok left ∧
    (ontologyAt tenantId input.ontologyId input.rightRevisionId).query backend s = .ok right ∧
    Ontology.mergeOntology base.record.ontology left.record.ontology right.record.ontology = .ok result ∧
    result.ontology = some merged.ontology

/-- What a committed operation stores on top of the head it read, with the
facts its checks established there. -/
inductive Effect (s : Branchline) : Operation → TenantState → Prop
  | putPipeline {input : PutPipeline} (hid : validIdentity input.pipelineId = true)
      (unmanaged : ∀ old, s.head.state.pipelines[input.pipelineId]? = some old → old.authoring.enabled = false)
      (creates : input.createOnly = s.head.state.pipelines[input.pipelineId]?.isNone) :
      Effect s (.putPipeline input) (s.head.state.withPipeline input.pipelineId
        (replacedPipeline (clock 0) s.head.revisionId input s.head.state.pipelines[input.pipelineId]?))
  | publishPipeline {pipelineId revisionId : String} {old : PipelineRecord}
      (hold : s.head.state.pipelines[pipelineId]? = some old) (live : old.deletedAtMs = none)
      (unmanaged : old.authoring.enabled = false)
      (runs : Accepts ((runtimePipeline tenantId pipelineId revisionId).query backend s)) :
      Effect s (.publishPipeline pipelineId revisionId)
        (s.head.state.withPipeline pipelineId (old.published revisionId (clock 0)))
  | deletePipeline {pipelineId expected : String} {old : PipelineRecord}
      (hold : s.head.state.pipelines[pipelineId]? = some old) :
      Effect s (.deletePipeline pipelineId expected)
        (s.head.state.withPipeline pipelineId (old.deleted (clock 0)))
  | putOntology {input : PutOntology} (hid : validTenant tenantId = true ∧ validIdentity input.ontologyId = true)
      (valid : validateOntology input.ontology = .ok ())
      (creates : input.createOnly = s.head.state.ontologies[input.ontologyId]?.isNone)
      (replaces : ∀ old, s.head.state.ontologies[input.ontologyId]? = some old →
        (replaceable input old).query backend s = .ok ()) :
      Effect s (.putOntology input) (s.head.state.withOntology input.ontologyId
        (replacedOntology clock s.head.revisionId input s.head.state.ontologies[input.ontologyId]?))
  | publishOntology {input : PublishOntology} {old : OntologyRecord} {pinned : OntologyView} {version : String}
      (hold : s.head.state.ontologies[input.ontologyId]? = some old) (live : old.authoring.deletedAtMs = none)
      (hpinned : (ontologyAt tenantId input.ontologyId input.revisionId).query backend s = .ok pinned) :
      Effect s (.publishOntology input) (s.head.state.withOntology input.ontologyId
        (old.publishedAs s.head.revisionId input.displayName (publicationOf input pinned.record version (clock 0))
          (clock 1)))
  | retireOntology {ontologyId publicationId revisionId : String} {old : OntologyRecord}
      {publication : OntologyPublicationRecord} (hold : s.head.state.ontologies[ontologyId]? = some old)
      (hpublication : old.productionPublication = some publication) :
      Effect s (.retireOntology ontologyId publicationId revisionId) (s.head.state.withOntology ontologyId
        (old.retired s.head.revisionId publication (clock 0) (clock 1)))
  | putBinding {expected : String} {binding : OntologyBindingRecord} {pipeline : PipelineRecord}
      (hid : validIdentity binding.pipelineId = true) (hblock : validIdentity binding.blockId = true)
      (hpipeline : s.head.state.pipelines[binding.pipelineId]? = some pipeline)
      (hpublished : (validatePublishedBinding tenantId s.head.state binding).query backend s = .ok ()) :
      Effect s (.putBinding expected binding)
        (s.head.state.withBinding (bindingKey binding.pipelineId binding.blockId) binding)
  | mergeOntology {input : MergeRevisions} {merged : PutOntology} {state : TenantState}
      (merges : Merges tenantId s input merged) (h : Effect s (.putOntology merged) state) :
      Effect s (.mergeOntology input) state
  | authorPipeline {input : PutPipeline} {command : AuthoringCommand} {edited : Workspace}
      (hid : validBranch input.pipelineId = true)
      (creates : input.createOnly = true →
        s.head.state.pipelines[input.pipelineId]? = none ∧ command.savesMain = true)
      (edits : input.createOnly = false →
        ∃ old, s.head.state.pipelines[input.pipelineId]? = some old ∧ old.deletedAtMs = none)
      (hedited : (applyCommand clock tenantId input s.head
        (managedRecord input (clock 0) s.head.state.pipelines[input.pipelineId]?) command).query backend s = .ok edited) :
      Effect s (.authorPipeline input command)
        ({ s.head.state with bindings := edited.bindings }.withPipeline input.pipelineId
          (stamped input s.head.revisionId (clock 0) edited.record))
  | authorOntology {input : PutOntology} {command : OntologyCommand} {old : OntologyRecord} {edited : OntologyEdit}
      (hold : s.head.state.ontologies[input.ontologyId]? = some old)
      (live : old.authoring.deletedAtMs = none ∨ command.restores = true)
      (hedited : (applyOntologyCommand old s.head.revisionId (clock 0) input
        (s.head.state.withoutOntology input.ontologyId) command).query backend s = .ok edited) :
      Effect s (.authorOntology input command) (s.head.state.withOntology input.ontologyId
        (edited.1.stampedBy s.head.revisionId edited.2 command input.author (clock 1)))

/-- The head moves to a state with the given property, under a fresh valid
identity, and the caller is told of the success. -/
def Commits {α : Type} (P : TenantState → Prop) (fresh : String) (s : Branchline) (r : Except Failure α)
    (t : Branchline) : Prop :=
  Accepts r ∧ validRevision fresh = true ∧ ∃ state, P state ∧ ∃ h : fresh ∉ s.ids, t = s.push fresh state h

variable {α β : Type} {s t : Branchline} {fresh : String}

theorem Commits.mono {P Q : TenantState → Prop} {r : Except Failure α} (h : Commits P fresh s r t)
    (hpq : ∀ state, P state → Q state) : Commits Q fresh s r t := by
  obtain ⟨hr, hf, state, hp, ht⟩ := h
  exact ⟨hr, hf, state, hpq state hp, ht⟩

theorem require_some (o : Origin) (a : α) (text : String) : (require o (some a) text) = (pure a : Op α) := rfl

theorem writes_step {p : Op α} {f : α → Op β} {r : Except Failure β} (hp : Pinned p) :
    Writes backend fresh (p >>= f) s r t ↔
      ∃ a, p.query backend s = .ok a ∧ Writes backend fresh (f a) s r t := writes_bind hp.readOnly

/-- The commit of an operation that cannot fail any more. -/
theorem commits_of_writes {f : String → Op β} {r : Except Failure β} {expected : String} {state : TenantState}
    {author message : String} (hf : ∀ i, ∃ b, f i = pure b)
    (h : Writes backend fresh (Prog.commits expected state author message >>= f) s r t) :
    Commits (· = state) fresh s r t := by
  rw [writes_commits_bind fun i => by obtain ⟨b, hb⟩ := hf i; rw [hb]; trivial] at h
  obtain ⟨-, hadm, hfresh, ht, hr⟩ := h
  obtain ⟨b, hb⟩ := hf fresh
  refine ⟨?_, hadm, state, rfl, hfresh, ht⟩
  rw [hr, hb]
  exact accepts_ok b

/-- Rewording the answer does not change whether the head moves. -/
theorem writes_map {p : Op α} {f : α → β} {r : Except Failure β} :
    Writes backend fresh (p >>= fun a => pure (f a)) s r t ↔
      ∃ q, Writes backend fresh p s q t ∧ r = q.map f := by
  unfold Writes
  rw [Prog.run_bind]
  cases hp : p.run backend fresh s with
  | mk q u =>
      cases q with
      | ok a =>
          simp only [Prog.run_pure, Prod.mk.injEq]
          constructor
          · rintro ⟨⟨rfl, rfl⟩, hne⟩
            exact ⟨.ok a, ⟨⟨rfl, rfl⟩, hne⟩, rfl⟩
          · rintro ⟨q, ⟨⟨rfl, rfl⟩, hne⟩, rfl⟩
            exact ⟨⟨rfl, rfl⟩, hne⟩
      | error e =>
          simp only [Prod.mk.injEq]
          constructor
          · rintro ⟨⟨rfl, rfl⟩, hne⟩
            exact ⟨.error e, ⟨⟨rfl, rfl⟩, hne⟩, rfl⟩
          · rintro ⟨q, ⟨⟨rfl, rfl⟩, hne⟩, rfl⟩
            exact ⟨⟨rfl, rfl⟩, hne⟩

theorem commits_answered {P : TenantState → Prop} {p : Op α} {r : Except Failure Unit}
    (hp : ∀ q, Writes backend fresh p s q t → Commits P fresh s q t)
    (h : Writes backend fresh (answered p) s r t) : Commits P fresh s r t := by
  obtain ⟨q, hq, rfl⟩ := writes_map.mp h
  obtain ⟨⟨a, rfl⟩, hrest⟩ := hp q hq
  exact ⟨⟨(), rfl⟩, hrest⟩

end Galadril.Registry
