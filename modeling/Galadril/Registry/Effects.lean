import Galadril.Registry.Operations

namespace Galadril.Registry

open Json Lib.Checked Lib.Revisions Lib.Programs Identity Ontology Pipeline

variable {clock : Nat → Int} {tenantId fresh : String} {s t : Branchline}

attribute [local simp] writes_step query_validateIdentity require_some

@[simp] theorem pinned_expectHead (expected : Option String) (createOnly : Bool) (head text : String) :
    Pinned (expectHead expected createOnly head text) := by
  unfold expectHead
  split
  · exact pinned_check _
  · exact pinned_check _

@[simp] theorem pinned_replaceableIfAny (input : PutOntology) (existing : Option OntologyRecord) :
    Pinned (replaceableIfAny input existing) := by
  cases existing with
  | none => exact pinned_pure _
  | some record => exact (pinned_check _).bind fun _ => pinned_check _

@[simp] theorem pinned_validateWorkspaceSize (record : OntologyRecord) : Pinned record.validateWorkspaceSize :=
  pinned_check _

/-- The caller is answered from the state that was just committed. -/
theorem commits_of_writes_pure {α : Type} {f : String → α} {r : Except Failure α} {expected : String}
    {state : TenantState} {author message : String}
    (h : Writes backend fresh (Prog.commits expected state author message >>= fun i => pure (f i)) s r t) :
    Commits (· = state) fresh s r t := commits_of_writes (fun i => ⟨f i, rfl⟩) h

theorem commits_of_writes_last {r : Except Failure String} {expected : String} {state : TenantState}
    {author message : String} (h : Writes backend fresh (Prog.commits expected state author message) s r t) :
    Commits (· = state) fresh s r t := commits_of_writes_pure h

/-- The two checks that creations and replacements share. -/
theorem createOnly_eq {α : Type} {createOnly : Bool} {m : Keyed α} {id : String} (absent : createOnly = false ∨ id ∉ m)
    (present : createOnly = true ∨ id ∈ m) : createOnly = m[id]?.isNone := by
  cases createOnly <;> simp_all

theorem putPipeline_effect {input : PutPipeline} {r : Except Failure PipelineView}
    (h : Writes backend fresh (putPipeline clock tenantId input) s r t) :
    Commits (Effect clock tenantId s (.putPipeline input)) fresh s r t := by
  unfold putPipeline at h
  simp at h
  obtain ⟨⟨-, hid⟩, -, -, -, -, absent, present, -, -, unmanaged, -, -, h⟩ := h
  refine (commits_of_writes_pure h).mono ?_
  rintro state rfl
  refine .putPipeline hid (fun old hold => ?_) (createOnly_eq absent present)
  simpa [hold] using unmanaged

theorem liveAt_eq_some {state : TenantState} {pipelineId : String} {record : PipelineRecord} :
    liveAt state pipelineId = some record ↔
      state.pipelines[pipelineId]? = some record ∧ record.deletedAtMs = none := by
  simp [liveAt, Option.filter_eq_some_iff]

/-- Publication passes exactly the checks that the runtime repeats. -/
theorem runtimePipeline_accepts {pipelineId revisionId : String} :
    Accepts ((runtimePipeline tenantId pipelineId revisionId).query backend s) ↔
      validTenant tenantId = true ∧ validIdentity pipelineId = true ∧ validRevision revisionId = true ∧
        ∃ snap record, s.find revisionId = some snap ∧ liveAt snap.state pipelineId = some record ∧
          Accepts ((validatePipelineOntologyDependencies snap.state pipelineId).query backend s) ∧
          Accepts ((compileComposition pipelineId revisionId record.definition true).query backend s) := by
  simp only [Accepts, runtimePipeline, Prog.query_bind, bind_eq_ok, query_validateIdentity, query_check,
    Prog.query_pinned, context_eq_ok, query_require, Prog.query_pure, Except.ok.injEq]
  constructor
  · rintro ⟨_, _, ⟨ht, hi⟩, _, hr, snap, hs, u, hu, record, hl, definition, hd, -⟩
    exact ⟨ht, hi, hr, snap, record, hs, hl, ⟨u, hu⟩, definition, hd⟩
  · rintro ⟨ht, hi, hr, snap, record, hs, hl, ⟨u, hu⟩, definition, hd⟩
    exact ⟨_, (), ⟨ht, hi⟩, (), hr, snap, hs, u, hu, record, hl, definition, hd, rfl⟩

theorem publishPipeline_effect {pipelineId revisionId : String} {r : Except Failure PipelineView}
    (h : Writes backend fresh (publishPipeline clock tenantId pipelineId revisionId) s r t) :
    Commits (Effect clock tenantId s (.publishPipeline pipelineId revisionId)) fresh s r t := by
  unfold publishPipeline at h
  simp at h
  obtain ⟨⟨ht, hid⟩, hrev, snap, hsnap, candidate, hlive, unmanaged, -, hdeps, hcompiled, rfl, old, hold, h⟩ := h
  refine (commits_of_writes_pure h).mono ?_
  rintro state rfl
  obtain rfl : snap = s.head := by simpa using hsnap.symm
  obtain ⟨hcandidate, live⟩ := liveAt_eq_some.mp hlive
  obtain rfl : candidate = old := Option.some.inj (hcandidate.symm.trans hold)
  exact .publishPipeline hold live unmanaged
    (runtimePipeline_accepts.mpr ⟨ht, hid, hrev, s.head, candidate, hsnap, hlive, hdeps, hcompiled⟩)

theorem deletePipeline_effect {pipelineId expected : String} {r : Except Failure String}
    (h : Writes backend fresh (deletePipeline clock tenantId pipelineId expected) s r t) :
    Commits (Effect clock tenantId s (.deletePipeline pipelineId expected)) fresh s r t := by
  unfold deletePipeline at h
  simp at h
  obtain ⟨-, rfl, old, hold, h⟩ := h
  refine (commits_of_writes_last h).mono ?_
  rintro state rfl
  exact .deletePipeline hold

theorem putOntology_effect {input : PutOntology} {r : Except Failure OntologyView}
    (h : Writes backend fresh (putOntology clock tenantId input) s r t) :
    Commits (Effect clock tenantId s (.putOntology input)) fresh s r t := by
  unfold putOntology at h
  simp at h
  obtain ⟨hid, -, -, -, ⟨_, valid⟩, absent, present, -, ⟨_, replaces⟩, -, h⟩ := h
  refine (commits_of_writes_pure h).mono ?_
  rintro state rfl
  refine .putOntology hid valid (createOnly_eq absent present) fun old hold => ?_
  rw [hold] at replaces
  exact replaces

theorem publishOntology_effect {input : PublishOntology} {r : Except Failure OntologyPublicationRecord}
    (h : Writes backend fresh (publishOntology clock tenantId input) s r t) :
    Commits (Effect clock tenantId s (.publishOntology input)) fresh s r t := by
  unfold publishOntology at h
  simp at h
  obtain ⟨-, -, pinned, hpinned, old, hold, -, version, -, ⟨live, -⟩, h⟩ := h
  refine (commits_of_writes (fun _ => ⟨_, rfl⟩) h).mono ?_
  rintro state rfl
  exact .publishOntology hold live hpinned

theorem retireOntology_effect {ontologyId publicationId revisionId : String} {r : Except Failure String}
    (h : Writes backend fresh (retireOntology clock tenantId ontologyId publicationId revisionId) s r t) :
    Commits (Effect clock tenantId s (.retireOntology ontologyId publicationId revisionId)) fresh s r t := by
  unfold retireOntology at h
  simp at h
  obtain ⟨-, old, hold, publication, hpublication, -, h⟩ := h
  refine (commits_of_writes_last h).mono ?_
  rintro state rfl
  exact .retireOntology hold hpublication

theorem putBinding_effect {expected : String} {binding : OntologyBindingRecord}
    {r : Except Failure (OntologyBindingRecord × String)}
    (h : Writes backend fresh (putBinding tenantId expected binding) s r t) :
    Commits (Effect clock tenantId s (.putBinding expected binding)) fresh s r t := by
  unfold putBinding at h
  simp at h
  obtain ⟨⟨-, hid⟩, hblock, -, rfl, pipeline, hpipeline, -, ⟨_, hpublished⟩, h⟩ := h
  refine (commits_of_writes_pure h).mono ?_
  rintro state rfl
  exact .putBinding hid hblock hpipeline hpublished

theorem mergeOntologyRevisions_effect {input : MergeRevisions} {r : Except Failure (MergeResult × Option OntologyView)}
    (h : Writes backend fresh (mergeOntologyRevisions clock tenantId input) s r t) :
    Commits (Effect clock tenantId s (.mergeOntology input)) fresh s r t := by
  unfold mergeOntologyRevisions at h
  simp at h
  obtain ⟨base, hbase, left, hleft, right, hright, result, hmerged, h⟩ := h
  cases hresult : result.ontology with
  | none =>
      rw [hresult] at h
      exact (not_writes_done h).elim
  | some ontology =>
      rw [hresult] at h
      obtain ⟨q, hq, hr⟩ := writes_map.mp h
      obtain ⟨⟨view, rfl⟩, hrest⟩ := (putOntology_effect hq).mono fun state hs => Effect.mergeOntology
        ⟨rfl, rfl, rfl, base, left, right, result, hbase, hleft, hright, hmerged, hresult⟩ hs
      exact ⟨⟨_, hr⟩, hrest⟩

theorem authorPipeline_effect {input : PutPipeline} {command : AuthoringCommand} {r : Except Failure PipelineView}
    (h : Writes backend fresh (authorPipeline clock tenantId input command) s r t) :
    Commits (Effect clock tenantId s (.authorPipeline input command)) fresh s r t := by
  unfold authorPipeline at h
  simp at h
  obtain ⟨⟨-, hid⟩, -, -, -, creates, -, absent, present, edited, hedited, -, h⟩ := h
  refine (commits_of_writes_pure h).mono ?_
  rintro state rfl
  refine .authorPipeline hid (fun hc => ⟨?_, creates hc⟩) (fun hc => ?_) hedited
  · simpa [hc] using absent
  · simpa [hc, Option.any_eq_true] using present

theorem authorOntology_effect {input : PutOntology} {command : OntologyCommand} {r : Except Failure OntologyView}
    (h : Writes backend fresh (authorOntology clock tenantId input command) s r t) :
    Commits (Effect clock tenantId s (.authorOntology input command)) fresh s r t := by
  unfold authorOntology at h
  simp at h
  obtain ⟨-, -, -, -, -, old, hold, live, edited, affected, hedited, -, h⟩ := h
  refine (commits_of_writes_pure h).mono ?_
  rintro state rfl
  exact .authorOntology hold live hedited

theorem effect_of_writes {op : Operation} {r : Except Failure Unit}
    (h : Writes backend fresh (program clock tenantId op) s r t) :
    Commits (Effect clock tenantId s op) fresh s r t := by
  cases op with
  | putPipeline input => exact commits_answered (fun _ => putPipeline_effect) h
  | publishPipeline pipelineId revisionId => exact commits_answered (fun _ => publishPipeline_effect) h
  | deletePipeline pipelineId expected => exact commits_answered (fun _ => deletePipeline_effect) h
  | putOntology input => exact commits_answered (fun _ => putOntology_effect) h
  | publishOntology input => exact commits_answered (fun _ => publishOntology_effect) h
  | retireOntology ontologyId publicationId revisionId => exact commits_answered (fun _ => retireOntology_effect) h
  | putBinding expected binding => exact commits_answered (fun _ => putBinding_effect) h
  | mergeOntology input => exact commits_answered (fun _ => mergeOntologyRevisions_effect) h
  | authorPipeline input command => exact commits_answered (fun _ => authorPipeline_effect) h
  | authorOntology input command => exact commits_answered (fun _ => authorOntology_effect) h

end Galadril.Registry
