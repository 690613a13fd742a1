import Galadril.Lib.Interleavings
import Galadril.Registry.Bindings
import Galadril.Registry.OntologyCommands

namespace Galadril.Registry

open Json Lib.Checked Lib.Revisions Lib.Programs Lib.Replays Lib.Interleavings Identity Ontology Pipeline

inductive Response
  | pipeline (view : PipelineView)
  | revision (revisionId : String)
  | ontology (view : OntologyView)
  | publication (record : OntologyPublicationRecord)
  | binding (stored : OntologyBindingRecord × String)
  | merged (result : MergeResult × Option OntologyView)

def Response.quiet : Response → Prop
  | .merged result => result.2 = none
  | _ => False

variable (clock : Nat → Int) (tenantId : String)

def respond : Operation → Op Response
  | .putPipeline input => putPipeline clock tenantId input >>= fun view => pure (.pipeline view)
  | .publishPipeline pipelineId revisionId =>
      publishPipeline clock tenantId pipelineId revisionId >>= fun view => pure (.pipeline view)
  | .deletePipeline pipelineId expected =>
      deletePipeline clock tenantId pipelineId expected >>= fun revisionId => pure (.revision revisionId)
  | .putOntology input => putOntology clock tenantId input >>= fun view => pure (.ontology view)
  | .publishOntology input => publishOntology clock tenantId input >>= fun record => pure (.publication record)
  | .retireOntology ontologyId publicationId revisionId =>
      retireOntology clock tenantId ontologyId publicationId revisionId >>= fun head => pure (.revision head)
  | .putBinding expected binding => putBinding tenantId expected binding >>= fun stored => pure (.binding stored)
  | .mergeOntology input => mergeOntologyRevisions clock tenantId input >>= fun result => pure (.merged result)
  | .authorPipeline input command => authorPipeline clock tenantId input command >>= fun view => pure (.pipeline view)
  | .authorOntology input command => authorOntology clock tenantId input command >>= fun view => pure (.ontology view)

theorem respond_answered (op : Operation) : (respond clock tenantId op >>= fun _ => pure ()) = program clock tenantId op := by
  cases op <;> simp only [respond, program, answered, bind_assoc, pure_bind]

section Shapes

variable {clock : Nat → Int} {tenantId i : String} {o : Origin} {text : String} {α β : Type} {quiet : β → Prop}

theorem guarded_check {b : Bool} {f : Unit → Op β} (h : b = true → Guarded i (f ())) :
    Guarded i (check o b text >>= f) :=
  .lift_bind fun _ hb => h (ensure_eq_ok.mp hb)

theorem guarded_commits {state : TenantState} {author message : String} :
    Guarded i (Prog.commits i state author message : Op String) := ⟨rfl, fun r => ⟨r, rfl⟩⟩

theorem optimistic_check {b : Bool} {f : Unit → Op β} (h : Optimistic quiet (f ())) :
    Optimistic quiet (check o b text >>= f) := .bind (pinned_check _) fun _ => h

/-- What has just been stored is found. -/
theorem require_settles {x : Option α} {a : α} (h : x = some a) (f : α → β) :
    ∃ b, (require o x text >>= fun y => pure (f y)) = (pure b : Op β) := by
  refine ⟨f a, ?_⟩
  rw [h]
  rfl

theorem optimistic_putPipeline (input : PutPipeline) :
    Optimistic (fun _ => False) (putPipeline clock tenantId input) := by
  refine .bind (pinned_validateIdentity _) fun _ => ?_
  refine optimistic_check (optimistic_check (optimistic_check (optimistic_check ?_)))
  refine .bind pinned_prepared fun _ => optimistic_head_bind fun snapshot => ?_
  refine .bind (pinned_check _) fun _ => .bind (pinned_check _) fun _ => .bind (pinned_check _) fun _ => ?_
  refine .bind (pinned_expectHead _ _ _ _) fun _ => .bind (pinned_check _) fun _ => ?_
  refine .bind (pinned_reported _) fun _ => .bind (pinned_compileComposition _ _ _ _) fun _ => ?_
  exact guarded_commits_bind fun r => require_settles (by rw [TenantState.withPipeline_pipelines, if_pos rfl]) _

theorem optimistic_publishPipeline (pipelineId revisionId : String) :
    Optimistic (fun _ => False) (publishPipeline clock tenantId pipelineId revisionId) := by
  refine .bind (pinned_validateIdentity _) fun _ => optimistic_check ?_
  refine .bind (pinned_pinned _) fun pinned => .bind (pinned_require _) fun candidate => optimistic_check ?_
  refine .bind (pinned_reported _) fun _ => .bind (pinned_validatePipelineOntologyDependencies _ _) fun _ => ?_
  refine .bind (pinned_compileComposition _ _ _ _) fun _ => optimistic_head_bind fun current => ?_
  refine guarded_check fun hhead => .bind (pinned_require _) fun pipeline => ?_
  obtain rfl := beq_iff_eq.mp hhead
  exact guarded_commits_bind fun r => require_settles (by rw [TenantState.withPipeline_pipelines, if_pos rfl]) _

theorem optimistic_deletePipeline (pipelineId expected : String) :
    Optimistic (fun _ => False) (deletePipeline clock tenantId pipelineId expected) := by
  refine .bind (pinned_validateIdentity _) fun _ => optimistic_head_bind fun snapshot => ?_
  refine guarded_check fun hhead => .bind (pinned_require _) fun pipeline => ?_
  obtain rfl := beq_iff_eq.mp hhead
  exact guarded_commits

theorem optimistic_putOntology (input : PutOntology) :
    Optimistic (fun _ => False) (putOntology clock tenantId input) := by
  refine .bind (pinned_validateIdentity _) fun _ => ?_
  refine optimistic_check (optimistic_check (optimistic_check ?_))
  refine .bind (pinned_reported _) fun _ => .bind pinned_prepared fun _ => optimistic_head_bind fun snapshot => ?_
  refine .bind (pinned_check _) fun _ => .bind (pinned_check _) fun _ => ?_
  refine .bind (pinned_expectHead _ _ _ _) fun _ => .bind (pinned_replaceableIfAny _ _) fun _ => ?_
  extract_lets record state
  have hsized : Pinned record.validateWorkspaceSize := pinned_validateWorkspaceSize record
  -- the measure of the record is not unfolded
  generalize record.validateWorkspaceSize = sized at hsized ⊢
  refine .bind hsized fun _ => guarded_commits_bind fun r => ?_
  exact require_settles (by rw [TenantState.withOntology_ontologies, if_pos rfl]) _

theorem optimistic_publishOntology (input : PublishOntology) :
    Optimistic (fun _ => False) (publishOntology clock tenantId input) := by
  refine .bind (pinned_validateIdentity _) fun _ => optimistic_check ?_
  refine .bind (pinned_ontologyAt _ _) fun pinned => optimistic_head_bind fun current => ?_
  refine .bind (pinned_require _) fun existing => .bind (pinned_check _) fun _ => ?_
  refine .bind (pinned_require _) fun version => .bind (pinned_check _) fun _ => ?_
  refine guarded_commits_bind fun r => ⟨publicationOf input pinned.record version (clock 0), ?_⟩
  rw [TenantState.withOntology_ontologies, if_pos rfl]
  rfl

theorem optimistic_retireOntology (ontologyId publicationId revisionId : String) :
    Optimistic (fun _ => False) (retireOntology clock tenantId ontologyId publicationId revisionId) := by
  refine .bind (pinned_validateIdentity _) fun _ => optimistic_head_bind fun snapshot => ?_
  refine .bind (pinned_require _) fun existing => .bind (pinned_require _) fun publication => ?_
  exact .bind (pinned_check _) fun _ => guarded_commits

theorem optimistic_putBinding (expected : String) (binding : OntologyBindingRecord) :
    Optimistic (fun _ => False) (putBinding tenantId expected binding) := by
  refine .bind (pinned_validateIdentity _) fun _ => optimistic_check (optimistic_check ?_)
  refine .bind pinned_prepared fun _ => optimistic_head_bind fun snapshot => guarded_check fun hhead => ?_
  refine .bind (pinned_require _) fun pipeline => .bind (pinned_check _) fun _ => ?_
  refine .bind (pinned_validatePublishedBinding _ _) fun _ => ?_
  obtain rfl := beq_iff_eq.mp hhead
  exact guarded_commits_bind fun r => require_settles (by rw [TenantState.withBinding_bindings, if_pos rfl]) _

/-- The models are read at three revisions before the head is. -/
theorem optimistic_mergeOntologyRevisions (input : MergeRevisions) :
    Optimistic (fun result => result.2 = none) (mergeOntologyRevisions clock tenantId input) := by
  refine .bind pinned_prepared fun _ => .bind (pinned_ontologyAt _ _) fun base => ?_
  refine .bind (pinned_ontologyAt _ _) fun left => .bind (pinned_ontologyAt _ _) fun right => ?_
  refine .bind (pinned_reported _) fun result => ?_
  cases result.ontology with
  | none => exact rfl
  | some ontology => exact (optimistic_putOntology _).map fun _ h => h.elim

theorem optimistic_authorPipeline (input : PutPipeline) (command : AuthoringCommand) :
    Optimistic (fun _ => False) (authorPipeline clock tenantId input command) := by
  refine optimistic_check (optimistic_check (optimistic_check (optimistic_check ?_)))
  refine .bind (pinned_prepareCreation _ _) fun _ => optimistic_head_bind fun snapshot => ?_
  refine .bind (pinned_check _) fun _ => .bind (pinned_check _) fun _ => .bind (pinned_check _) fun _ => ?_
  refine .bind (pinned_applyCommand _) fun edited => ?_
  extract_lets record state
  have hsized : Pinned (check .pipelineService (record.toJson.toVec.length ≤ 3 * 1024 * 1024)
    "pipeline workspace size limit exceeded") :=
    pinned_check _
  generalize check _ (decide (record.toJson.toVec.length ≤ _)) _ = sized at hsized ⊢
  refine .bind hsized fun _ => ?_
  exact guarded_commits_bind fun r => require_settles (by rw [TenantState.withPipeline_pipelines, if_pos rfl]) _

theorem optimistic_authorOntology (input : PutOntology) (command : OntologyCommand) :
    Optimistic (fun _ => False) (authorOntology clock tenantId input command) := by
  refine .bind (pinned_validateIdentity _) fun _ => optimistic_check (optimistic_check ?_)
  refine .bind (pinned_require _) fun expected => optimistic_check (optimistic_head_bind fun snapshot => ?_)
  refine guarded_check fun hhead => .bind (pinned_require _) fun record => .bind (pinned_check _) fun _ => ?_
  refine .bind (pinned_applyOntologyCommand _) fun edited => ?_
  extract_lets record state
  have hsized : Pinned record.validateWorkspaceSize := pinned_validateWorkspaceSize record
  generalize record.validateWorkspaceSize = sized at hsized ⊢
  refine .bind hsized fun _ => ?_
  obtain rfl := beq_iff_eq.mp hhead
  exact guarded_commits_bind fun r => require_settles (by rw [TenantState.withOntology_ontologies, if_pos rfl]) _

/-- No operation writes on the strength of anything but the head that it read. -/
theorem optimistic_respond (op : Operation) : Optimistic Response.quiet (respond clock tenantId op) := by
  cases op with
  | putPipeline input => exact (optimistic_putPipeline input).map fun _ h => h.elim
  | publishPipeline pipelineId revisionId =>
      exact (optimistic_publishPipeline pipelineId revisionId).map fun _ h => h.elim
  | deletePipeline pipelineId expected => exact (optimistic_deletePipeline pipelineId expected).map fun _ h => h.elim
  | putOntology input => exact (optimistic_putOntology input).map fun _ h => h.elim
  | publishOntology input => exact (optimistic_publishOntology input).map fun _ h => h.elim
  | retireOntology ontologyId publicationId revisionId =>
      exact (optimistic_retireOntology ontologyId publicationId revisionId).map fun _ h => h.elim
  | putBinding expected binding => exact (optimistic_putBinding expected binding).map fun _ h => h.elim
  | mergeOntology input => exact (optimistic_mergeOntologyRevisions input).map fun _ h => h
  | authorPipeline input command => exact (optimistic_authorPipeline input command).map fun _ h => h.elim
  | authorOntology input command => exact (optimistic_authorOntology input command).map fun _ h => h.elim

end Shapes

section Frames

def Operation.pipeline : Operation → Option String
  | .putPipeline input => some input.pipelineId
  | .publishPipeline pipelineId _ => some pipelineId
  | .deletePipeline pipelineId _ => some pipelineId
  | .authorPipeline input _ => some input.pipelineId
  | _ => none

def Operation.binding : Operation → Option String
  | .putBinding _ binding => some (bindingKey binding.pipelineId binding.blockId)
  | .authorPipeline input (.bindOntology blockId _) => some (bindingKey input.pipelineId blockId)
  | _ => none

structure Framed (op : Operation) (old new : TenantState) : Prop where
  pipelines : ∀ id, op.pipeline ≠ some id → new.pipelines[id]? = old.pipelines[id]?
  ontologies : ∀ id, op.ontology ≠ some id → new.ontologies[id]? = old.ontologies[id]?
  bindings : ∀ key, op.binding ≠ some key → new.bindings[key]? = old.bindings[key]?

variable {op : Operation} {old new : TenantState} {clock : Nat → Int} {tenantId : String} {s : Branchline}

theorem framed_pipeline {id : String} (hop : op.pipeline = some id) (record : PipelineRecord) :
    Framed op old (old.withPipeline id record) where
  pipelines k hk := by
    rw [TenantState.withPipeline_pipelines, if_neg fun h => hk (hop.trans (congrArg some h))]
  ontologies k hk := rfl
  bindings k hk := rfl

theorem framed_ontology {id : String} (hop : op.ontology = some id) (record : OntologyRecord) :
    Framed op old (old.withOntology id record) where
  pipelines k hk := rfl
  ontologies k hk := by
    rw [TenantState.withOntology_ontologies, if_neg fun h => hk (hop.trans (congrArg some h))]
  bindings k hk := rfl

theorem framed_author {input : PutPipeline} {command : AuthoringCommand} {edited : Workspace} {now : Int} (hs : SelfKeyed s)
    (h : Edit tenantId s input now s.head.revisionId s.head.state.bindings
      (managedRecord input now s.head.state.pipelines[input.pipelineId]?) command edited) (record : PipelineRecord) :
    Framed (.authorPipeline input command) s.head.state
      ({ s.head.state with bindings := edited.bindings }.withPipeline input.pipelineId record) := by
  have hplain : Framed (.authorPipeline input command) s.head.state (s.head.state.withPipeline input.pipelineId record) :=
    framed_pipeline rfl record
  refine ⟨hplain.pipelines, fun k hk => rfl, fun key hkey => ?_⟩
  cases h with
  | revise kept cleared => rfl
  | @bind blockId ontologyId time edited kept cleared hblock hpublished =>
      have hother : bindingKey input.pipelineId blockId ≠ key := fun h => hkey (congrArg some h)
      rw [TenantState.withPipeline_bindings, Keyed.getElem?_insert, managedRecord_pipelineId hs, if_neg hother]
  | branch kept content => rfl
  | approve valid => rfl
  | publish happroval hhash compiles => rfl
  | deploy hrelease admitted => rfl

theorem Effect.framed {state : TenantState} (h : Effect clock tenantId s op state) (hs : SelfKeyed s) :
    Framed op s.head.state state := by
  cases h with
  | putPipeline hid unmanaged creates => exact framed_pipeline rfl _
  | publishPipeline hold live unmanaged runs => exact framed_pipeline rfl _
  | deletePipeline hold => exact framed_pipeline rfl _
  | putOntology hid valid creates replaces => exact framed_ontology rfl _
  | publishOntology hold live hpinned => exact framed_ontology rfl _
  | retireOntology hold hpublication => exact framed_ontology rfl _
  | @putBinding expected binding pipeline hid hblock hpipeline hpublished =>
      refine ⟨fun k hk => rfl, fun k hk => rfl, fun key hkey => ?_⟩
      have hother : bindingKey binding.pipelineId binding.blockId ≠ key := fun h => hkey (congrArg some h)
      rw [TenantState.withBinding_bindings, if_neg hother]
  | @mergeOntology input merged state merges h =>
      cases h with
      | putOntology hid valid creates replaces =>
          have hop : Operation.ontology (.mergeOntology input) = some merged.ontologyId := congrArg some merges.addressed.symm
          exact framed_ontology hop _
  | authorPipeline hid creates edits hedited => exact framed_author hs (applyCommand_edit hedited) _
  | authorOntology hold live hedited => exact framed_ontology rfl _

end Frames

section Sessions

variable {κ : Type} [DecidableEq κ] (tenantId genesis : String) (call : κ → Call)

/-- The calls of any number of clients on the branch of a tenant that starts
empty, one storage request at a time, the latest request first. -/
def interleaved (schedule : List κ) : Session κ String TenantState Failure Response :=
  interleave backend (fun c => respond (call c).clock tenantId (call c).operation) (fun c => (call c).fresh)
    (Store.init genesis {}) schedule

omit [DecidableEq κ] in
theorem serial_eq_history (order : List κ) :
    serial backend (fun c => respond (call c).clock tenantId (call c).operation) (fun c => (call c).fresh)
      (Store.init genesis {}) order = history tenantId genesis (order.map call) := by
  induction order with
  | nil => rfl
  | cons c earlier ih =>
      rw [serial] at ih ⊢
      rw [replay, ih, respond_answered]
      rfl

/-- Concurrent calls are linearizable: whatever the order of their storage
requests, the branch holds the revisions of those calls that committed, each as
if it had run alone on its predecessor, with its answer and without touching
anything that it does not address. A refused call leaves no trace, and a call
that is answered without a commit is a merge with conflicts. -/
theorem interleavings_linearizable (schedule : List κ) :
    ∃ order : List κ, order.Sublist schedule ∧ order.Nodup ∧
      (interleaved tenantId genesis call schedule).store = history tenantId genesis (order.map call) ∧
      (∀ later c earlier, order = later ++ c :: earlier → ∃ answer state,
        (∃ h : (call c).fresh ∉ (history tenantId genesis (earlier.map call)).ids,
          history tenantId genesis ((c :: earlier).map call) =
            (history tenantId genesis (earlier.map call)).push (call c).fresh state h) ∧
        Framed (call c).operation (history tenantId genesis (earlier.map call)).head.state state ∧
        (respond (call c).clock tenantId (call c).operation).run backend (call c).fresh
          (history tenantId genesis (earlier.map call)) = (.ok answer, history tenantId genesis ((c :: earlier).map call)) ∧
        (interleaved tenantId genesis call schedule).pending c = .done (.ok answer)) ∧
      (∀ c answer, (interleaved tenantId genesis call schedule).pending c = .done (.ok answer) → c ∉ order →
        (respond (call c).clock tenantId (call c).operation).run backend (call c).fresh
          (interleaved tenantId genesis call schedule).store =
            (.ok answer, (interleaved tenantId genesis call schedule).store) ∧ answer.quiet) ∧
      ∀ c e, (interleaved tenantId genesis call schedule).pending c = .done (.error e) → c ∉ order := by
  have hexists : ∃ order, order.Sublist schedule ∧
      Linearized backend Response.quiet (fun c => respond (call c).clock tenantId (call c).operation) (fun c => (call c).fresh)
        (Store.init genesis {}) order (interleaved tenantId genesis call schedule) :=
    exists_linearized (fun c => optimistic_respond (call c).operation) schedule
  obtain ⟨order, hsub, hlinearized⟩ := hexists
  refine ⟨order, hsub, hlinearized.once, hlinearized.store.trans (serial_eq_history tenantId genesis call order),
    fun later c earlier hsplit => ?_, fun c answer hdone hc => hlinearized.read hc hdone, fun c e hdone =>
      hlinearized.refused hdone⟩
  obtain ⟨answer, hwrites, hdone⟩ := hlinearized.committed later c earlier hsplit
  rw [serial_eq_history, serial_eq_history] at hwrites
  have hmoved : history tenantId genesis ((c :: earlier).map call) ≠ history tenantId genesis (earlier.map call) := hwrites.2
  rcases history_cons (call c) (earlier.map call) with hkept | ⟨-, state, heffect, hfresh, hpushed⟩
  · exact absurd hkept hmoved
  · exact ⟨answer, state, ⟨hfresh, hpushed⟩, heffect.framed (history_selfKeyed _), hwrites.1, hdone⟩

end Sessions

end Galadril.Registry
