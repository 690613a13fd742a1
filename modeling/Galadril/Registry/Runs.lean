import Galadril.Lib.Replays
import Galadril.Registry.Effects

namespace Galadril.Registry

open Json Lib.Checked Lib.Revisions Lib.Programs Lib.Replays Identity Ontology Pipeline

/-- One request, with the times its execution reads and the identity that the
storage boundary offers to its commit. -/
structure Call where
  clock : Nat → Int
  operation : Operation
  fresh : String

def Call.program (tenantId : String) (call : Call) : Op Unit := Registry.program call.clock tenantId call.operation

def history (tenantId genesis : String) (calls : List Call) : Branchline :=
  replay backend (Call.program tenantId) Call.fresh (Store.init genesis {}) calls

variable {tenantId genesis : String}

theorem history_cons (call : Call) (earlier : List Call) :
    history tenantId genesis (call :: earlier) = history tenantId genesis earlier ∨
      validRevision call.fresh = true ∧
        ∃ state, Effect call.clock tenantId (history tenantId genesis earlier) call.operation state ∧
          ∃ h : call.fresh ∉ (history tenantId genesis earlier).ids,
            history tenantId genesis (call :: earlier) = (history tenantId genesis earlier).push call.fresh state h := by
  rcases (replay_cons call earlier : history tenantId genesis (call :: earlier) = _ ∨ _) with h | ⟨r, h⟩
  · exact .inl h
  · exact .inr (effect_of_writes h).2

theorem history_extends (later earlier : List Call) :
    (history tenantId genesis earlier).Extends (history tenantId genesis (later ++ earlier)) :=
  replay_extends later earlier

theorem fresh_ne_head {s : Branchline} {fresh : String} (h : fresh ∉ s.ids) : fresh ≠ s.head.revisionId := by
  rintro rfl
  exact h List.mem_cons_self

def Call.Moves (tenantId genesis : String) (earlier : List Call) (call : Call) : Prop :=
  (history tenantId genesis (call :: earlier)).head.revisionId ≠ (history tenantId genesis earlier).head.revisionId

theorem moves_of_push {call : Call} {earlier : List Call} {state : TenantState}
    {h : call.fresh ∉ (history tenantId genesis earlier).ids}
    (hpush : history tenantId genesis (call :: earlier) = (history tenantId genesis earlier).push call.fresh state h) :
    call.Moves tenantId genesis earlier := by
  rw [Call.Moves, hpush]
  exact fresh_ne_head h

theorem history_invariant {P : Branchline → Prop} (start : P (Store.init genesis {}))
    (step : ∀ s clock op state fresh, P s → Effect clock tenantId s op state → validRevision fresh = true →
      ∀ h : fresh ∉ s.ids, P (s.push fresh state h)) (calls : List Call) : P (history tenantId genesis calls) := by
  refine replay_invariant start (fun call s r t hs h => ?_) calls
  obtain ⟨-, hf, state, he, hn, rfl⟩ := effect_of_writes h
  exact step s _ _ state _ hs he hf hn

section Pipelines

variable {clock : Nat → Int} {tenantId : String} {s : Branchline} {op : Operation} {state : TenantState}

inductive Rewrites (clock : Nat → Int) (tenantId : String) (s : Branchline) (id : String) :
    Operation → PipelineRecord → Prop
  | put {input : PutPipeline} (hid : input.pipelineId = id)
      (unmanaged : ∀ old, s.head.state.pipelines[id]? = some old → old.authoring.enabled = false)
      (creates : input.createOnly = s.head.state.pipelines[id]?.isNone) :
      Rewrites clock tenantId s id (.putPipeline input)
        (replacedPipeline (clock 0) s.head.revisionId input s.head.state.pipelines[id]?)
  | publish {revisionId : String} {old : PipelineRecord} (hold : s.head.state.pipelines[id]? = some old)
      (live : old.deletedAtMs = none) (unmanaged : old.authoring.enabled = false)
      (runs : Accepts ((runtimePipeline tenantId id revisionId).query backend s)) :
      Rewrites clock tenantId s id (.publishPipeline id revisionId) (old.published revisionId (clock 0))
  | delete {expected : String} {old : PipelineRecord} (hold : s.head.state.pipelines[id]? = some old) :
      Rewrites clock tenantId s id (.deletePipeline id expected) (old.deleted (clock 0))
  | author {input : PutPipeline} {command : AuthoringCommand} {edited : Workspace} (hid : input.pipelineId = id)
      (creates : input.createOnly = true → s.head.state.pipelines[id]? = none ∧ command.savesMain = true)
      (edits : input.createOnly = false →
        ∃ old, s.head.state.pipelines[id]? = some old ∧ old.deletedAtMs = none)
      (hedited : (applyCommand clock tenantId input s.head
        (managedRecord input (clock 0) s.head.state.pipelines[id]?) command).query backend s = .ok edited) :
      Rewrites clock tenantId s id (.authorPipeline input command)
        (stamped input s.head.revisionId (clock 0) edited.record)

theorem Effect.pipeline_cases (h : Effect clock tenantId s op state) {id : String} {record : PipelineRecord}
    (hrecord : state.pipelines[id]? = some record) :
    s.head.state.pipelines[id]? = some record ∨ Rewrites clock tenantId s id op record := by
  induction h with
  | @putPipeline input hid unmanaged creates =>
      rw [TenantState.withPipeline_pipelines] at hrecord
      split at hrecord
      · next hk =>
          subst hk
          obtain rfl := Option.some.inj hrecord
          exact .inr (.put rfl unmanaged creates)
      · exact .inl hrecord
  | @publishPipeline pipelineId revisionId old hold live unmanaged runs =>
      rw [TenantState.withPipeline_pipelines] at hrecord
      split at hrecord
      · next hk =>
          subst hk
          obtain rfl := Option.some.inj hrecord
          exact .inr (.publish hold live unmanaged runs)
      · exact .inl hrecord
  | @deletePipeline pipelineId expected old hold =>
      rw [TenantState.withPipeline_pipelines] at hrecord
      split at hrecord
      · next hk =>
          subst hk
          obtain rfl := Option.some.inj hrecord
          exact .inr (.delete hold)
      · exact .inl hrecord
  | putOntology hid valid creates replaces => exact .inl hrecord
  | publishOntology hold live hpinned => exact .inl hrecord
  | retireOntology hold hpublication => exact .inl hrecord
  | putBinding hid hblock hpipeline hpublished => exact .inl hrecord
  | mergeOntology merges h ih =>
      rcases ih hrecord with hkept | hrewritten
      · exact .inl hkept
      · cases hrewritten
  | @authorPipeline input command edited hid creates edits hedited =>
      rw [TenantState.withPipeline_pipelines] at hrecord
      split at hrecord
      · next hk =>
          subst hk
          obtain rfl := Option.some.inj hrecord
          exact .inr (.author rfl creates edits hedited)
      · exact .inl hrecord
  | authorOntology hold live hedited => exact .inl hrecord

end Pipelines

def revisionOf (n : Nat) : String := String.ofList (List.replicate 19 '0' ++ [Nat.digitChar n])

def callOf (n : Nat) (operation : Operation) : Call := ⟨fun _ => 0, operation, revisionOf n⟩

def mailDefinition (block : Members) : Value :=
  .object [("name", .string "mail"),
    ("sources", .array [.object [("id", .string "inbox"), ("topic", .string "mail"),
      ("match_pattern", .string "*"), ("schema_path", .string "mail.json")]]),
    ("pipeline", .array [.object ([("step", .string "score"), ("type", .string "algorithm"),
      ("input_from", .array [.string "inbox"])] ++ block)])]

def mailInput (block : Members) (expected : Option String) : PutPipeline where
  pipelineId := "mail"
  name := "mail"
  ownerId := "owner"
  definition := mailDefinition block
  author := "author"
  message := "message"
  expectedRevisionId := expected
  createOnly := expected.isNone

def bookInput : PutOntology where
  ontologyId := "book"
  displayName := "book"
  ontology := addressBook
  author := "author"
  message := "message"
  expectedRevisionId := none
  createOnly := true

def bookCalls : List Call :=
  [callOf 2 (.publishOntology ⟨"book", "book", "publication", revisionOf 1, .null, true⟩),
    callOf 1 (.putOntology bookInput)]

def bookBinding (resourceIds : List String) (includeDependencies : Bool) : OntologyBindingRecord where
  pipelineId := "mail"
  blockId := "score"
  ontologyId := "book"
  resourceIds := resourceIds
  resourceKinds := []
  includeDependencies := includeDependencies
  metadata := .null
  updatedAtMs := 0

def mailRelease (block : Members) : List Call :=
  [callOf 3 (.authorPipeline (mailInput block (some (revisionOf 2))) .publish),
    callOf 2 (.authorPipeline (mailInput block (some (revisionOf 1))) .approve),
    callOf 1 (.authorPipeline (mailInput block none) (.saveDraft "main"))]

def mailDeploy (block : Members) : Call := callOf 4 (.authorPipeline (mailInput block (some (revisionOf 3))) .deploy)

/-- The later store gives the answer of the earlier one, unless the earlier
one was asked for a revision that it did not hold. -/
def Unmoved {α : Type} (p : Op α) (s t : Branchline) : Prop :=
  p.query backend s ≠ .error backend.missing → p.query backend t = p.query backend s

/-- Reads at a pinned revision give the same answer after any further calls. -/
theorem pinned_reads_unmoved (tenantId genesis : String) (calls later : List Call) :
    (∀ pipelineId revisionId, Unmoved (runtimePipeline tenantId pipelineId revisionId)
      (history tenantId genesis calls) (history tenantId genesis (later ++ calls))) ∧
    (∀ pipelineId revisionId, Unmoved (pipelineRevision tenantId pipelineId revisionId)
      (history tenantId genesis calls) (history tenantId genesis (later ++ calls))) ∧
    (∀ ontologyId revisionId, Unmoved (ontologyAt tenantId ontologyId revisionId)
      (history tenantId genesis calls) (history tenantId genesis (later ++ calls))) ∧
    (∀ pipelineId revisionId blockId, Unmoved (ontologySlice tenantId pipelineId revisionId blockId)
      (history tenantId genesis calls) (history tenantId genesis (later ++ calls))) := by
  have hextends : (history tenantId genesis calls).Extends (history tenantId genesis (later ++ calls)) :=
    history_extends later calls
  exact ⟨fun p r => Pinned.query_stable (pinned_runtimePipeline p r) hextends,
    fun p r => Pinned.query_stable (pinned_pipelineRevision p r) hextends,
    fun o r => Pinned.query_stable (pinned_ontologyAt o r) hextends,
    fun p r b => Pinned.query_stable (pinned_ontologySlice p r b) hextends⟩

theorem pinned_reads_unmoved_mail :
    (pipelineRevision "tenant" "mail" (revisionOf 1)).query backend
        (history "tenant" (revisionOf 0) (mailDeploy [] :: mailRelease [])) =
      (pipelineRevision "tenant" "mail" (revisionOf 1)).query backend
        (history "tenant" (revisionOf 0) [callOf 1 (.authorPipeline (mailInput [] none) (.saveDraft "main"))]) := by
  refine (pinned_reads_unmoved "tenant" (revisionOf 0)
    [callOf 1 (.authorPipeline (mailInput [] none) (.saveDraft "main"))]
    (mailDeploy [] :: (mailRelease []).take 2)).2.1 "mail" (revisionOf 1) fun h => ?_
  have haccepts : Accepts ((pipelineRevision "tenant" "mail" (revisionOf 1)).query backend
      (history "tenant" (revisionOf 0) [callOf 1 (.authorPipeline (mailInput [] none) (.saveDraft "main"))])) := by
    decide +kernel
  rw [h] at haccepts
  exact not_accepts_error _ haccepts

/-- A revision that is read before it exists is found once it has been issued. -/
theorem pinned_read_before_commit :
    ¬ ∀ calls later : List Call,
      (pipelineRevision "tenant" "mail" (revisionOf 1)).query backend
          (history "tenant" (revisionOf 0) (later ++ calls)) =
        (pipelineRevision "tenant" "mail" (revisionOf 1)).query backend (history "tenant" (revisionOf 0) calls) := by
  intro h
  have hbefore : ¬ Accepts ((pipelineRevision "tenant" "mail" (revisionOf 1)).query backend
      (history "tenant" (revisionOf 0) [])) := by
    decide +kernel
  have hafter : Accepts ((pipelineRevision "tenant" "mail" (revisionOf 1)).query backend
      (history "tenant" (revisionOf 0) [callOf 1 (.putPipeline (mailInput [] none))])) := by
    decide +kernel
  have hsame := h [] [callOf 1 (.putPipeline (mailInput [] none))]
  rw [List.append_nil] at hsame
  rw [hsame] at hafter
  exact hbefore hafter

end Galadril.Registry
