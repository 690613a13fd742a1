import Galadril.Registry.PublishedPipelines

namespace Galadril.Registry

open Json Lib.Checked Lib.Revisions Lib.Programs Identity Ontology Pipeline

variable {clock : Nat → Int} {tenantId genesis : String} {s : Branchline} {op : Operation} {state : TenantState}

variable {input : PutPipeline} {now : Int} {revisionId : String} {bindings : Keyed OntologyBindingRecord}
  {record : PipelineRecord} {command : AuthoringCommand} {edited : Workspace}

/-- An approval survives a command only together with the content it covers. -/
theorem Edit.approval_cases (h : Edit tenantId s input now revisionId bindings record command edited)
    {review : ContentReview} (hreview : edited.record.authoring.approval = some review) :
    edited.record.definition = record.definition ∧
      (record.authoring.approval = some review ∨
        command = .approve ∧ review.definitionHash = definitionHash record.definition ∧
          Accepts (validateExecutable record.definition)) := by
  cases h with
  | revise kept cleared => cases cleared.symm.trans hreview
  | bind kept cleared hblock hpublished => cases cleared.symm.trans hreview
  | branch kept content => exact ⟨content.definition, .inl (content.approval.symm.trans hreview)⟩
  | approve valid =>
      obtain rfl := Option.some.inj hreview
      exact ⟨rfl, .inr ⟨rfl, rfl, (), valid⟩⟩
  | publish happroval hhash compiles => exact ⟨rfl, .inl hreview⟩
  | deploy hrelease admitted => exact ⟨rfl, .inl hreview⟩

theorem Edit.release_cases (h : Edit tenantId s input now revisionId bindings record command edited)
    {release : PipelineRelease} (hrelease : edited.record.authoring.release = some release) :
    record.authoring.release = some release ∨
      ∃ review, record.authoring.approval = some review ∧ release.revisionId = revisionId ∧
        release.definitionHash = definitionHash record.definition := by
  cases h with
  | revise kept cleared => exact .inl (kept.release.symm.trans hrelease)
  | bind kept cleared hblock hpublished => exact .inl (kept.release.symm.trans hrelease)
  | branch kept content => exact .inl (kept.release.symm.trans hrelease)
  | approve valid => exact .inl hrelease
  | publish happroval hhash compiles =>
      obtain rfl := Option.some.inj hrelease
      exact .inr ⟨_, happroval, rfl, hhash⟩
  | deploy hrelease' admitted => exact .inl hrelease

/-- A managed pointer is moved by deployment only. -/
theorem Edit.published_cases (h : Edit tenantId s input now revisionId bindings record command edited) :
    edited.record.publishedRevisionId = record.publishedRevisionId ∨
      command = .deploy ∧ ∃ release, record.authoring.release = some release ∧
        edited.record.publishedRevisionId = some release.revisionId := by
  cases h with
  | revise kept cleared => exact .inl kept.published
  | bind kept cleared hblock hpublished => exact .inl kept.published
  | branch kept content => exact .inl kept.published
  | approve valid => exact .inl rfl
  | publish happroval hhash compiles => exact .inl rfl
  | deploy hrelease admitted => exact .inr ⟨rfl, _, hrelease, rfl⟩

section Records

variable {id : String} {record : PipelineRecord}

theorem Rewrites.approval_cases (h : Rewrites clock tenantId s id op record) {review : ContentReview}
    (hreview : record.authoring.approval = some review) :
    (∃ old, s.head.state.pipelines[id]? = some old ∧ old.authoring.approval = some review ∧
      record.definition = old.definition) ∨
    (∃ input, op = .authorPipeline input .approve ∧ input.pipelineId = id ∧
      review.definitionHash = definitionHash record.definition ∧ Accepts (validateExecutable record.definition)) := by
  cases h with
  | put hid unmanaged creates => cases hreview
  | @publish revisionId old hold live unmanaged runs => exact .inl ⟨old, hold, hreview, rfl⟩
  | @delete expected old hold => exact .inl ⟨old, hold, hreview, rfl⟩
  | @author input command edited hid creates edits hedited =>
      obtain ⟨hdefinition, hcases⟩ := (applyCommand_edit hedited).approval_cases hreview
      change edited.record.definition = _ at hdefinition
      rcases hcases with hkept | ⟨rfl, hhash, hvalid⟩
      · cases hold : s.head.state.pipelines[id]? with
        | none => simp [hold, managedRecord] at hkept
        | some old =>
            rw [hold] at hkept hdefinition
            exact .inl ⟨old, rfl, hkept, hdefinition⟩
      · rw [← hdefinition] at hhash hvalid
        exact .inr ⟨input, rfl, hid, hhash, hvalid⟩

theorem Rewrites.release_cases (h : Rewrites clock tenantId s id op record) {release : PipelineRelease}
    (hrelease : record.authoring.release = some release) :
    ∃ old, s.head.state.pipelines[id]? = some old ∧
      (old.authoring.release = some release ∨
        ∃ review, old.authoring.approval = some review ∧ release.revisionId = s.head.revisionId ∧
          release.definitionHash = definitionHash old.definition) := by
  cases h with
  | put hid unmanaged creates => cases hrelease
  | @publish revisionId old hold live unmanaged runs => exact ⟨old, hold, .inl hrelease⟩
  | @delete expected old hold => exact ⟨old, hold, .inl hrelease⟩
  | @author input command edited hid creates edits hedited =>
      have hcases := (applyCommand_edit hedited).release_cases hrelease
      cases hold : s.head.state.pipelines[id]? with
      | none => simp [hold, managedRecord] at hcases
      | some old =>
          rw [hold] at hcases
          exact ⟨old, rfl, hcases⟩

theorem Effect.pipeline_present (h : Effect clock tenantId s op state) {old : PipelineRecord}
    (hold : s.head.state.pipelines[id]? = some old) : ∃ new, state.pipelines[id]? = some new := by
  induction h with
  | putPipeline hid unmanaged creates =>
      rw [TenantState.withPipeline_pipelines]
      split
      · exact ⟨_, rfl⟩
      · exact ⟨old, hold⟩
  | publishPipeline hold' live unmanaged runs =>
      rw [TenantState.withPipeline_pipelines]
      split
      · exact ⟨_, rfl⟩
      · exact ⟨old, hold⟩
  | deletePipeline hold' =>
      rw [TenantState.withPipeline_pipelines]
      split
      · exact ⟨_, rfl⟩
      · exact ⟨old, hold⟩
  | putOntology hid valid creates replaces => exact ⟨old, hold⟩
  | publishOntology hold' live hpinned => exact ⟨old, hold⟩
  | retireOntology hold' hpublication => exact ⟨old, hold⟩
  | putBinding hid hblock hpipeline hpublished => exact ⟨old, hold⟩
  | mergeOntology merges h ih => exact ih
  | authorPipeline hid creates edits hedited =>
      rw [TenantState.withPipeline_pipelines]
      split
      · exact ⟨_, rfl⟩
      · exact ⟨old, hold⟩
  | authorOntology hold' live hedited => exact ⟨old, hold⟩

def PointerMoves (id : String) (op : Operation) (old new : PipelineRecord) : Prop :=
  new.publishedRevisionId = old.publishedRevisionId ∨
    (∃ input release, op = .authorPipeline input .deploy ∧ input.pipelineId = id ∧
      old.authoring.release = some release ∧ new.publishedRevisionId = some release.revisionId) ∨
    (∃ expected, op = .deletePipeline id expected ∧ new.publishedRevisionId = none)

theorem Rewrites.managed (h : Rewrites clock tenantId s id op record) {old : PipelineRecord}
    (hold : s.head.state.pipelines[id]? = some old) (hm : old.authoring.enabled = true) :
    record.authoring.enabled = true ∧ PointerMoves id op old record := by
  cases h with
  | put hid unmanaged creates => simp [unmanaged old hold] at hm
  | @publish revisionId old' hold' live unmanaged runs =>
      obtain rfl := Option.some.inj (hold'.symm.trans hold)
      simp [unmanaged] at hm
  | @delete expected old' hold' =>
      obtain rfl := Option.some.inj (hold'.symm.trans hold)
      exact ⟨hm, .inr (.inr ⟨expected, rfl, rfl⟩)⟩
  | @author input command edited hid creates edits hedited =>
      have hedit := applyCommand_edit hedited
      rw [hold] at hedit
      refine ⟨hedit.kept.enabled, ?_⟩
      rcases hedit.published_cases with hkept | ⟨rfl, release, hrelease, hmoved⟩
      · exact .inl hkept
      · exact .inr (.inl ⟨input, release, rfl, hid, hrelease, hmoved⟩)

end Records

end Galadril.Registry
