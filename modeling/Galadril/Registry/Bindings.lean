import Galadril.Registry.PublishedPipelines

namespace Galadril.Registry

open Json Lib.Checked Lib.Revisions Lib.Programs Identity Ontology Pipeline

variable {clock : Nat → Int} {tenantId genesis : String} {s : Branchline} {op : Operation} {state : TenantState}

theorem plain_notMem {least most : Nat} {punctuation : List Char} {value : String} {c : Char}
    (h : plain least most punctuation value = true) (hc : c.isAlphanum = false) (hp : c ∉ punctuation) :
    c ∉ value.toList := by
  intro hm
  simp only [plain, Bool.and_eq_true, List.all_eq_true, Bool.or_eq_true, List.contains_iff_mem] at h
  rcases h.2 c hm with ha | ha
  · simp [hc] at ha
  · exact hp ha

theorem bindingKey_inj {p q b c : String} (hp : validIdentity p = true) (hb : validIdentity b = true)
    (h : bindingKey p b = bindingKey q c) : p = q ∧ b = c := by
  have hl := congrArg String.toList h
  simp only [bindingKey, String.toList_append, String.toList_singleton, List.append_assoc, List.cons_append,
    List.nil_append] at hl
  rw [List.append_cons_inj_of_notMem (plain_notMem hp (by decide) (by decide))
    (plain_notMem hb (by decide) (by decide))] at hl
  exact ⟨String.toList_inj.mp hl.1, String.toList_inj.mp hl.2.2⟩

inductive Binds (clock : Nat → Int) (tenantId : String) (s : Branchline) :
    Operation → OntologyBindingRecord → Prop
  | put {expected : String} {binding : OntologyBindingRecord} {pipeline : PipelineRecord}
      (hid : validIdentity binding.pipelineId = true) (hblock : validIdentity binding.blockId = true)
      (hpipeline : s.head.state.pipelines[binding.pipelineId]? = some pipeline)
      (hpublished : (validatePublishedBinding tenantId s.head.state binding).query backend s = .ok ()) :
      Binds clock tenantId s (.putBinding expected binding) binding
  | author {input : PutPipeline} {blockId ontologyId : String} {time : Int} {record : PipelineRecord}
      (hid : validBranch input.pipelineId = true) (hblock : validBranch blockId = true)
      (hrecord : record = managedRecord input (clock 0) s.head.state.pipelines[input.pipelineId]?)
      (hpublished : (validatePublishedBinding tenantId s.head.state
        (explicitSelection time record.pipelineId blockId ontologyId)).query backend s = .ok ()) :
      Binds clock tenantId s (.authorPipeline input (.bindOntology blockId ontologyId))
        (explicitSelection time record.pipelineId blockId ontologyId)

/-- One operation writes at most one binding, under its own key. A command that
does so takes the approval of its pipeline. -/
theorem Effect.bindings_cases (h : Effect clock tenantId s op state) :
    state.bindings = s.head.state.bindings ∨
      ∃ b, Binds clock tenantId s op b ∧
        state.bindings = s.head.state.bindings.insert (bindingKey b.pipelineId b.blockId) b ∧
        ∀ input command, op = .authorPipeline input command →
          ∃ record, state.pipelines[input.pipelineId]? = some record ∧ record.authoring.approval = none := by
  induction h with
  | putPipeline hid unmanaged creates => exact .inl rfl
  | publishPipeline hold live unmanaged runs => exact .inl rfl
  | deletePipeline hold => exact .inl rfl
  | putOntology hid valid creates replaces => exact .inl rfl
  | publishOntology hold live hpinned => exact .inl rfl
  | retireOntology hold hpublication => exact .inl rfl
  | @putBinding expected binding pipeline hid hblock hpipeline hpublished =>
      exact .inr ⟨binding, .put hid hblock hpipeline hpublished, rfl, fun _ _ h => by cases h⟩
  | mergeOntology merges h ih =>
      rcases ih with hkept | ⟨b, hb, -⟩
      · exact .inl hkept
      · cases hb
  | @authorPipeline input command edited hid creates edits hedited =>
      cases applyCommand_edit hedited with
      | revise kept cleared => exact .inl rfl
      | bind kept cleared hblock hpublished =>
          refine .inr ⟨_, .author hid hblock rfl hpublished, rfl, fun input' command' hop => ?_⟩
          cases hop
          exact ⟨stamped input s.head.revisionId (clock 0) _, by simp, cleared⟩
      | branch kept content => exact .inl rfl
      | approve valid => exact .inl rfl
      | publish happroval hhash compiles => exact .inl rfl
      | deploy hrelease admitted => exact .inl rfl
  | authorOntology hold live hedited => exact .inl rfl

theorem Binds.valid {b : OntologyBindingRecord} (h : Binds clock tenantId s op b) (hs : SelfKeyed s) :
    validIdentity b.pipelineId = true ∧ validIdentity b.blockId = true := by
  cases h with
  | put hid hblock hpipeline hpublished => exact ⟨hid, hblock⟩
  | author hid hblock hrecord hpublished =>
      subst hrecord
      refine ⟨?_, validIdentity_of_validBranch hblock⟩
      change validIdentity (managedRecord _ _ _).pipelineId = true
      rw [managedRecord_pipelineId hs]
      exact validIdentity_of_validBranch hid

def BindingsKeyed (s : Branchline) : Prop :=
  ∀ (key : String) (b : OntologyBindingRecord), s.head.state.bindings[key]? = some b →
    key = bindingKey b.pipelineId b.blockId ∧ validIdentity b.pipelineId = true ∧ validIdentity b.blockId = true

theorem history_bindingsKeyed (calls : List Call) : BindingsKeyed (history tenantId genesis calls) := by
  have hboth : SelfKeyed (history tenantId genesis calls) ∧ BindingsKeyed (history tenantId genesis calls) := by
    refine history_invariant (P := fun s => SelfKeyed s ∧ BindingsKeyed s)
      ⟨selfKeyed_init, fun key b hb => ?_⟩ ?_ calls
    · simp [Store.init] at hb
    · rintro s clock op state fresh ⟨hkeyed, hs⟩ heffect - hfresh
      refine ⟨hkeyed.step heffect, fun key b hb => ?_⟩
      rcases heffect.bindings_cases with hkept | ⟨new, hnew, hinsert, -⟩
      · exact hs key b (hkept ▸ hb)
      · change state.bindings[key]? = some b at hb
        rw [hinsert, Keyed.getElem?_insert] at hb
        split at hb
        · next hk =>
            obtain rfl := Option.some.inj hb
            exact ⟨hk.symm, hnew.valid hkeyed⟩
        · exact hs key b hb
  exact hboth.2

theorem bindingRecordsFor_eq_values (state : TenantState) (id : String) :
    bindingRecordsFor state id = Keyed.values (state.bindings.filter fun _ b => b.pipelineId = id) := by
  simp only [bindingRecordsFor, Keyed.values, Std.ExtTreeMap.toList_filter, List.filter_map]
  rfl

/-- Writing a binding of another pipeline does not change the set of this one. -/
theorem bindingRecordsFor_insert {state : TenantState} {b : OntologyBindingRecord} {id : String}
    (hs : ∀ (key : String) (old : OntologyBindingRecord), s.head.state.bindings[key]? = some old →
      key = bindingKey old.pipelineId old.blockId)
    (hb : validIdentity b.pipelineId = true) (hblock : validIdentity b.blockId = true) (hne : b.pipelineId ≠ id)
    (hinsert : state.bindings = s.head.state.bindings.insert (bindingKey b.pipelineId b.blockId) b) :
    bindingRecordsFor state id = bindingRecordsFor s.head.state id := by
  rw [bindingRecordsFor_eq_values, bindingRecordsFor_eq_values]
  congr 1
  refine Std.ExtTreeMap.ext_getElem? fun key => ?_
  rw [Std.ExtTreeMap.getElem?_filter', Std.ExtTreeMap.getElem?_filter', hinsert, Keyed.getElem?_insert]
  split
  · next hk =>
      subst hk
      cases hold : s.head.state.bindings[bindingKey b.pipelineId b.blockId]? with
      | none => simp [hne]
      | some old =>
          obtain ⟨hp, -⟩ := bindingKey_inj hb hblock (hs _ old hold)
          have hold' : old.pipelineId ≠ id := hp ▸ hne
          simp [Option.filter_some, hne, hold']
  · rfl

end Galadril.Registry
