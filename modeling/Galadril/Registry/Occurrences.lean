import Galadril.Registry.Composition
import Galadril.Registry.PipelineValidity

namespace Galadril.Registry.Pipeline

open Json Lib Lib.Checked Identity Ontology Std

/-- One use of a pipeline definition in a composition. A transfer selects one
of its sources. -/
structure Occurrence where
  pipelineId : String
  revisionId : String
  definition : Value
  selected : Option String

namespace Occurrence

def sources (o : Occurrence) : List Value := (o.definition.getArray "sources").getD []

def steps (o : Occurrence) : List Value := (o.definition.getArray "pipeline").getD []

end Occurrence

/-- Nodes that an event at the given one gets to. Scheduled steps do not wait
for events. -/
inductive Reached (steps : List Value) (start : String) : String → Prop
  | start : Reached steps start start
  | step {step : Value} {id u : String} : step ∈ steps → scheduled step = false → step.getStr "step" = some id →
      Consumes step u → Reached steps start u → Reached steps start id

def Occurrence.Live (o : Occurrence) (id : String) : Prop :=
  id ∈ stepIds o.steps ∧ ∀ s, o.selected = some s → Reached o.steps s id

def transferred (definitions : Definitions) (step : Value) : Option Occurrence :=
  if step.getStr "type" = some "pipeline" then do
    let reference ← (step.get "pipeline_ref").bind parseReference
    let child ← definitions.lookup reference.key
    some ⟨reference.pipelineId, reference.revisionId, child, some reference.inputSource⟩
  else none

/-- The occurrences of a composition, each addressed by the transfer blocks
that lead to it. -/
inductive Occurs (definitions : Definitions) : Occurrence → List String → Occurrence → Prop
  | here (o : Occurrence) : Occurs definitions o [] o
  | enter {o child o' : Occurrence} {step : Value} {id : String} {site : List String} : step ∈ o.steps →
      step.getStr "step" = some id → o.Live id → transferred definitions step = some child →
      Occurs definitions child site o' → Occurs definitions o (id :: site) o'

/-- What the compiler checks of an authored definition before expanding it. -/
structure Authored (sources steps : List Value) : Prop where
  graph : Wellformed sources steps
  unreserved : ∀ step ∈ steps, ∀ id, step.getStr "step" = some id → startsWith "__linked_" id = false
  originless : ∀ step ∈ steps, nullOrAbsent step "origin" = true
  terminal : ∀ step ∈ steps, step.getStr "type" = some "pipeline" → ∀ id, step.getStr "step" = some id →
    ∀ v, ¬ Feeds steps id v
  driven : ∀ step ∈ steps, step.getStr "type" = some "pipeline" → scheduled step = false

variable {definition : Value} {sources steps : List Value}

theorem nodeReference_checks {found found' : List PipelineReference} {node : Value} {id : String}
    (hid : node.getStr "step" = some id) (h : nodeReference steps found node = .ok found') :
    startsWith "__linked_" id = false ∧ nullOrAbsent node "origin" = true ∧
      (node.getStr "type" = some "pipeline" → scheduled node = false ∧ ∀ v, ¬ Feeds steps id v) := by
  have hnode : ((node.get "step").or (node.get "id")).bind Value.asStr = some id := by
    rw [Value.getStr_eq_some.mp hid]
    rfl
  simp only [nodeReference, bind_eq_ok, context_eq_ok, ensure_eq_ok, Bool.and_eq_true, Bool.not_eq_true', hnode,
    Option.some.injEq] at h
  obtain ⟨_, rfl, _, ⟨hleads, horigin⟩, h⟩ := h
  refine ⟨hleads, horigin, fun htype => ?_⟩
  rw [if_pos htype, bind_eq_ok] at h
  obtain ⟨reference, href, -⟩ := h
  simp only [transferReference, bind_eq_ok, context_eq_ok, ensure_eq_ok] at href
  obtain ⟨_, -, value, -, parsed, -, _, -, _, htrigger, _, hterminal, -⟩ := href
  constructor
  · cases hp : node.get "params" with
    | none => simp [scheduled, Value.pointer, hp]
    | some params =>
        rw [hp, Option.all_some] at htrigger
        cases ht : params.get "trigger" with
        | none => simp [scheduled, Value.pointer, hp, ht]
        | some trigger =>
            rw [ht, Option.all_some, Value.beq_iff, Value.equiv_iff] at htrigger
            obtain rfl : trigger = .string "manual" := by
              cases trigger <;> simp_all [Value.canon]
            simp [scheduled, Value.pointer, hp, ht, Value.asStr]
  · rintro v ⟨step, hm, -, items, hitems, hu⟩
    rw [Bool.not_eq_true', List.any_eq_false] at hterminal
    have := hterminal step hm
    rw [hitems, Option.any_some, Bool.not_eq_true, List.any_eq_false] at this
    exact this _ hu (by simp [Value.asStr])

theorem references_authored {found : List PipelineReference} {order : List String}
    (hsources : definition.getArray "sources" = some sources) (hsteps : definition.getArray "pipeline" = some steps)
    (href : references definition = .ok found) (hvalid : validatePipelineStructure definition = .ok order) :
    Authored sources steps ∧ Arranged sources steps order := by
  obtain ⟨sources', steps', scan, hs, ht, hw, harranged, -⟩ := validatePipelineInternal_eq_ok hvalid
  obtain rfl := Option.some.inj (hs.symm.trans hsources)
  obtain rfl := Option.some.inj (ht.symm.trans hsteps)
  simp only [references, hsources, hsteps, context_some, ok_bind, bind_eq_ok] at href
  obtain ⟨_, -, hfold⟩ := href
  have hnode : ∀ step ∈ steps', ∃ b c, nodeReference steps' b step = .ok c := fun step hm =>
    foldlM_eq_ok_mem hfold (List.mem_append_right _ hm)
  refine ⟨⟨hw, fun step hm id hid => ?_, fun step hm => ?_, fun step hm htype id hid => ?_, fun step hm htype => ?_⟩,
    harranged⟩
  · obtain ⟨b, c, hn⟩ := hnode step hm
    exact (nodeReference_checks hid hn).1
  · obtain ⟨b, c, hn⟩ := hnode step hm
    obtain ⟨id, kind, inputs, hb, -⟩ := hw.blocks step hm
    exact (nodeReference_checks hb.id_eq hn).2.1
  · obtain ⟨b, c, hn⟩ := hnode step hm
    exact ((nodeReference_checks hid hn).2.2 htype).2
  · obtain ⟨b, c, hn⟩ := hnode step hm
    obtain ⟨id, kind, inputs, hb, -⟩ := hw.blocks step hm
    exact ((nodeReference_checks hb.id_eq hn).2.2 htype).1

variable {selected : String}

theorem Wellformed.find? (h : Wellformed sources steps) {id : String} {step : Value} :
    (steps.find? fun step => step.getStr "step" = some id) = some step ↔ step ∈ steps ∧ step.getStr "step" = some id := by
  constructor
  · intro hf
    exact ⟨List.mem_of_find?_eq_some hf, by simpa using List.find?_some hf⟩
  · rintro ⟨hm, hid⟩
    cases hf : steps.find? fun step => step.getStr "step" = some id with
    | none => simpa [hid] using List.find?_eq_none.mp hf step hm
    | some found =>
        have hid' : found.getStr "step" = some id := by simpa using List.find?_some hf
        rw [h.step_unique (List.mem_of_find?_eq_some hf) hm hid' hid]

/-- One pass in topological order collects exactly what the selected source
reaches, and every block collected has a single input. -/
structure Linked (steps : List Value) (selected : String) (before reachable : List String) : Prop where
  sound : ∀ x ∈ reachable, Reached steps selected x
  complete : ∀ x, Reached steps selected x → x = selected ∨ x ∈ before → x ∈ reachable
  single : ∀ step ∈ steps, ∀ x ∈ reachable, x ≠ selected → step.getStr "step" = some x →
    ∃ u, step.getArray "input_from" = some [.string u] ∧ Reached steps selected u

theorem Reached.inv {x : String} (h : Reached steps selected x) : x = selected ∨ ∃ step ∈ steps, scheduled step = false ∧
    step.getStr "step" = some x ∧ ∃ u, Consumes step u ∧ Reached steps selected u := by
  cases h with
  | start => exact .inl rfl
  | step hm hs hid hc hu => exact .inr ⟨_, hm, hs, hid, _, hc, hu⟩

theorem reach_linked (hw : Wellformed sources steps) {before reachable reachable' : List String} {id : String}
    (hbefore : ∀ u, Feeds steps u id → u ∈ before) (h : Linked steps selected before reachable)
    (hr : reach steps reachable id = .ok reachable') : Linked steps selected (before ++ [id]) reachable' := by
  have hkeep : (id ≠ selected → ¬ Reached steps selected id) → Linked steps selected (before ++ [id]) reachable := by
    refine fun hnot => ⟨h.sound, fun x hx hmem => ?_, h.single⟩
    rcases hmem with rfl | hmem
    · exact h.complete _ hx (.inl rfl)
    · rcases List.mem_append.mp hmem with hmem | hmem
      · exact h.complete x hx (.inr hmem)
      · obtain rfl := List.mem_singleton.mp hmem
        by_cases hs : x = selected
        · exact h.complete x hx (.inl hs)
        · exact absurd hx (hnot hs)
  rw [reach] at hr
  split at hr
  next hnone =>
    cases hr
    refine hkeep fun hs hx => ?_
    obtain rfl | ⟨step, hm, -, hid, -⟩ := hx.inv
    · exact hs rfl
    · rw [hw.find?.mpr ⟨hm, hid⟩] at hnone
      cases hnone
  next step hfind =>
    obtain ⟨hm, hid⟩ := hw.find?.mp hfind
    have honly : id ≠ selected → Reached steps selected id → scheduled step = false ∧
        ∃ u, Consumes step u ∧ Reached steps selected u := by
      intro hs hx
      obtain rfl | ⟨step', hm', hsched, hid', hc⟩ := hx.inv
      · exact absurd rfl hs
      · rw [hw.step_unique hm hm' hid hid']
        exact ⟨hsched, hc⟩
    split at hr
    next hsched =>
      cases hr
      refine hkeep fun hs hx => ?_
      rw [(honly hs hx).1] at hsched
      cases hsched
    next hsched =>
      simp only [bind_eq_ok, context_eq_ok] at hr
      obtain ⟨items, hitems, hr⟩ := hr
      split at hr
      next hany =>
        simp only [bind_eq_ok, ensure_eq_ok, pure_eq_ok, decide_eq_true_eq] at hr
        obtain ⟨_, hlen, rfl⟩ := hr
        rw [List.any_eq_true] at hany
        obtain ⟨item, hitem, hin⟩ := hany
        obtain ⟨u, hu, hmem⟩ : ∃ u, item.asStr = some u ∧ u ∈ reachable := by
          cases hu : item.asStr with
          | none => simp [hu] at hin
          | some u => exact ⟨u, rfl, by simpa [hu] using hin⟩
        obtain rfl := Value.asStr_eq_some.mp hu
        have hone : items = [.string u] := by
          obtain ⟨x, rfl⟩ := List.length_eq_one_iff.mp hlen
          rw [List.mem_singleton.mp hitem]
        have hreached : Reached steps selected id :=
          .step hm (by simpa using hsched) hid ⟨items, hitems, hitem⟩ (h.sound u hmem)
        refine ⟨fun x hx => ?_, fun x hx hmem' => ?_, fun s hs x hx hne hsid => ?_⟩
        · rcases List.mem_cons.mp hx with rfl | hx
          · exact hreached
          · exact h.sound x hx
        · rcases hmem' with hsel | hmem'
          · exact List.mem_cons_of_mem _ (h.complete x hx (.inl hsel))
          · rcases List.mem_append.mp hmem' with hmem' | hmem'
            · exact List.mem_cons_of_mem _ (h.complete x hx (.inr hmem'))
            · obtain rfl := List.mem_singleton.mp hmem'
              exact List.mem_cons_self
        · rcases List.mem_cons.mp hx with rfl | hx
          · rw [hw.step_unique hs hm hsid hid, hitems, hone]
            exact ⟨u, rfl, h.sound u hmem⟩
          · exact h.single s hs x hx hne hsid
      next hany =>
        obtain rfl := Except.ok.inj hr
        refine hkeep fun hs hx => hany ?_
        obtain ⟨-, u, ⟨items', hitems', hu⟩, hru⟩ := honly hs hx
        obtain rfl := Option.some.inj (hitems.symm.trans hitems')
        have hmem := h.complete u hru (.inr (hbefore u ⟨step, hm, hid, items, hitems, hu⟩))
        exact List.any_eq_true.mpr ⟨_, hu, by simpa [Value.asStr] using hmem⟩

theorem linkedBlocks_linked (hw : Wellformed sources steps) {order reachable : List String}
    (ho : Arranged sources steps order) (h : linkedBlocks sources steps order selected = .ok reachable) :
    selected ∈ sourceIds sources ∧ (∀ x, x ∈ reachable ↔ Reached steps selected x) ∧
      ∀ step ∈ steps, ∀ x, Reached steps selected x → x ≠ selected → step.getStr "step" = some x →
        ∃ u, step.getArray "input_from" = some [.string u] ∧ Reached steps selected u := by
  have hfold : ∀ (rest before : List String) (r r' : List String), order = before ++ rest →
      Linked steps selected before r → rest.foldlM (reach steps) r = .ok r' → Linked steps selected order r' := by
    intro rest
    induction rest with
    | nil =>
        intro before r r' he hl hr
        cases hr
        rwa [he, List.append_nil]
    | cons id rest ih =>
        intro before r r' he hl hr
        rw [List.foldlM_cons, bind_eq_ok] at hr
        obtain ⟨r₁, hr₁, hrest⟩ := hr
        exact ih (before ++ [id]) r₁ r' (by simpa using he)
          (reach_linked hw (ho.after before id rest he) hl hr₁) hrest
  simp only [linkedBlocks, bind_eq_ok, ensure_eq_ok, List.any_eq_true, decide_eq_true_eq] at h
  obtain ⟨_, ⟨source, hm, hid⟩, h⟩ := h
  have hstart : Linked steps selected [] [selected] := by
    refine ⟨fun x hx => ?_, fun x _ hx => ?_, fun step _ x hx hne _ => ?_⟩
    · rw [List.mem_singleton.mp hx]
      exact .start
    · rcases hx with rfl | hx
      · exact List.mem_singleton.mpr rfl
      · cases hx
    · exact absurd (List.mem_singleton.mp hx) hne
  have hl := hfold order [] _ _ rfl hstart h
  have hall : ∀ x, Reached steps selected x → x ∈ reachable := by
    intro x hx
    refine hl.complete x hx ?_
    obtain rfl | ⟨step, hm, -, hid, -⟩ := hx.inv
    · exact .inl rfl
    · exact .inr ((ho.mem_iff x).mpr (List.mem_append_right _ (mem_stepIds.mpr ⟨step, hm, hid⟩)))
  refine ⟨?_, fun x => ⟨hl.sound x, hall x⟩, fun step hs x hx => hl.single step hs x (hall x hx)⟩
  exact List.mem_filterMap.mpr ⟨source, hm, hid⟩

end Galadril.Registry.Pipeline
