import Galadril.Registry.PipelineScan

namespace Galadril.Registry.Pipeline

open Json Lib Lib.Checked Ontology Std

def Consumes (step : Value) (u : String) : Prop :=
  ∃ items, step.getArray "input_from" = some items ∧ .string u ∈ items

def Feeds (steps : List Value) (u v : String) : Prop :=
  ∃ step ∈ steps, step.getStr "step" = some v ∧ Consumes step u

theorem Block.consumes_iff {step : Value} {id kind u : String} {inputs : List String} (h : Block step id kind inputs) :
    Consumes step u ↔ u ∈ inputs := by
  rw [Consumes, h.inputs_eq]
  simp

/-- The graph an accepted pipeline describes. -/
structure Wellformed (sources steps : List Value) : Prop where
  named : ∀ source ∈ sources, ∃ id, source.getStr "id" = some id ∧ id ≠ ""
  blocks : ∀ step ∈ steps, ∃ id kind inputs, Block step id kind inputs ∧ stepIssues step id kind = []
  distinct : (nodeIds sources steps).Nodup
  closed : ∀ u v, Feeds steps u v → u ∈ nodeIds sources steps
  routes : ∀ step ∈ steps, validateRoute steps step = .ok ()
  acyclic : ∀ v, Acc (Feeds steps) v

structure Arranged (sources steps : List Value) (order : List String) : Prop where
  distinct : order.Nodup
  mem_iff : ∀ v, v ∈ order ↔ v ∈ nodeIds sources steps
  after : ∀ before v rest, order = before ++ v :: rest → ∀ u, Feeds steps u v → u ∈ before

theorem Wellformed.step_unique {sources steps : List Value} (h : Wellformed sources steps) {s t : Value} {id : String}
    (hs : s ∈ steps) (ht : t ∈ steps) (hsi : s.getStr "step" = some id) (hti : t.getStr "step" = some id) : s = t := by
  have hnd : (stepIds steps).Nodup := (List.nodup_append.mp h.distinct).2.1
  clear h
  induction steps with
  | nil => cases hs
  | cons x steps ih =>
      have htail : (stepIds steps).Nodup := by
        rw [stepIds, List.filterMap_cons] at hnd
        split at hnd
        · exact hnd
        · exact (List.nodup_cons.mp hnd).2
      have hhead : x.getStr "step" = some id → id ∉ stepIds steps := by
        intro hx
        rw [stepIds, List.filterMap_cons, hx] at hnd
        exact (List.nodup_cons.mp hnd).1
      rcases List.mem_cons.mp hs with hsx | hs'
      · rcases List.mem_cons.mp ht with htx | ht'
        · rw [hsx, htx]
        · exact absurd (mem_stepIds.mpr ⟨t, ht', hti⟩) (hhead (hsx ▸ hsi))
      · rcases List.mem_cons.mp ht with htx | ht'
        · exact absurd (mem_stepIds.mpr ⟨s, hs', hsi⟩) (hhead (htx ▸ hti))
        · exact ih hs' ht' htail

variable {sources steps : List Value} {scan : Scan}

theorem Scanned.pairs_iff (h : Scanned sources steps scan) (hnd : (stepIds steps).Nodup) {u v : String} :
    (u, v) ∈ inputPairs scan.dependencies ↔ Feeds steps u v := by
  rw [mem_inputPairs]
  constructor
  · rintro ⟨inputs, hv, hu⟩
    obtain ⟨step, hm, hid, hins⟩ := (h.dependencies hnd v inputs).mp hv
    exact ⟨step, hm, hid, _, hins, List.mem_map_of_mem hu⟩
  · rintro ⟨step, hm, hid, items, hitems, hu⟩
    obtain ⟨id, kind, inputs, hb⟩ := h.blocks step hm
    obtain rfl := Option.some.inj (hid.symm.trans hb.id_eq)
    refine ⟨inputs, (h.dependencies hnd v inputs).mpr ⟨step, hm, hid, hb.inputs_eq⟩, ?_⟩
    exact hb.consumes_iff.mp ⟨items, hitems, hu⟩

theorem Scanned.mem_graphNodes (h : Scanned sources steps scan) {v : String} :
    v ∈ graphNodes scan.sources scan.dependencies ↔ v ∈ nodeIds sources steps := by
  rw [Pipeline.mem_graphNodes, h.received, h.keys, nodeIds, List.mem_append]

theorem Scanned.dangling_iff (h : Scanned sources steps scan) (hnd : (stepIds steps).Nodup) :
    danglingDependencies scan = [] ↔ ∀ u v, Feeds steps u v → u ∈ nodeIds sources steps := by
  have hpairs : danglingDependencies scan = [] ↔
      ∀ u v, (u, v) ∈ inputPairs scan.dependencies → u ∈ scan.nodes := by
    simp only [danglingDependencies, List.flatMap_eq_nil_iff, List.map_eq_nil_iff, List.filter_eq_nil_iff, Prod.forall,
      ExtTreeMap.mem_toList_iff_getElem?_eq_some, mem_inputPairs, Bool.not_eq_true', Bool.not_eq_false,
      ← ExtTreeSet.mem_iff_contains]
    constructor
    · rintro hall u v ⟨inputs, hv, hu⟩
      exact hall v inputs hv u hu
    · intro hall v inputs hv u hu
      exact hall u v ⟨inputs, hv, hu⟩
  rw [hpairs]
  refine forall_congr' fun u => forall_congr' fun v => ?_
  rw [h.pairs_iff hnd, h.nodes]

/-- Without dangling inputs, the order exists exactly when the graph has no
cycle. -/
theorem Scanned.order_iff (h : Scanned sources steps scan) (hnd : (stepIds steps).Nodup)
    (hclosed : ∀ u v, Feeds steps u v → u ∈ nodeIds sources steps) :
    (∀ order, topologicalOrder scan.sources scan.dependencies = some order → Arranged sources steps order ∧
      ∀ v, Acc (Feeds steps) v) ∧
    ((∀ v, Acc (Feeds steps) v) → ∃ order, topologicalOrder scan.sources scan.dependencies = some order) := by
  obtain ⟨order, hsorted, heq⟩ := topologicalOrder_eq scan.sources scan.dependencies
  have hlength := hsorted.length_eq_iff (nodup_graphNodes _ _)
  have hrel : (fun u v => (u, v) ∈ inputPairs scan.dependencies) = Feeds steps := by
    funext u v
    exact propext (h.pairs_iff hnd)
  have htarget : ∀ u v, Feeds steps u v → v ∈ nodeIds sources steps := by
    rintro u v ⟨step, hm, hid, -⟩
    exact List.mem_append_right _ (mem_stepIds.mpr ⟨step, hm, hid⟩)
  constructor
  · intro order' ho
    rw [heq] at ho
    split at ho
    next hl =>
      obtain rfl := Option.some.inj ho
      have hall := hlength.mp hl
      have hmem : ∀ v, v ∈ order ↔ v ∈ nodeIds sources steps := fun v =>
        ⟨fun hv => h.mem_graphNodes.mp ((hsorted.settled v).mp hv).1, fun hv => hall v (h.mem_graphNodes.mpr hv)⟩
      refine ⟨⟨hsorted.distinct, hmem, fun before v rest he u hu => ?_⟩, fun v => ?_⟩
      · exact hsorted.ordered before v rest he u ((h.pairs_iff hnd).mpr hu)
      · have hlisted : ∀ w ∈ order, Acc (Feeds steps) w := fun w hw => hrel ▸ hsorted.ordered.acc hw
        exact ⟨v, fun u hu => hlisted u ((hmem u).mpr (hclosed u v hu))⟩
    next => cases ho
  · intro hacc
    refine ⟨order, ?_⟩
    rw [heq, if_pos]
    refine hlength.mpr fun v hv => hsorted.complete (fun u w hu _ => ?_) (fun w _ => ?_) hv
    · exact h.mem_graphNodes.mpr (hclosed u w ((h.pairs_iff hnd).mp hu))
    · rw [hrel]
      exact hacc w

theorem forM_eq_ok {α : Type} {f : α → Except String Unit} {xs : List α} :
    xs.forM f = .ok () ↔ ∀ x ∈ xs, f x = .ok () := by
  induction xs with
  | nil => simp [pure, Except.pure]
  | cons x xs ih =>
      have hcons : (x :: xs).forM f = (f x >>= fun _ => xs.forM f) := rfl
      rw [hcons, bind_eq_ok, List.forall_mem_cons, ← ih]
      constructor
      · rintro ⟨_, hx, hxs⟩
        exact ⟨hx, hxs⟩
      · rintro ⟨hx, hxs⟩
        exact ⟨(), hx, hxs⟩

variable {definition : Value} {bindings : List PipelineBinding} {requireBindings : Bool} {order : List String}

/-- Validation accepts the documents that describe a graph and leave no
required binding open. -/
theorem validatePipelineInternal_eq_ok (h : validatePipelineInternal definition bindings requireBindings = .ok order) :
    ∃ sources steps scan, definition.getArray "sources" = some sources ∧ definition.getArray "pipeline" = some steps ∧
      Wellformed sources steps ∧ Arranged sources steps order ∧ Scanned sources steps scan ∧
      scanPipeline sources steps = .ok scan ∧ bindingIssues requireBindings scan steps bindings = .ok [] := by
  simp only [validatePipelineInternal, bind_eq_ok, context_eq_ok, ensure_eq_ok, List.isEmpty_iff,
    List.append_eq_nil_iff] at h
  obtain ⟨object, hobject, sources, hsources, steps, hsteps, scan, hscan, unbound, hunbound, _, hroutes, _, hissues,
    horder⟩ := h
  obtain ⟨⟨⟨hnone, hdangling⟩, rfl⟩, -⟩ := hissues
  have hs := scanPipeline_scanned hscan
  obtain ⟨hdistinct, hclean⟩ := hs.issues.mp hnone
  have hnd : (stepIds steps).Nodup := (List.nodup_append.mp hdistinct).2.1
  have hclosed := (hs.dangling_iff hnd).mp hdangling
  obtain ⟨harranged, hacyclic⟩ := (hs.order_iff hnd hclosed).1 order horder
  obtain ⟨m, rfl⟩ : ∃ m, definition = .object m := by
    cases definition <;> simp_all [Value.asObject]
  obtain rfl := Option.some.inj hobject
  refine ⟨sources, steps, scan, hsources, hsteps, ⟨hs.named, fun step hm => ?_, hdistinct, hclosed, ?_, hacyclic⟩,
    harranged, hs, hscan, hunbound⟩
  · obtain ⟨id, kind, inputs, hb⟩ := hs.blocks step hm
    exact ⟨id, kind, inputs, hb, hclean step hm id kind inputs hb⟩
  · exact forM_eq_ok.mp hroutes

theorem validatePipelineInternal_accepts {sources steps : List Value} {scan : Scan}
    (hsources : definition.getArray "sources" = some sources) (hsteps : definition.getArray "pipeline" = some steps)
    (hw : Wellformed sources steps) (hscan : scanPipeline sources steps = .ok scan)
    (hbound : bindingIssues requireBindings scan steps bindings = .ok []) :
    Accepts (validatePipelineInternal definition bindings requireBindings) := by
  have hs := scanPipeline_scanned hscan
  have hnd : (stepIds steps).Nodup := (List.nodup_append.mp hw.distinct).2.1
  have hnone : scan.issues = [] := hs.issues.mpr ⟨hw.distinct, fun step hm id kind inputs hb => by
    obtain ⟨id', kind', inputs', hb', hclean⟩ := hw.blocks step hm
    obtain ⟨rfl, rfl, -⟩ := hb.unique hb'
    exact hclean⟩
  have hdangling : danglingDependencies scan = [] := (hs.dangling_iff hnd).mpr hw.closed
  obtain ⟨order, horder⟩ := (hs.order_iff hnd hw.closed).2 hw.acyclic
  obtain ⟨m, rfl⟩ : ∃ m, definition = .object m := by
    cases definition <;> simp_all [Value.getArray, Value.get]
  refine ⟨order, ?_⟩
  simp only [validatePipelineInternal, bind_eq_ok, context_eq_ok, ensure_eq_ok]
  refine ⟨m, rfl, sources, hsources, steps, hsteps, scan, hscan, [], hbound, (), forM_eq_ok.mpr hw.routes, (), ?_, horder⟩
  simp [hnone, hdangling, horder]

/-- The structural checks accept exactly the documents that describe a graph. -/
theorem validatePipelineStructure_accepts : Accepts (validatePipelineStructure definition) ↔
    ∃ sources steps, definition.getArray "sources" = some sources ∧ definition.getArray "pipeline" = some steps ∧
      Wellformed sources steps := by
  constructor
  · rintro ⟨order, ho⟩
    obtain ⟨sources, steps, scan, hsources, hsteps, hw, -⟩ := validatePipelineInternal_eq_ok ho
    exact ⟨sources, steps, hsources, hsteps, hw⟩
  · rintro ⟨sources, steps, hsources, hsteps, hw⟩
    obtain ⟨scan, hscan⟩ := scanPipeline_accepts hw.named fun step hm => by
      obtain ⟨id, kind, inputs, hb, -⟩ := hw.blocks step hm
      exact ⟨id, kind, inputs, hb⟩
    exact validatePipelineInternal_accepts hsources hsteps hw hscan rfl

end Galadril.Registry.Pipeline
