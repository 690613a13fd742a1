import Galadril.Json.Insertion
import Galadril.Registry.PipelineOrder

namespace Galadril.Registry.Pipeline

open Json Lib Lib.Checked Ontology Std

theorem requiredString_iff {v : Value} {field owner s : String} :
    requiredString v field owner = .ok s ↔ v.getStr field = some s ∧ s ≠ "" := by
  simp only [requiredString, bind_eq_ok, context_eq_ok, ensure_eq_ok, pure_eq_ok, bne_iff_ne]
  constructor
  · rintro ⟨t, ht, _, hne, rfl⟩
    exact ⟨ht, hne⟩
  · rintro ⟨hs, hne⟩
    exact ⟨s, hs, (), hne, rfl⟩

theorem mapM_asStr_iff {items : List Value} {text : String} {names : List String} :
    (items.mapM fun item => context item.asStr text) = .ok names ↔ items = names.map .string := by
  rw [mapM_eq_ok]
  constructor
  · intro h
    induction h with
    | nil => rfl
    | cons hx _ ih =>
        rw [context_eq_ok] at hx
        rw [List.map_cons, ih, Value.asStr_eq_some.mp hx]
  · rintro rfl
    induction names with
    | nil => exact .nil
    | cons name names ih => exact .cons (by simp [Value.asStr]) ih

def sourceIds (sources : List Value) : List String := sources.filterMap (·.getStr "id")

def stepIds (steps : List Value) : List String := steps.filterMap (·.getStr "step")

def nodeIds (sources steps : List Value) : List String := sourceIds sources ++ stepIds steps

structure Block (step : Value) (id kind : String) (inputs : List String) : Prop where
  id_eq : step.getStr "step" = some id
  id_ne : id ≠ ""
  kind_eq : step.getStr "type" = some kind
  kind_ne : kind ≠ ""
  inputs_eq : step.getArray "input_from" = some (inputs.map .string)

theorem nodup_snoc {l : List String} {a : String} : (l ++ [a]).Nodup ↔ l.Nodup ∧ a ∉ l := by
  rw [← List.concat_eq_append, List.nodup_concat, and_comm]

structure Scanned (sources steps : List Value) (scan : Scan) : Prop where
  named : ∀ source ∈ sources, ∃ id, source.getStr "id" = some id ∧ id ≠ ""
  blocks : ∀ step ∈ steps, ∃ id kind inputs, Block step id kind inputs
  nodes : ∀ x, x ∈ scan.nodes ↔ x ∈ nodeIds sources steps
  received : ∀ x, x ∈ scan.sources ↔ x ∈ sourceIds sources
  issues : scan.issues = [] ↔ (nodeIds sources steps).Nodup ∧
    ∀ step ∈ steps, ∀ id kind inputs, Block step id kind inputs → stepIssues step id kind = []
  keys : ∀ x, x ∈ scan.dependencies ↔ x ∈ stepIds steps
  dependencies : (stepIds steps).Nodup → ∀ x inputs, scan.dependencies[x]? = some inputs ↔
    ∃ step ∈ steps, step.getStr "step" = some x ∧ step.getArray "input_from" = some (inputs.map .string)
  required : (stepIds steps).Nodup → ∀ x ontologyId, scan.required[x]? = some ontologyId ↔
    ∃ step ∈ steps, step.getStr "step" = some x ∧ namedOntology step = some ontologyId

theorem scanned_empty : Scanned [] [] ⟨∅, ∅, ∅, ∅, []⟩ := by
  refine ⟨?_, ?_, ?_, ?_, ?_, ?_, ?_, ?_⟩ <;> simp [nodeIds, sourceIds, stepIds]

theorem mem_addNode (scan : Scan) (id x : String) : x ∈ (scan.addNode id).nodes ↔ x ∈ scan.nodes ∨ x = id := by
  rw [Scan.addNode]
  split
  next h =>
    have hid : id ∈ scan.nodes := ExtTreeSet.mem_iff_contains.mpr h
    constructor
    · exact .inl
    · rintro (hx | rfl)
      · exact hx
      · exact hid
  next h =>
    rw [ExtTreeSet.mem_insert, Std.compare_eq_iff_eq]
    tauto

theorem issues_addNode (scan : Scan) (id : String) :
    (scan.addNode id).issues = [] ↔ scan.issues = [] ∧ id ∉ scan.nodes := by
  rw [Scan.addNode]
  split
  next h =>
    have hid : id ∈ scan.nodes := ExtTreeSet.mem_iff_contains.mpr h
    simp [hid]
  next h =>
    have hid : id ∉ scan.nodes := fun hm => h (ExtTreeSet.mem_iff_contains.mp hm)
    simp [hid]

@[simp] theorem sources_addNode (scan : Scan) (id : String) : (scan.addNode id).sources = scan.sources := by
  rw [Scan.addNode]
  split <;> rfl

@[simp] theorem dependencies_addNode (scan : Scan) (id : String) :
    (scan.addNode id).dependencies = scan.dependencies := by
  rw [Scan.addNode]
  split <;> rfl

@[simp] theorem required_addNode (scan : Scan) (id : String) : (scan.addNode id).required = scan.required := by
  rw [Scan.addNode]
  split <;> rfl

theorem scanSource_eq_ok {scan scan' : Scan} {source : Value} : scanSource scan source = .ok scan' ↔
    ∃ id, source.getStr "id" = some id ∧ id ≠ "" ∧
      scan' = { scan.addNode id with sources := (scan.addNode id).sources.insert id } := by
  simp only [scanSource, bind_eq_ok, requiredString_iff, pure_eq_ok]
  constructor
  · rintro ⟨id, ⟨hid, hne⟩, rfl⟩
    exact ⟨id, hid, hne, rfl⟩
  · rintro ⟨id, hid, hne, rfl⟩
    exact ⟨id, ⟨hid, hne⟩, rfl⟩

theorem Scanned.source {sources : List Value} {scan scan' : Scan} {source : Value} (h : Scanned sources [] scan)
    (hs : scanSource scan source = .ok scan') : Scanned (sources ++ [source]) [] scan' := by
  obtain ⟨id, hid, hne, rfl⟩ := scanSource_eq_ok.mp hs
  have hids : sourceIds (sources ++ [source]) = sourceIds sources ++ [id] := by simp [sourceIds, hid]
  have hnodes : ∀ x, x ∈ scan.nodes ↔ x ∈ sourceIds sources := by simpa [nodeIds, stepIds] using h.nodes
  refine ⟨fun s hm => ?_, by simp, fun x => ?_, fun x => ?_, ?_, ?_, ?_, ?_⟩
  · rcases List.mem_append.mp hm with hm | hm
    · exact h.named s hm
    · obtain rfl := List.mem_singleton.mp hm
      exact ⟨id, hid, hne⟩
  · rw [mem_addNode, hnodes, nodeIds, hids]
    simp [stepIds]
  · rw [sources_addNode, ExtTreeSet.mem_insert, h.received, hids, Std.compare_eq_iff_eq]
    simp [or_comm, eq_comm]
  · have hissues := h.issues
    simp only [nodeIds, stepIds, List.filterMap_nil, List.append_nil, List.not_mem_nil, false_imp_iff, implies_true,
      and_true] at hissues ⊢
    rw [issues_addNode, hissues, hnodes, hids, nodup_snoc]
  · simpa using h.keys
  · simpa using h.dependencies
  · simpa using h.required

theorem scanStep_eq_ok {scan scan' : Scan} {step : Value} : scanStep scan step = .ok scan' ↔
    ∃ id kind inputs, Block step id kind inputs ∧ scan' = {
      scan.addNode id with
      issues := (scan.addNode id).issues ++ stepIssues step id kind
      dependencies := (scan.addNode id).dependencies.insert id inputs
      required := ((namedOntology step).map ((scan.addNode id).required.insert id)).getD (scan.addNode id).required } := by
  simp only [scanStep, bind_eq_ok, requiredString_iff, context_eq_ok, pure_eq_ok, mapM_asStr_iff]
  constructor
  · rintro ⟨id, ⟨hid, hne⟩, kind, ⟨hkind, hkne⟩, _, hitems, inputs, rfl, rfl⟩
    exact ⟨id, kind, inputs, ⟨hid, hne, hkind, hkne, hitems⟩, rfl⟩
  · rintro ⟨id, kind, inputs, hb, rfl⟩
    exact ⟨id, ⟨hb.id_eq, hb.id_ne⟩, kind, ⟨hb.kind_eq, hb.kind_ne⟩, _, hb.inputs_eq, inputs, rfl, rfl⟩

theorem Block.unique {step : Value} {id kind id' kind' : String} {inputs inputs' : List String}
    (h : Block step id kind inputs) (h' : Block step id' kind' inputs') : id = id' ∧ kind = kind' ∧ inputs = inputs' := by
  have hinputs := h.inputs_eq.symm.trans h'.inputs_eq
  refine ⟨Option.some.inj (h.id_eq.symm.trans h'.id_eq), Option.some.inj (h.kind_eq.symm.trans h'.kind_eq), ?_⟩
  exact (List.map_injective_iff.mpr fun a b he => Value.string.inj he) (Option.some.inj hinputs)

theorem mem_stepIds {steps : List Value} {id : String} : id ∈ stepIds steps ↔ ∃ step ∈ steps, step.getStr "step" = some id := by
  simp [stepIds]

theorem Scanned.step {sources steps : List Value} {scan scan' : Scan} {step : Value} (h : Scanned sources steps scan)
    (hs : scanStep scan step = .ok scan') : Scanned sources (steps ++ [step]) scan' := by
  obtain ⟨id, kind, inputs, hb, rfl⟩ := scanStep_eq_ok.mp hs
  have hids : stepIds (steps ++ [step]) = stepIds steps ++ [id] := by simp [stepIds, hb.id_eq]
  have hnodes : nodeIds sources (steps ++ [step]) = nodeIds sources steps ++ [id] := by simp [nodeIds, hids]
  have hnodup : (stepIds (steps ++ [step])).Nodup → (stepIds steps).Nodup ∧ id ∉ stepIds steps := by
    rw [hids]
    exact nodup_snoc.mp
  refine ⟨h.named, fun s hm => ?_, fun x => ?_, ?_, ?_, fun x => ?_, fun hnd x names => ?_, fun hnd x o => ?_⟩
  · rcases List.mem_append.mp hm with hm | hm
    · exact h.blocks s hm
    · obtain rfl := List.mem_singleton.mp hm
      exact ⟨id, kind, inputs, hb⟩
  · rw [mem_addNode, h.nodes, hnodes]
    simp
  · simpa using h.received
  · rw [List.append_eq_nil_iff, issues_addNode, h.issues, h.nodes, hnodes, nodup_snoc]
    simp only [List.mem_append, List.mem_singleton]
    constructor
    · rintro ⟨⟨⟨hnd, hold⟩, hx⟩, hnew⟩
      refine ⟨⟨hnd, hx⟩, ?_⟩
      rintro s (hm | rfl) i k ins hbs
      · exact hold s hm i k ins hbs
      · obtain ⟨rfl, rfl, -⟩ := hb.unique hbs
        exact hnew
    · rintro ⟨⟨hnd, hx⟩, hall⟩
      exact ⟨⟨⟨hnd, fun s hm => hall s (.inl hm)⟩, hx⟩, hall step (.inr rfl) id kind inputs hb⟩
  · rw [dependencies_addNode, ExtTreeMap.mem_insert, h.keys, hids, Std.compare_eq_iff_eq]
    simp [or_comm, eq_comm]
  · obtain ⟨hold, hnew⟩ := hnodup hnd
    rw [dependencies_addNode, ExtTreeMap.getElem?_insert]
    by_cases hx : id = x
    · subst hx
      simp only [compare_self, if_true, Option.some.injEq]
      constructor
      · rintro rfl
        exact ⟨step, by simp, hb.id_eq, hb.inputs_eq⟩
      · rintro ⟨s, hm, hid, hins⟩
        rcases List.mem_append.mp hm with hm | hm
        · exact absurd (mem_stepIds.mpr ⟨s, hm, hid⟩) hnew
        · obtain rfl := List.mem_singleton.mp hm
          exact (List.map_injective_iff.mpr fun a b he => Value.string.inj he)
            (Option.some.inj (hb.inputs_eq.symm.trans hins))
    · rw [if_neg (by simpa using hx), h.dependencies hold]
      constructor
      · rintro ⟨s, hm, hrest⟩
        exact ⟨s, List.mem_append_left _ hm, hrest⟩
      · rintro ⟨s, hm, hid, hins⟩
        rcases List.mem_append.mp hm with hm | hm
        · exact ⟨s, hm, hid, hins⟩
        · obtain rfl := List.mem_singleton.mp hm
          exact absurd (Option.some.inj (hb.id_eq.symm.trans hid)) hx
  · obtain ⟨hold, hnew⟩ := hnodup hnd
    have hother : id ≠ x → (scan.required[x]? = some o ↔ ∃ s ∈ steps ++ [step], s.getStr "step" = some x ∧
        namedOntology s = some o) := by
      intro hx
      rw [h.required hold]
      constructor
      · rintro ⟨s, hm, hrest⟩
        exact ⟨s, List.mem_append_left _ hm, hrest⟩
      · rintro ⟨s, hm, hid, ho⟩
        rcases List.mem_append.mp hm with hm | hm
        · exact ⟨s, hm, hid, ho⟩
        · obtain rfl := List.mem_singleton.mp hm
          exact absurd (Option.some.inj (hb.id_eq.symm.trans hid)) hx
    have hself : (∃ s ∈ steps ++ [step], s.getStr "step" = some id ∧ namedOntology s = some o) ↔
        namedOntology step = some o := by
      constructor
      · rintro ⟨s, hm, hid, ho⟩
        rcases List.mem_append.mp hm with hm | hm
        · exact absurd (mem_stepIds.mpr ⟨s, hm, hid⟩) hnew
        · obtain rfl := List.mem_singleton.mp hm
          exact ho
      · intro ho
        exact ⟨step, by simp, hb.id_eq, ho⟩
    rw [required_addNode]
    cases hnamed : namedOntology step with
    | none =>
        by_cases hx : id = x
        · subst hx
          rw [hself, hnamed]
          simp only [Option.map_none, Option.getD_none, reduceCtorEq, iff_false]
          intro hr
          obtain ⟨s, hm, hid, -⟩ := (h.required hold _ _).mp hr
          exact hnew (mem_stepIds.mpr ⟨s, hm, hid⟩)
        · exact hother hx
    | some o' =>
        rw [Option.map_some, Option.getD_some, ExtTreeMap.getElem?_insert]
        by_cases hx : id = x
        · subst hx
          rw [hself, hnamed]
          simp
        · rw [if_neg (by simpa using hx)]
          exact hother hx

theorem scanPipeline_scanned {sources steps : List Value} {scan : Scan} (h : scanPipeline sources steps = .ok scan) :
    Scanned sources steps scan := by
  have hsources : ∀ (rest done : List Value) (a b : Scan), Scanned done [] a → rest.foldlM scanSource a = .ok b →
      Scanned (done ++ rest) [] b := by
    intro rest
    induction rest with
    | nil =>
        intro done a b ha hb
        cases hb
        simpa using ha
    | cons source rest ih =>
        intro done a b ha hb
        rw [List.foldlM_cons, bind_eq_ok] at hb
        obtain ⟨c, hc, hrest⟩ := hb
        simpa using ih _ _ _ (ha.source hc) hrest
  have hsteps : ∀ (rest done : List Value) (a b : Scan), Scanned sources done a → rest.foldlM scanStep a = .ok b →
      Scanned sources (done ++ rest) b := by
    intro rest
    induction rest with
    | nil =>
        intro done a b ha hb
        cases hb
        simpa using ha
    | cons step rest ih =>
        intro done a b ha hb
        rw [List.foldlM_cons, bind_eq_ok] at hb
        obtain ⟨c, hc, hrest⟩ := hb
        simpa using ih _ _ _ (ha.step hc) hrest
  rw [scanPipeline, bind_eq_ok] at h
  obtain ⟨scan', hs, ht⟩ := h
  exact hsteps steps [] scan' scan (hsources sources [] _ _ scanned_empty hs) ht

/-- The scan itself only reads the fields. -/
theorem scanPipeline_accepts {sources steps : List Value}
    (hsources : ∀ source ∈ sources, ∃ id, source.getStr "id" = some id ∧ id ≠ "")
    (hsteps : ∀ step ∈ steps, ∃ id kind inputs, Block step id kind inputs) :
    ∃ scan, scanPipeline sources steps = .ok scan := by
  have hfirst : ∀ (rest : List Value) (a : Scan), (∀ source ∈ rest, ∃ id, source.getStr "id" = some id ∧ id ≠ "") →
      ∃ b, rest.foldlM scanSource a = .ok b := by
    intro rest
    induction rest with
    | nil => exact fun a _ => ⟨a, rfl⟩
    | cons source rest ih =>
        intro a hall
        obtain ⟨id, hid, hne⟩ := hall source List.mem_cons_self
        obtain ⟨b, hb⟩ := ih _ fun s hs => hall s (List.mem_cons_of_mem _ hs)
        exact ⟨b, by rw [List.foldlM_cons, scanSource_eq_ok.mpr ⟨id, hid, hne, rfl⟩]; exact hb⟩
  have hsecond : ∀ (rest : List Value) (a : Scan), (∀ step ∈ rest, ∃ id kind inputs, Block step id kind inputs) →
      ∃ b, rest.foldlM scanStep a = .ok b := by
    intro rest
    induction rest with
    | nil => exact fun a _ => ⟨a, rfl⟩
    | cons step rest ih =>
        intro a hall
        obtain ⟨id, kind, inputs, hb⟩ := hall step List.mem_cons_self
        obtain ⟨b, hrest⟩ := ih _ fun s hs => hall s (List.mem_cons_of_mem _ hs)
        exact ⟨b, by rw [List.foldlM_cons, scanStep_eq_ok.mpr ⟨id, kind, inputs, hb, rfl⟩]; exact hrest⟩
  obtain ⟨a, ha⟩ := hfirst sources ⟨∅, ∅, ∅, ∅, []⟩ hsources
  obtain ⟨b, hb⟩ := hsecond steps a hsteps
  exact ⟨b, by rw [scanPipeline, ha]; exact hb⟩

end Galadril.Registry.Pipeline
