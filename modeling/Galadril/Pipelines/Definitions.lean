import Galadril.Lib.Kahn
import Galadril.Registry.PipelineExact

namespace Galadril.Pipelines

open Json Lib Lib.Checked Registry.Identity Registry.Pipeline Relation
open Std (ExtTreeMap ExtTreeSet)

abbrev Degrees := ExtTreeMap String Nat

abbrev Neighbours := ExtTreeMap String (List String)

structure Hashing where
  entries : {β : Type} → ExtTreeMap String β → List (String × β)
  perm : ∀ {β : Type} (m : ExtTreeMap String β), (entries m).Perm m.toList

def definitionMembers : List String := ["name", "version", "sources", "pipeline", "editor"]

def checkMember (entry : String × Value) : Except String Unit :=
  ensure (definitionMembers.contains entry.1) s!"Pipeline definitions cannot contain service setting '{entry.1}'"

def insertNode (known : Names) (id : String) : Except String Names := do
  ensure (!known.contains id) s!"Duplicate pipeline node identifier: {id}"
  return known.insert id

def recordSource (known : Names) (source : Value) : Except String Names := do
  let id ← context ((source.getStr "id").filter fun id => !blank id) "Every pipeline source requires an id"
  insertNode known id

def recordStep (acc : Names × Neighbours) (step : Value) : Except String (Names × Neighbours) := do
  let id ← context ((step.getStr "step").filter fun id => !blank id) "Every pipeline step requires a step identifier"
  let known ← insertNode acc.1 id
  let inputs ← context (step.getArray "input_from") "Every pipeline step requires an input_from array"
  let values ← inputs.mapM fun input => context input.asStr "Pipeline dependencies must be strings"
  return (known, acc.2.insert id values)

def checkInputs (known : Names) (entry : String × List String) : Except String Unit :=
  entry.2.forM fun input =>
    ensure (known.contains input) s!"Pipeline step '{entry.1}' references unknown dependency '{input}'"

def inputEdges (entries : List (String × List String)) : List (String × String) :=
  entries.flatMap fun entry => entry.2.map fun input => (input, entry.1)

def countInput (acc : Neighbours × Degrees) (edge : String × String) : Except String (Neighbours × Degrees) := do
  let degree ← context acc.2[edge.2]? "Pipeline step disappeared during validation"
  return (acc.1.insert edge.1 (acc.1.getD edge.1 [] ++ [edge.2]), acc.2.insert edge.2 (degree + 1))

def releaseChild (acc : Degrees × List String) (child : String) : Except String (Degrees × List String) := do
  let degree ← context acc.1[child]? "Pipeline child disappeared during validation"
  return (acc.1.insert child (degree - 1), if degree - 1 = 0 then acc.2 ++ [child] else acc.2)

/-- The number of nodes that become ready. The first argument bounds it. -/
def visit (downstream : Neighbours) : Nat → Degrees → List String → Except String Nat
  | 0, _, _ => .ok 0
  | _, _, [] => .ok 0
  | n + 1, degrees, node :: ready => do
      let next ← (downstream.getD node []).foldlM releaseChild (degrees, ready)
      let visited ← visit downstream n next.1 next.2
      return visited + 1

def checkCycles (hashing : Hashing) (known : Names) (dependencies : Neighbours) : Except String Unit := do
  let edges := inputEdges (hashing.entries dependencies)
  let (downstream, degrees) ← edges.foldlM countInput (∅, ExtTreeMap.ofList (known.toList.map fun node => (node, 0)))
  let ready := ((hashing.entries degrees).filter fun entry => entry.2 = 0).map (·.1)
  let visited ← visit downstream known.size degrees ready
  ensure (visited == known.size) "Pipeline graph contains a cycle"

def validateDefinition (hashing : Hashing) (definition : Value) (expectedName : String) : Except String Unit := do
  (definition.asObject.getD []).forM checkMember
  let _ ← context definition.asObject "Pipeline definition must be a JSON object"
  let name ← context (definition.getStr "name") "Pipeline definition requires name"
  ensure (name == expectedName) "Pipeline definition name must match the pipeline name"
  let sources ← context (definition.getArray "sources") "Pipeline definition requires a sources array"
  let steps ← context (definition.getArray "pipeline") "Pipeline definition requires a pipeline array"
  let known ← sources.foldlM recordSource ∅
  let (known, dependencies) ← steps.foldlM recordStep (known, ∅)
  (hashing.entries dependencies).forM (checkInputs known)
  checkCycles hashing known dependencies

variable {downstream : Neighbours}

theorem countInputs {edges : List (String × String)} {acc : Neighbours × Degrees} (h : ∀ e ∈ edges, e.2 ∈ acc.2) :
    ∃ downstream degrees, edges.foldlM countInput acc = .ok (downstream, degrees) ∧
      (∀ node, downstream.getD node [] = acc.1.getD node [] ++ Kahn.children edges node) ∧
      ∀ v, degrees[v]? = acc.2[v]?.map (· + Kahn.missing edges [] v) := by
  induction edges generalizing acc with
  | nil => exact ⟨acc.1, acc.2, rfl, by simp [Kahn.children], fun v => by simp [Kahn.missing]⟩
  | cons e edges ih =>
      obtain ⟨u, w⟩ := e
      obtain ⟨degree, hdegree⟩ := Option.isSome_iff_exists.mp
        (ExtTreeMap.mem_iff_isSome_getElem?.mp (h (u, w) List.mem_cons_self))
      have hstep : countInput acc (u, w) =
          .ok (acc.1.insert u (acc.1.getD u [] ++ [w]), acc.2.insert w (degree + 1)) := by
        simp only [countInput, hdegree, context_some]
        rfl
      obtain ⟨downstream, degrees, hfold, hdown, hdeg⟩ :=
        @ih (acc.1.insert u (acc.1.getD u [] ++ [w]), acc.2.insert w (degree + 1)) fun e he =>
          ExtTreeMap.mem_insert.mpr (.inr (h e (List.mem_cons_of_mem _ he)))
      refine ⟨downstream, degrees, by rw [List.foldlM_cons, hstep]; exact hfold, fun node => ?_, fun v => ?_⟩
      · rw [hdown, ExtTreeMap.getD_insert]
        by_cases hu : u = node
        · subst hu
          simp [Kahn.children]
        · simp [Kahn.children, hu]
      · rw [hdeg, Kahn.missing_cons, ExtTreeMap.getElem?_insert]
        by_cases hw : w = v
        · subst hw
          simp only [hdegree, compare_eq_iff_eq, if_true, Option.map_some, List.not_mem_nil, not_false_eq_true, and_self,
            Option.some.injEq]
          omega
        · simp [hw]

/-- Releasing children that are all present behaves as the library says. -/
theorem releaseChildren {children : List String} {degrees : Degrees} {ready : List String}
    (h : ∀ c ∈ children, c ∈ degrees) : ∃ degrees' ready',
      children.foldlM releaseChild (degrees, ready) = .ok (degrees', ready') ∧
        children.foldl Kahn.release ((fun v => degrees[v]?), ready) = ((fun v => degrees'[v]?), ready') ∧
        ∀ v, v ∈ degrees' ↔ v ∈ degrees := by
  induction children generalizing degrees ready with
  | nil => exact ⟨degrees, ready, rfl, rfl, fun _ => Iff.rfl⟩
  | cons c children ih =>
      have hc := h c List.mem_cons_self
      obtain ⟨degree, hdegree⟩ := Option.isSome_iff_exists.mp (ExtTreeMap.mem_iff_isSome_getElem?.mp hc)
      have hkeys : ∀ v, v ∈ degrees.insert c (degree - 1) ↔ v ∈ degrees := by
        intro v
        rw [ExtTreeMap.mem_insert, compare_eq_iff_eq]
        exact ⟨fun hv => hv.elim (fun he => he ▸ hc) id, .inr⟩
      obtain ⟨degrees', ready', hfold, hkahn, hsame⟩ := @ih (degrees.insert c (degree - 1))
        (if degree - 1 = 0 then ready ++ [c] else ready) fun x hx =>
          (hkeys x).mpr (h x (List.mem_cons_of_mem _ hx))
      refine ⟨degrees', ready', ?_, ?_, fun v => (hsame v).trans (hkeys v)⟩
      · rw [List.foldlM_cons, bind_eq_ok]
        refine ⟨_, ?_, hfold⟩
        simp only [releaseChild, hdegree, context_some]
        rfl
      · rw [List.foldl_cons, ← hkahn]
        congr 1
        simp only [Kahn.release, hdegree]
        refine Prod.ext (funext fun v => ?_) rfl
        by_cases hv : v = c
        · subst hv
          simp
        · simp [ExtTreeMap.getElem?_insert, hv, Ne.symm hv]

theorem visit_eq {n : Nat} {degrees : Degrees} {ready : List String}
    (h : ∀ node, ∀ c ∈ downstream.getD node [], c ∈ degrees) :
    visit downstream n degrees ready =
      .ok (Kahn.serve (fun node => downstream.getD node []) n (fun v => degrees[v]?) ready).length := by
  induction n generalizing degrees ready with
  | zero => rfl
  | succ n ih =>
      cases ready with
      | nil => rfl
      | cons node ready =>
          obtain ⟨degrees', ready', hfold, hkahn, hkeys⟩ := @releaseChildren _ _ ready (h node)
          have hrest := @ih degrees' ready' fun node c hc => (hkeys c).mpr (h node c hc)
          rw [visit, hfold, Kahn.serve]
          simp only [ok_bind, hrest, hkahn, List.length_cons]
          rfl

variable {sources steps : List Value} {scan : Scan} {hashing : Hashing}

/-- A graph with distinct nodes and known inputs, without a cycle. -/
structure Sound (sources steps : List Value) : Prop where
  distinct : (nodeIds sources steps).Nodup
  closed : ∀ u v, Feeds steps u v → u ∈ nodeIds sources steps
  acyclic : ∀ v, ¬ TransGen (Feeds steps) v v

theorem mem_inputEdges {m : Neighbours} {u v : String} :
    (u, v) ∈ inputEdges (hashing.entries m) ↔ (u, v) ∈ inputPairs m := by
  simp only [inputEdges, inputPairs, List.mem_flatMap, (hashing.perm m).mem_iff]

theorem nodup_known (known : Names) : known.toList.Nodup := by
  refine ExtTreeSet.distinct_toList.imp ?_
  rintro a b h rfl
  exact h Std.compare_self

/-- The queue serves every node exactly when the graph has no cycle. -/
theorem checkCycles_eq (h : Scanned sources steps scan) (hdistinct : (nodeIds sources steps).Nodup)
    (hclosed : ∀ u v, Feeds steps u v → u ∈ nodeIds sources steps) :
    ∃ b, checkCycles hashing scan.nodes scan.dependencies = ensure b "Pipeline graph contains a cycle" ∧
      (b = true ↔ ∀ v, Acc (Feeds steps) v) := by
  have hedges : ∀ u v, (u, v) ∈ inputEdges (hashing.entries scan.dependencies) ↔ Feeds steps u v := fun u v =>
    mem_inputEdges.trans (h.pairs_iff (List.nodup_append.mp hdistinct).2.1)
  have hnodes : ∀ v, v ∈ scan.nodes.toList ↔ v ∈ nodeIds sources steps := fun v => by
    rw [ExtTreeSet.mem_toList, h.nodes]
  have htarget : ∀ u v, Feeds steps u v → v ∈ scan.nodes.toList := by
    rintro u v ⟨step, hm, hid, -⟩
    exact (hnodes v).mpr (List.mem_append_right _ (mem_stepIds.mpr ⟨step, hm, hid⟩))
  have hzero : ∀ v, (ExtTreeMap.ofList (scan.nodes.toList.map fun node => (node, 0)))[v]? =
      if v ∈ scan.nodes.toList then some 0 else none := getElem?_tabulated (nodup_known _) fun _ => 0
  obtain ⟨downstream, degrees, hfold, hdown, hdeg⟩ := @countInputs
    (inputEdges (hashing.entries scan.dependencies))
    (∅, ExtTreeMap.ofList (scan.nodes.toList.map fun node => (node, 0))) fun e he => by
      rw [ExtTreeMap.mem_iff_isSome_getElem?, hzero, if_pos (htarget e.1 e.2 ((hedges _ _).mp he))]
      rfl
  have hdegrees : ∀ v, degrees[v]? = if v ∈ scan.nodes.toList then
      some (Kahn.missing (inputEdges (hashing.entries scan.dependencies)) [] v) else none := by
    intro v
    rw [hdeg, hzero]
    split <;> simp
  have hdown' : ∀ node, downstream.getD node [] = Kahn.children (inputEdges (hashing.entries scan.dependencies)) node := by
    intro node
    rw [hdown]
    simp
  obtain ⟨order, hsorted, hvisit⟩ : ∃ order,
      Kahn.Sorted scan.nodes.toList (inputEdges (hashing.entries scan.dependencies)) order ∧
        visit downstream scan.nodes.size degrees (((hashing.entries degrees).filter fun entry => entry.2 = 0).map (·.1)) =
          .ok order.length := by
    refine ⟨_, ?_, visit_eq fun node c hc => ?_⟩
    rotate_left
    · rw [hdown', Kahn.children, List.mem_map] at hc
      obtain ⟨⟨u, c'⟩, he, rfl⟩ := hc
      rw [ExtTreeMap.mem_iff_isSome_getElem?, hdegrees,
        if_pos (htarget _ _ ((hedges _ _).mp (List.mem_filter.mp he).1))]
      rfl
    refine Kahn.serve_sorted hdown' ExtTreeSet.length_toList.le hdegrees ?_ fun v => ?_
    · have hkeys : degrees.keys.Nodup := ExtTreeMap.nodup_keys
      rw [← ExtTreeMap.map_fst_toList_eq_keys] at hkeys
      exact (((hashing.perm degrees).map _).nodup_iff.mpr hkeys).sublist (List.filter_sublist.map _)
    · simp only [List.mem_map, List.mem_filter, Prod.exists, (hashing.perm degrees).mem_iff,
        ExtTreeMap.mem_toList_iff_getElem?_eq_some, hdegrees]
      constructor
      · rintro ⟨w, n, ⟨hw, hn⟩, rfl⟩
        split at hw
        next hm =>
          obtain rfl := Option.some.inj hw
          exact ⟨hm, by simpa using hn⟩
        next => cases hw
      · rintro ⟨hv, hz⟩
        exact ⟨v, 0, ⟨by rw [if_pos hv, hz], rfl⟩, rfl⟩
  refine ⟨order.length == scan.nodes.size, ?_, ?_⟩
  · simp only [checkCycles, hfold, ok_bind, hvisit]
  · rw [beq_iff_eq, ← ExtTreeSet.length_toList, hsorted.length_eq_iff (nodup_known _)]
    have hrel : (fun u v => (u, v) ∈ inputEdges (hashing.entries scan.dependencies)) = Feeds steps := by
      funext u v
      exact propext (hedges u v)
    constructor
    · intro hall v
      refine ⟨v, fun u hu => ?_⟩
      rw [← hrel]
      exact hsorted.ordered.acc (hall u ((hnodes u).mpr (hclosed u v hu)))
    · intro hacc v hv
      exact hsorted.complete (fun u w hu _ => (hnodes u).mpr (hclosed u w ((hedges u w).mp hu)))
        (fun w _ => hrel ▸ hacc w) hv

variable {scan' : Scan}

def Structural (issue : String) : Prop :=
  (∃ id : String, issue = s!"duplicate_pipeline_node:{id}") ∨
    (∃ step input : String, issue = s!"dangling_pipeline_dependency:{step}:{input}") ∨ issue = "pipeline_cycle"

theorem Structural.head {issue : String} (h : Structural issue) :
    issue.toList.head? = some 'd' ∨ issue.toList.head? = some 'p' := by
  rcases h with ⟨id, rfl⟩ | ⟨step, input, rfl⟩ | rfl
  · exact .inl (by simp [toString])
  · exact .inl (by simp [toString])
  · exact .inr (by decide)

theorem stepIssues_not_structural {step : Value} {id kind issue : String} (h : issue ∈ stepIssues step id kind) :
    ¬ Structural issue := by
  have hhead : issue.toList.head? = some 'i' ∨ issue.toList.head? = some 'm' := by
    rcases List.mem_append.mp h with h | h
    · split at h
      · cases h
      · rw [List.mem_singleton.mp h]
        exact .inl (by simp [toString])
    · split at h
      · rw [List.mem_singleton.mp h]
        exact .inr (by simp [toString])
      · cases h
  intro hs
  rcases hs.head with hs | hs <;> rcases hhead with h | h <;> exact absurd (hs.symm.trans h) (by decide)

/-- What the gateway has recorded when the Registry has scanned the same
blocks: the same tables, or the first repeated identifier. -/
inductive Recorded {α : Type} (tables : Scan → α) (sources steps : List Value) (scan : Scan) : Except String α → Prop
  | distinct (hnodup : (nodeIds sources steps).Nodup) (hissues : ∀ issue ∈ scan.issues, ¬ Structural issue) :
      Recorded tables sources steps scan (.ok (tables scan))
  | repeated (id : String) (hnodup : ¬ (nodeIds sources steps).Nodup) (hissue : ∃ issue ∈ scan.issues, Structural issue) :
      Recorded tables sources steps scan (.error s!"Duplicate pipeline node identifier: {id}")

theorem recordSource_eq {source : Value} {id : String} (hid : source.getStr "id" = some id) (hblank : blank id = false)
    (known : Names) : recordSource known source = insertNode known id := by
  simp only [recordSource, hid, Option.filter_some, hblank, Bool.not_false, if_true, context_some]
  rfl

theorem recordStep_eq {step : Value} {id kind : String} {inputs : List String} (hb : Block step id kind inputs)
    (hblank : blank id = false) (acc : Names × Neighbours) :
    recordStep acc step = (insertNode acc.1 id).map fun known => (known, acc.2.insert id inputs) := by
  have hmap : (inputs.map Value.string).mapM
      (fun input => context input.asStr "Pipeline dependencies must be strings") = .ok inputs := by
    rw [mapM_asStr_iff]
  simp only [recordStep, hb.id_eq, Option.filter_some, hblank, Bool.not_false, if_true, context_some, hb.inputs_eq, ok_bind,
    hmap]
  cases insertNode acc.1 id <;> rfl

theorem insertNode_fresh {known : Names} {id : String} (h : id ∉ known) : insertNode known id = .ok (known.insert id) := by
  rw [insertNode, show known.contains id = false by simpa [← ExtTreeSet.contains_iff_mem] using h]
  rfl

theorem insertNode_repeated {known : Names} {id : String} (h : id ∈ known) :
    insertNode known id = .error s!"Duplicate pipeline node identifier: {id}" := by
  rw [insertNode, show known.contains id = true by simpa using h]
  rfl

theorem addNode_fresh {id : String} (h : id ∉ scan.nodes) : scan.addNode id = { scan with nodes := scan.nodes.insert id } := by
  rw [Scan.addNode, if_neg (by simpa using h)]

theorem addNode_repeated {id : String} (h : id ∈ scan.nodes) :
    scan.addNode id = { scan with issues := scan.issues ++ [s!"duplicate_pipeline_node:{id}"] } := by
  rw [Scan.addNode, if_pos (by simpa using h)]

theorem mem_issues_addNode {id issue : String} (h : issue ∈ scan.issues) : issue ∈ (scan.addNode id).issues := by
  rw [Scan.addNode]
  split
  · exact List.mem_append_left _ h
  · exact h

theorem Recorded.source {r : Except String Names} {source : Value} (h : Recorded Scan.nodes sources [] scan r)
    (hscanned : Scanned sources [] scan) (hs : scanSource scan source = .ok scan')
    (hblank : ∀ id, source.getStr "id" = some id → blank id = false) :
    Recorded Scan.nodes (sources ++ [source]) [] scan' (r >>= fun known => recordSource known source) := by
  obtain ⟨id, hid, -, rfl⟩ := scanSource_eq_ok.mp hs
  have hids : nodeIds (sources ++ [source]) [] = nodeIds sources [] ++ [id] := by simp [nodeIds, sourceIds, stepIds, hid]
  cases h with
  | distinct hnodup hissues =>
      rw [ok_bind, recordSource_eq hid (hblank id hid)]
      by_cases hm : id ∈ scan.nodes
      · rw [insertNode_repeated hm]
        refine .repeated id (fun hn => ?_) ⟨s!"duplicate_pipeline_node:{id}", ?_, .inl ⟨id, rfl⟩⟩
        · rw [hids, nodup_snoc] at hn
          exact hn.2 ((hscanned.nodes id).mp hm)
        · simp only [addNode_repeated hm, List.mem_append, List.mem_singleton, or_true]
      · rw [insertNode_fresh hm, addNode_fresh hm]
        refine .distinct ?_ hissues
        rw [hids, nodup_snoc]
        exact ⟨hnodup, fun h => hm ((hscanned.nodes id).mpr h)⟩
  | repeated id' hnodup hissue =>
      obtain ⟨issue, hm, hstructural⟩ := hissue
      refine .repeated id' (fun hn => hnodup ?_) ⟨issue, mem_issues_addNode hm, hstructural⟩
      rw [hids, nodup_snoc] at hn
      exact hn.1

def blockTables (scan : Scan) : Names × Neighbours := (scan.nodes, scan.dependencies)

theorem Recorded.step {r : Except String (Names × Neighbours)} {step : Value} (h : Recorded blockTables sources steps scan r)
    (hscanned : Scanned sources steps scan) (hs : scanStep scan step = .ok scan')
    (hblank : ∀ id, step.getStr "step" = some id → blank id = false) :
    Recorded blockTables sources (steps ++ [step]) scan' (r >>= fun acc => recordStep acc step) := by
  obtain ⟨id, kind, inputs, hb, rfl⟩ := scanStep_eq_ok.mp hs
  have hids : nodeIds sources (steps ++ [step]) = nodeIds sources steps ++ [id] := by simp [nodeIds, stepIds, hb.id_eq]
  cases h with
  | distinct hnodup hissues =>
      rw [ok_bind, recordStep_eq hb (hblank id hb.id_eq)]
      by_cases hm : id ∈ scan.nodes
      · rw [show (blockTables scan).1 = scan.nodes from rfl, insertNode_repeated hm]
        refine .repeated id (fun hn => ?_) ⟨s!"duplicate_pipeline_node:{id}", ?_, .inl ⟨id, rfl⟩⟩
        · rw [hids, nodup_snoc] at hn
          exact hn.2 ((hscanned.nodes id).mp hm)
        · simp only [addNode_repeated hm, List.mem_append, List.mem_singleton, or_true, true_or]
      · rw [show (blockTables scan).1 = scan.nodes from rfl, insertNode_fresh hm, addNode_fresh hm]
        refine .distinct ?_ fun issue hissue => ?_
        · rw [hids, nodup_snoc]
          exact ⟨hnodup, fun h => hm ((hscanned.nodes id).mpr h)⟩
        · rcases List.mem_append.mp hissue with hissue | hissue
          · exact hissues issue hissue
          · exact stepIssues_not_structural hissue
  | repeated id' hnodup hissue =>
      obtain ⟨issue, hm, hstructural⟩ := hissue
      refine .repeated id' (fun hn => hnodup ?_) ⟨issue, List.mem_append_left _ (mem_issues_addNode hm), hstructural⟩
      rw [hids, nodup_snoc] at hn
      exact hn.1

theorem scanSources_recorded {rest : List Value} {r : Except String Names} (h : Recorded Scan.nodes sources [] scan r)
    (hscanned : Scanned sources [] scan) (hs : rest.foldlM scanSource scan = .ok scan')
    (hblank : ∀ source ∈ rest, ∀ id, source.getStr "id" = some id → blank id = false) :
    Recorded Scan.nodes (sources ++ rest) [] scan' (r >>= fun known => rest.foldlM recordSource known) ∧
      Scanned (sources ++ rest) [] scan' ∧ scan'.dependencies = scan.dependencies := by
  induction rest generalizing sources scan r with
  | nil =>
      cases hs
      refine ⟨?_, by simpa using hscanned, rfl⟩
      cases r <;> simpa using h
  | cons source rest ih =>
      rw [List.foldlM_cons, bind_eq_ok] at hs
      obtain ⟨next, hnext, hs⟩ := hs
      obtain ⟨hfirst, hrest⟩ := List.forall_mem_cons.mp hblank
      obtain ⟨hrecorded, hscanned', hdeps⟩ := ih (h.source hscanned hnext hfirst) (hscanned.source hnext) hs hrest
      obtain ⟨id, -, -, rfl⟩ := scanSource_eq_ok.mp hnext
      refine ⟨?_, by simpa using hscanned', hdeps.trans (by simp)⟩
      rw [List.append_assoc, List.singleton_append] at hrecorded
      cases r <;> exact hrecorded

theorem scanSteps_recorded {rest : List Value} {r : Except String (Names × Neighbours)}
    (h : Recorded blockTables sources steps scan r) (hscanned : Scanned sources steps scan)
    (hs : rest.foldlM scanStep scan = .ok scan')
    (hblank : ∀ step ∈ rest, ∀ id, step.getStr "step" = some id → blank id = false) :
    Recorded blockTables sources (steps ++ rest) scan' (r >>= fun acc => rest.foldlM recordStep acc) := by
  induction rest generalizing steps scan r with
  | nil =>
      cases hs
      cases r <;> simpa using h
  | cons step rest ih =>
      rw [List.foldlM_cons, bind_eq_ok] at hs
      obtain ⟨next, hnext, hs⟩ := hs
      obtain ⟨hfirst, hrest⟩ := List.forall_mem_cons.mp hblank
      have hrecorded := ih (h.step hscanned hnext hfirst) (hscanned.step hnext) hs hrest
      rw [List.append_assoc, List.singleton_append] at hrecorded
      cases r <;> exact hrecorded

/-- The two scans collect the same tables, or both meet a repeated identifier. -/
theorem scanPipeline_recorded (hs : scanPipeline sources steps = .ok scan)
    (hsources : ∀ source ∈ sources, ∀ id, source.getStr "id" = some id → blank id = false)
    (hsteps : ∀ step ∈ steps, ∀ id, step.getStr "step" = some id → blank id = false) :
    Recorded blockTables sources steps scan
      (sources.foldlM recordSource ∅ >>= fun known => steps.foldlM recordStep (known, ∅)) := by
  rw [scanPipeline, bind_eq_ok] at hs
  obtain ⟨scan', hsource, hstep⟩ := hs
  have hstart : Recorded Scan.nodes [] [] ⟨∅, ∅, ∅, ∅, []⟩ (.ok ∅) := .distinct (by simp [nodeIds, sourceIds, stepIds]) (by simp)
  obtain ⟨hrecorded, hscanned, hdeps⟩ := scanSources_recorded hstart scanned_empty hsource hsources
  rw [List.nil_append, ok_bind] at hrecorded
  rw [List.nil_append] at hscanned
  have htables : Recorded blockTables sources [] scan' ((sources.foldlM recordSource ∅).map fun known => (known, ∅)) := by
    generalize sources.foldlM recordSource ∅ = r at hrecorded
    cases hrecorded with
    | distinct hnodup hissues =>
        have hrecorded : Recorded blockTables sources [] scan' (.ok (blockTables scan')) := .distinct hnodup hissues
        rwa [blockTables, hdeps] at hrecorded
    | repeated id hnodup hissue => exact .repeated id hnodup hissue
  have hall := scanSteps_recorded htables hscanned hstep hsteps
  rw [List.nil_append] at hall
  cases hk : sources.foldlM recordSource ∅ <;> rw [hk] at hall <;> exact hall

variable {definition : Value} {expectedName : String}

def Fault (text : String) : Prop :=
  (∃ id : String, text = s!"Duplicate pipeline node identifier: {id}") ∨
    (∃ step input : String, text = s!"Pipeline step '{step}' references unknown dependency '{input}'") ∨
    text = "Pipeline graph contains a cycle"

def Reports (hashing : Hashing) (definition : Value) (expectedName : String) : Prop :=
  ∃ text, validateDefinition hashing definition expectedName = .error text ∧ Fault text

def structureIssues (definition : Value) : Except String (List String) := do
  let object ← context definition.asObject "pipeline_definition_not_object"
  let sources ← context ((Members.field object "sources").bind Value.asArray) "pipeline_sources_missing"
  let steps ← context ((Members.field object "pipeline").bind Value.asArray) "pipeline_steps_missing"
  let scan ← scanPipeline sources steps
  validateBranchRoutes steps
  let order := topologicalOrder scan.sources scan.dependencies
  return scan.issues ++ danglingDependencies scan ++ if order.isNone then ["pipeline_cycle"] else []

def Rejects (definition : Value) : Prop :=
  ∃ issues, structureIssues definition = .ok issues ∧ (∃ issue ∈ issues, Structural issue) ∧
    validatePipelineStructure definition = .error ("; ".intercalate issues)

/-- A definition in the form both checks ask for, under the pipeline's name and
with no member that the gateway refuses. -/
structure Drafted (definition : Value) (expectedName : String) (sources steps : List Value) : Prop extends
    Shaped definition sources steps where
  members : ∀ m, definition = .object m → ∀ entry ∈ m, definitionMembers.contains entry.1 = true
  name_eq : definition.getStr "name" = some expectedName
  sourcesNamed : ∀ source ∈ sources, ∀ id, source.getStr "id" = some id → blank id = false
  stepsNamed : ∀ step ∈ steps, ∀ id, step.getStr "step" = some id → blank id = false

def Routed (steps : List Value) : Prop := ∀ step ∈ steps, validateRoute steps step = .ok ()

theorem forM_error {α : Type} {f : α → Except String Unit} {xs : List α} {text : String} (h : xs.forM f = .error text) :
    ∃ x ∈ xs, f x = .error text := by
  induction xs with
  | nil => cases h
  | cons x xs ih =>
      have hcons : (x :: xs).forM f = (f x >>= fun _ => xs.forM f) := rfl
      rw [hcons, bind_eq_error] at h
      rcases h with h | ⟨_, -, h⟩
      · exact ⟨x, List.mem_cons_self, h⟩
      · obtain ⟨y, hy, h⟩ := ih h
        exact ⟨y, List.mem_cons_of_mem _ hy, h⟩

/-- The inputs are known exactly when the graph is closed. -/
theorem checkInputs_eq_ok (h : Scanned sources steps scan) (hdistinct : (nodeIds sources steps).Nodup) :
    (hashing.entries scan.dependencies).forM (checkInputs scan.nodes) = .ok () ↔
      ∀ u v, Feeds steps u v → u ∈ nodeIds sources steps := by
  have hpairs : ∀ u v, (∃ inputs, (v, inputs) ∈ hashing.entries scan.dependencies ∧ u ∈ inputs) ↔ Feeds steps u v := by
    intro u v
    rw [← h.pairs_iff (List.nodup_append.mp hdistinct).2.1, mem_inputPairs]
    simp only [(hashing.perm _).mem_iff, ExtTreeMap.mem_toList_iff_getElem?_eq_some]
  simp only [forM_eq_ok, checkInputs, ensure_eq_ok, ExtTreeSet.contains_iff_mem, h.nodes, Prod.forall]
  constructor
  · intro hall u v hf
    obtain ⟨inputs, hm, hu⟩ := (hpairs u v).mpr hf
    exact hall v inputs hm u hu
  · intro hall v inputs hm u hu
    exact hall u v ((hpairs u v).mp ⟨inputs, hm, hu⟩)

theorem checkInputs_error {known : Names} {entries : List (String × List String)} {text : String}
    (h : entries.forM (checkInputs known) = .error text) : Fault text := by
  obtain ⟨entry, -, h⟩ := forM_error h
  obtain ⟨input, -, h⟩ := forM_error h
  rw [ensure_eq_error] at h
  exact .inr (.inl ⟨entry.1, input, h.2.symm⟩)

/-- A pipeline graph has no cycle exactly when every chain of inputs ends. -/
theorem acyclic_iff :
    (∀ v, ¬ TransGen (Feeds steps) v v) ↔ ∀ v, Acc (Feeds steps) v := by
  have htarget : ∀ u v, Feeds steps u v → v ∈ stepIds steps := by
    rintro u v ⟨step, hm, hid, -⟩
    exact mem_stepIds.mpr ⟨step, hm, hid⟩
  exact Cycles.acyclic_iff_acc htarget

theorem Drafted.scans (h : Drafted definition expectedName sources steps) :
    ∃ scan, scanPipeline sources steps = .ok scan ∧ Scanned sources steps scan := by
  obtain ⟨scan, hs⟩ := scanPipeline_accepts h.named h.blocks
  exact ⟨scan, hs, scanPipeline_scanned hs⟩

/-- The gateway reports a structural fault of every graph that has one. -/
theorem Drafted.reports_iff (h : Drafted definition expectedName sources steps) :
    Reports hashing definition expectedName ↔ ¬ Sound sources steps := by
  obtain ⟨scan, hs, hscanned⟩ := h.scans
  have hrecorded := scanPipeline_recorded hs h.sourcesNamed h.stepsNamed
  obtain ⟨m, rfl⟩ : ∃ m, definition = .object m := by
    cases definition with
    | object m => exact ⟨m, rfl⟩
    | _ => cases h.listedSources
  have hmembers : m.forM checkMember = .ok () := forM_eq_ok.mpr fun entry he => ensure_eq_ok.mpr (h.members m rfl entry he)
  have hunfold : validateDefinition hashing (.object m) expectedName =
      ((sources.foldlM recordSource ∅ >>= fun known => steps.foldlM recordStep (known, ∅)) >>= fun acc =>
        (hashing.entries acc.2).forM (checkInputs acc.1) >>= fun _ => checkCycles hashing acc.1 acc.2) := by
    simp only [validateDefinition, Value.asObject, Option.getD_some, hmembers, ok_bind, context_some, h.name_eq, beq_self_eq_true,
      ensure_true, h.listedSources, h.listedSteps, bind_assoc]
  generalize (sources.foldlM recordSource ∅ >>= fun known => steps.foldlM recordStep (known, ∅)) = r at hrecorded hunfold
  cases hrecorded with
  | repeated id hnodup hissue =>
      exact iff_of_true ⟨_, hunfold, .inl ⟨id, rfl⟩⟩ fun hsound => hnodup hsound.distinct
  | distinct hnodup hissues =>
      rw [ok_bind] at hunfold
      change _ = ((hashing.entries scan.dependencies).forM (checkInputs scan.nodes) >>= fun _ =>
        checkCycles hashing scan.nodes scan.dependencies) at hunfold
      have hinputs := @checkInputs_eq_ok _ _ _ hashing hscanned hnodup
      cases hi : (hashing.entries scan.dependencies).forM (checkInputs scan.nodes) with
      | error text =>
          rw [hi] at hunfold hinputs
          refine iff_of_true ⟨text, hunfold, checkInputs_error hi⟩ fun hsound => ?_
          cases hinputs.mpr hsound.closed
      | ok =>
          have hclosed := hinputs.mp hi
          obtain ⟨b, hb, hacyclic⟩ := @checkCycles_eq _ _ _ hashing hscanned hnodup hclosed
          rw [hi, ok_bind, hb] at hunfold
          cases b with
          | false =>
              refine iff_of_true ⟨_, hunfold, .inr (.inr rfl)⟩ fun hsound => ?_
              exact absurd (hacyclic.mpr (acyclic_iff.mp hsound.acyclic)) (by decide)
          | true =>
              refine iff_of_false ?_ fun hn => hn ⟨hnodup, hclosed, acyclic_iff.mpr (hacyclic.mp rfl)⟩
              rintro ⟨text, htext, -⟩
              rw [hunfold] at htext
              cases htext

/-- The Registry collects a structural issue of every graph that has one. -/
theorem Drafted.issues_iff (h : Drafted definition expectedName sources steps) (hroutes : Routed steps) :
    ∃ issues, structureIssues definition = .ok issues ∧
      ((∃ issue ∈ issues, Structural issue) ↔ ¬ Sound sources steps) ∧
      (issues ≠ [] → validatePipelineStructure definition = .error ("; ".intercalate issues)) := by
  obtain ⟨scan, hs, hscanned⟩ := h.scans
  obtain ⟨m, rfl⟩ : ∃ m, definition = .object m := by
    cases definition with
    | object m => exact ⟨m, rfl⟩
    | _ => cases h.listedSources
  have hsources : (Members.field m "sources").bind Value.asArray = some sources := h.listedSources
  have hsteps : (Members.field m "pipeline").bind Value.asArray = some steps := h.listedSteps
  have hbranches : validateBranchRoutes steps = .ok () := forM_eq_ok.mpr hroutes
  refine ⟨scan.issues ++ danglingDependencies scan ++
    if (topologicalOrder scan.sources scan.dependencies).isNone then ["pipeline_cycle"] else [], ?_, ?_, fun hne => ?_⟩
  · simp only [structureIssues, Value.asObject, context_some, ok_bind, hsources, hsteps, hs, hbranches]
    rfl
  · have hrecorded := scanPipeline_recorded hs h.sourcesNamed h.stepsNamed
    generalize (sources.foldlM recordSource ∅ >>= fun known => steps.foldlM recordStep (known, ∅)) = r at hrecorded
    cases hrecorded with
    | repeated id hnodup hissue =>
        obtain ⟨issue, hm, hstructural⟩ := hissue
        exact iff_of_true ⟨issue, by simp [hm], hstructural⟩ fun hsound => hnodup hsound.distinct
    | distinct hnodup hissues =>
        have hnd := (List.nodup_append.mp hnodup).2.1
        have hdangling := hscanned.dangling_iff hnd
        cases hd : danglingDependencies scan with
        | cons issue rest =>
            have hm : issue ∈ danglingDependencies scan := hd ▸ List.mem_cons_self
            refine iff_of_true ⟨issue, by simp, ?_⟩ fun hsound => ?_
            · simp only [danglingDependencies, List.mem_flatMap, List.mem_map] at hm
              obtain ⟨entry, -, input, -, rfl⟩ := hm
              exact .inr (.inl ⟨entry.1, input, rfl⟩)
            · rw [hdangling.mpr hsound.closed] at hd
              cases hd
        | nil =>
            have hclosed := hdangling.mp hd
            obtain ⟨hordered, horder⟩ := hscanned.order_iff hnd hclosed
            cases ho : topologicalOrder scan.sources scan.dependencies with
            | none =>
                refine iff_of_true ⟨"pipeline_cycle", by simp, .inr (.inr rfl)⟩ fun hsound => ?_
                obtain ⟨order, hsome⟩ := horder (acyclic_iff.mp hsound.acyclic)
                rw [ho] at hsome
                cases hsome
            | some order =>
                refine iff_of_false ?_ fun hn => hn ⟨hnodup, hclosed, acyclic_iff.mpr (hordered order ho).2⟩
                rintro ⟨issue, hm, hstructural⟩
                exact hissues issue (by simpa using hm) hstructural
  · rw [validatePipelineStructure, validatePipelineInternal]
    simp only [Value.asObject, context_some, ok_bind, hsources, hsteps, hs, hbranches, bindingIssues, Bool.false_eq_true,
      if_false, List.append_nil]
    have hfull : (scan.issues ++ danglingDependencies scan ++
        if (topologicalOrder scan.sources scan.dependencies).isNone then ["pipeline_cycle"] else []).isEmpty = false :=
      List.isEmpty_eq_false_iff.mpr hne
    rw [hfull]
    rfl

/-- The Registry rejects a graph for a structural fault exactly when the gateway
reports one and the branches of the routes pass, which the Registry looks at
before. Whatever the branches, it accepts no graph that the gateway reports. -/
theorem structural_faults_agree (hashing : Hashing) (definition : Value) (expectedName : String)
    (sources steps : List Value) (h : Drafted definition expectedName sources steps) :
    (Rejects definition ↔ Reports hashing definition expectedName ∧ Routed steps) ∧
      (Reports hashing definition expectedName → ¬ Accepts (validatePipelineStructure definition)) := by
  rw [h.reports_iff]
  refine ⟨⟨?_, ?_⟩, fun hfaulty haccepts => ?_⟩
  · rintro ⟨issues, hissues, hstructural, -⟩
    have hroutes : Routed steps := by
      simp only [structureIssues, bind_eq_ok, context_eq_ok] at hissues
      obtain ⟨m, hm, _, -, steps', hsteps, _, -, _, hbranches, -⟩ := hissues
      obtain rfl : definition = .object m := Value.asObject_eq_some.mp hm
      obtain rfl := Option.some.inj (h.listedSteps.symm.trans hsteps)
      exact forM_eq_ok.mp hbranches
    obtain ⟨issues', hissues', hiff, -⟩ := h.issues_iff hroutes
    obtain rfl := Except.ok.inj (hissues.symm.trans hissues')
    exact ⟨hiff.mp hstructural, hroutes⟩
  · rintro ⟨hfaulty, hroutes⟩
    obtain ⟨issues, hissues, hiff, hrejected⟩ := h.issues_iff hroutes
    obtain ⟨issue, hm, hstructural⟩ := hiff.mpr hfaulty
    exact ⟨issues, hissues, ⟨issue, hm, hstructural⟩, hrejected (List.ne_nil_of_mem hm)⟩
  · have hproper := ((validatePipelineStructure_exact definition sources steps h.toShaped).1.mp haccepts).1
    exact hfaulty ⟨hproper.distinct, hproper.closed, hproper.acyclic⟩

def sortedHashing : Hashing := ⟨fun m => m.toList, fun _ => .refl _⟩

def draftOf (step : Value) : Value :=
  .object [("name", .string "mail"), ("sources", .array [mailSource]), ("pipeline", .array [step])]

theorem draftOf_drafted {step : Value} {id kind : String} {inputs : List String} (hb : Block step id kind inputs)
    (hblank : blank id = false) : Drafted (draftOf step) "mail" [mailSource] [step] where
  listedSources := rfl
  listedSteps := rfl
  named source hm := ⟨"mail", by rw [List.mem_singleton.mp hm]; rfl, by decide⟩
  blocks s hm := ⟨id, kind, inputs, List.mem_singleton.mp hm ▸ hb⟩
  members m hm entry he := by
    obtain rfl := Value.object.inj hm
    fin_cases he <;> rfl
  name_eq := rfl
  sourcesNamed source hm id' hid := by
    rw [List.mem_singleton.mp hm] at hid
    obtain rfl := Option.some.inj hid
    decide
  stepsNamed s hm id' hid := by
    rw [List.mem_singleton.mp hm, hb.id_eq] at hid
    exact Option.some.inj hid ▸ hblank

def selfFed : Value :=
  .object [("step", .string "store"), ("type", .string "sink"), ("input_from", .array [.string "store"])]

theorem selfFed_block : Block selfFed "store" "sink" ["store"] := ⟨rfl, by decide, rfl, by decide, rfl⟩

theorem structural_faults_agree_self : Reports sortedHashing (draftOf selfFed) "mail" ∧ Rejects (draftOf selfFed) := by
  have hreports : Reports sortedHashing (draftOf selfFed) "mail" :=
    ⟨"Pipeline graph contains a cycle", by decide +kernel, .inr (.inr rfl)⟩
  have hroutes : Routed [selfFed] := by
    intro step hm
    obtain rfl := List.mem_singleton.mp hm
    decide +kernel
  exact ⟨hreports, (structural_faults_agree sortedHashing (draftOf selfFed) "mail" _ _
    (draftOf_drafted selfFed_block (by decide))).1.mpr ⟨hreports, hroutes⟩⟩

def branchedSelfFed : Value :=
  .object [("step", .string "store"), ("type", .string "sink"), ("input_from", .array [.string "store"]),
    ("branches", .object [("kept", .array [.string "store"])])]

theorem branchedSelfFed_block : Block branchedSelfFed "store" "sink" ["store"] := ⟨rfl, by decide, rfl, by decide, rfl⟩

theorem branch_hides_cycle : ∃ definition sources steps, Drafted definition "mail" sources steps ∧
    Reports sortedHashing definition "mail" ∧ ¬ Rejects definition := by
  refine ⟨draftOf branchedSelfFed, _, _, draftOf_drafted branchedSelfFed_block (by decide),
    ⟨"Pipeline graph contains a cycle", by decide +kernel, .inr (.inr rfl)⟩, ?_⟩
  rintro ⟨issues, hissues, -⟩
  have hbranch : structureIssues (draftOf branchedSelfFed) = .error "Only routing blocks declare branches" := by
    decide +kernel
  rw [hbranch] at hissues
  cases hissues

end Galadril.Pipelines
