import Galadril.Lib.Checked
import Galadril.Registry.Budgets

namespace Galadril.Registry.Pipeline

open Json Lib Lib.Checked Identity Ontology Std

/-- The error of a transfer whose definition is not at hand. -/
def unavailable : String := "Referenced pipeline revision unavailable"

def Elsewhere (e : String) : Prop := e ≠ unavailable

instance (e : String) : Decidable (Elsewhere e) := inferInstanceAs (Decidable (e ≠ unavailable))

/-- A text that cannot be mistaken for that error at its first letter. -/
def Apart (e : String) : Prop := ∃ c rest, e.toList = c :: rest ∧ c ≠ 'R'

theorem Apart.elsewhere {e : String} (h : Apart e) : Elsewhere e := by
  rintro rfl
  obtain ⟨c, rest, heq, hc⟩ := h
  rw [unavailable, show "Referenced pipeline revision unavailable".toList =
    'R' :: "eferenced pipeline revision unavailable".toList by decide] at heq
  exact hc (List.cons.inj heq).1.symm

theorem Apart.append {e : String} (h : Apart e) (tail : String) : Apart (e ++ tail) := by
  obtain ⟨c, rest, heq, hc⟩ := h
  exact ⟨c, rest ++ tail.toList, by rw [String.toList_append, heq, List.cons_append], hc⟩

theorem apart_intercalate {issue : String} {issues : List String} (h : Apart issue) :
    Apart ("; ".intercalate (issue :: issues)) := by
  cases issues with
  | nil => rwa [String.intercalate_singleton]
  | cons next issues =>
      rw [String.intercalate_cons_cons]
      exact (h.append _).append _

theorem apart_stepIssues (step : Value) (id kind : String) : ∀ issue ∈ stepIssues step id kind, Apart issue := by
  intro issue hissue
  rw [stepIssues, List.mem_append] at hissue
  rcases hissue with hissue | hissue
  · split at hissue
    · cases hissue
    · rw [List.mem_singleton.mp hissue]
      exact ⟨'i', _, by simp; rfl, by decide⟩
  · split at hissue
    · rw [List.mem_singleton.mp hissue]
      exact ⟨'m', _, by simp; rfl, by decide⟩
    · cases hissue

theorem apart_addNode {scan : Scan} (h : ∀ issue ∈ scan.issues, Apart issue) (id : String) :
    ∀ issue ∈ (scan.addNode id).issues, Apart issue := by
  intro issue hissue
  unfold Scan.addNode at hissue
  split at hissue
  · rcases List.mem_append.mp hissue with hissue | hissue
    · exact h issue hissue
    · rw [List.mem_singleton.mp hissue]
      exact ⟨'d', _, by simp; rfl, by decide⟩
  · exact h issue hissue

theorem errs_requiredString {value : Value} {field owner : String} (hmissing : Elsewhere s!"{owner} {field} missing")
    (hempty : Elsewhere s!"{owner} {field} empty") : Errs Elsewhere (requiredString value field owner) := by
  simp only [requiredString, errs_bind, errs_context, errs_ensure, errs_pure]
  exact ⟨fun _ => hmissing, fun _ _ => ⟨fun _ => hempty, fun _ _ => trivial⟩⟩

theorem errs_scanPipeline (sources steps : List Value) : Errs Elsewhere (scanPipeline sources steps) ∧
    ∀ scan, scanPipeline sources steps = .ok scan → ∀ issue ∈ scan.issues, Apart issue := by
  have hsource : ∀ scan source, Errs Elsewhere (scanSource scan source) := by
    intro scan source
    simp only [scanSource, errs_bind, errs_pure]
    exact ⟨errs_requiredString (by decide) (by decide), fun _ _ => trivial⟩
  have hsource' : ∀ scan : Scan, (∀ issue ∈ scan.issues, Apart issue) → ∀ source scan', scanSource scan source = .ok scan' →
      ∀ issue ∈ scan'.issues, Apart issue := by
    intro scan h source scan' hscan
    simp only [scanSource, bind_eq_ok, pure_eq_ok] at hscan
    obtain ⟨id, -, rfl⟩ := hscan
    exact apart_addNode h id
  have hstep : ∀ scan step, Errs Elsewhere (scanStep scan step) := by
    intro scan step
    simp only [scanStep, errs_bind, errs_context, errs_pure]
    refine ⟨errs_requiredString (by decide) (by decide), fun _ _ => ⟨errs_requiredString (by decide) (by decide),
      fun _ _ => ⟨fun _ => by decide, fun _ _ => ⟨errs_mapM fun input _ => ?_, fun _ _ => trivial⟩⟩⟩⟩
    rw [errs_context]
    exact fun _ => by decide
  have hstep' : ∀ scan : Scan, (∀ issue ∈ scan.issues, Apart issue) → ∀ step scan', scanStep scan step = .ok scan' →
      ∀ issue ∈ scan'.issues, Apart issue := by
    intro scan h step scan' hscan
    simp only [scanStep, bind_eq_ok, pure_eq_ok] at hscan
    obtain ⟨id, -, kind, -, inputs, -, dependencies, -, rfl⟩ := hscan
    intro issue hissue
    rcases List.mem_append.mp hissue with hissue | hissue
    · exact apart_addNode h id issue hissue
    · exact apart_stepIssues step id kind issue hissue
  constructor
  · rw [scanPipeline, errs_bind]
    exact ⟨errs_foldlM (P := fun _ => True) trivial fun _ _ source _ => ⟨hsource _ source, fun _ _ => trivial⟩,
      fun _ _ => errs_foldlM (P := fun _ => True) trivial fun _ _ step _ => ⟨hstep _ step, fun _ _ => trivial⟩⟩
  · intro scan hscan
    rw [scanPipeline, bind_eq_ok] at hscan
    obtain ⟨between, hsources, hsteps⟩ := hscan
    have hbetween : ∀ issue ∈ between.issues, Apart issue :=
      foldlM_invariant (P := fun scan => ∀ issue ∈ scan.issues, Apart issue) (fun issue h => by cases h)
        (fun scan h source _ => hsource' scan h source) hsources
    exact foldlM_invariant (P := fun scan => ∀ issue ∈ scan.issues, Apart issue) hbetween
      (fun scan h step _ => hstep' scan h step) hsteps

theorem errs_branchTargets (entry : String × Value) : Errs Elsewhere (branchTargets entry) := by
  simp only [branchTargets, errs_bind, errs_ensure, errs_context]
  refine ⟨fun _ => by decide, fun _ _ => ⟨fun _ => by decide, fun _ _ => ⟨fun _ => by decide, fun _ _ => ?_⟩⟩⟩
  refine errs_foldlM (P := fun _ => True) trivial fun _ _ target _ => ⟨?_, fun _ _ => trivial⟩
  simp only [errs_bind, errs_context, errs_ensure, errs_pure]
  exact ⟨fun _ => by decide, fun _ _ => ⟨fun _ => by decide, fun _ _ => trivial⟩⟩

theorem errs_validateRoute (steps : List Value) (step : Value) : Errs Elsewhere (validateRoute steps step) := by
  rw [validateRoute, errs_bind]
  refine ⟨errs_requiredString (by decide) (by decide), fun id _ => ?_⟩
  dsimp only
  split
  · simp only [errs_ensure]
    exact fun _ => by decide
  · simp only [errs_bind, errs_ensure, errs_context]
    exact ⟨fun _ => by decide, fun _ _ => ⟨fun _ => by decide, fun _ _ => ⟨fun _ => by decide, fun _ _ =>
      ⟨fun _ => by decide, fun _ _ => ⟨errs_mapM fun entry _ => errs_branchTargets entry, fun _ _ _ => by decide⟩⟩⟩⟩⟩

theorem errs_validatePipelineStructure (definition : Value) : Errs Elsewhere (validatePipelineStructure definition) := by
  simp only [validatePipelineStructure, validatePipelineInternal, bindingIssues, Bool.false_eq_true, if_false, errs_bind,
    errs_context, errs_ensure, errs_ok, true_and]
  refine ⟨fun _ => by decide, fun _ _ => ⟨fun _ => by decide, fun sources _ => ⟨fun _ => by decide, fun steps _ =>
    ⟨(errs_scanPipeline sources steps).1, fun scan hscan _ hunbound => ⟨errs_forM fun step _ => errs_validateRoute steps step,
    fun _ _ => ⟨fun hissues => ?_, fun _ _ _ => by decide⟩⟩⟩⟩⟩⟩
  obtain rfl := Except.ok.inj hunbound
  have hapart : ∀ issue ∈ scan.issues ++ danglingDependencies scan ++ [] ++
      (if (topologicalOrder scan.sources scan.dependencies).isNone then ["pipeline_cycle"] else []), Apart issue := by
    intro issue hissue
    simp only [List.append_nil, List.mem_append] at hissue
    rcases hissue with (hissue | hissue) | hissue
    · exact (errs_scanPipeline sources steps).2 scan hscan issue hissue
    · simp only [danglingDependencies, List.mem_flatMap, List.mem_map] at hissue
      obtain ⟨entry, -, dependency, -, rfl⟩ := hissue
      exact ⟨'d', _, by simp; rfl, by decide⟩
    · split at hissue
      · rw [List.mem_singleton.mp hissue]
        exact ⟨'p', _, rfl, by decide⟩
      · cases hissue
  generalize scan.issues ++ danglingDependencies scan ++ [] ++
    (if (topologicalOrder scan.sources scan.dependencies).isNone then ["pipeline_cycle"] else []) = issues at *
  cases issues with
  | nil => simp at hissues
  | cons issue issues => exact (apart_intercalate (hapart issue List.mem_cons_self)).elsewhere

theorem errs_references (definition : Value) : Errs Elsewhere (references definition) := by
  simp only [references, errs_bind, errs_context, errs_ensure]
  refine ⟨fun _ => by decide, fun sources _ => ⟨fun _ => by decide, fun steps _ => ⟨fun _ => by decide, fun _ _ => ?_⟩⟩⟩
  refine errs_foldlM (P := fun _ => True) trivial fun found _ node _ => ⟨?_, fun _ _ => trivial⟩
  simp only [nodeReference, errs_bind, errs_context, errs_ensure]
  refine ⟨fun _ => by decide, fun id _ => ⟨fun _ => by decide, fun _ _ => ?_⟩⟩
  split
  · simp only [transferReference, errs_bind, errs_context, errs_ensure, errs_pure]
    refine ⟨⟨fun _ => by decide, fun _ _ => ⟨fun _ => by decide, fun _ _ => ⟨fun _ => by decide, fun _ _ =>
      ⟨fun _ => by decide, fun _ _ => ⟨fun _ => by decide, fun _ _ => ⟨fun _ => by decide, fun _ _ => trivial⟩⟩⟩⟩⟩⟩,
      fun _ _ => ⟨fun _ => by decide, fun _ _ => trivial⟩⟩
  · simp only [errs_bind, errs_ensure, errs_pure]
    exact ⟨fun _ => by decide, fun _ _ => trivial⟩

theorem errs_linkedBlocks (sources steps : List Value) (order : List String) (selected : String) :
    Errs Elsewhere (linkedBlocks sources steps order selected) := by
  simp only [linkedBlocks, errs_bind, errs_ensure]
  refine ⟨fun _ => by decide, fun _ _ => errs_foldlM (P := fun _ => True) trivial fun reachable _ id _ =>
    ⟨?_, fun _ _ => trivial⟩⟩
  rw [reach]
  split
  · exact errs_ok _
  · split
    · exact errs_ok _
    · simp only [errs_bind, errs_context]
      refine ⟨fun _ => by decide, fun inputs _ => ?_⟩
      split
      · simp only [errs_bind, errs_ensure, errs_pure]
        exact ⟨fun _ => by decide, fun _ _ => trivial⟩
      · exact errs_pure _

theorem errs_nameSource (entry : Option (String × String)) (names : Renaming) (source : Value) :
    Errs Elsewhere (nameSource entry names source) := by
  simp only [nameSource, errs_bind, errs_context]
  refine ⟨fun _ => by decide, fun id _ => ?_⟩
  split <;> exact errs_pure _

theorem errs_nameStep (linked : Option (List String)) (acc : Renaming × Nat) (step : Value) :
    Errs Elsewhere (nameStep linked acc step) := by
  simp only [nameStep, errs_bind, errs_context]
  refine ⟨fun _ => by decide, fun id _ => ?_⟩
  split
  · exact errs_pure _
  · split <;> exact errs_pure _

theorem errs_renamed {text : String} (htext : Elsewhere text) (names : Renaming) (items : List Value) :
    Errs Elsewhere (renamed names text items) := by
  refine errs_mapM fun item _ => ?_
  simp only [errs_bind, errs_context, errs_pure]
  exact ⟨fun _ => htext, fun _ _ => trivial⟩

theorem errs_renameStep (names : Renaming) (origin : Option Value) (id : String) (step : Value) :
    Errs Elsewhere (renameStep names origin id step) := by
  simp only [renameStep, errs_bind, errs_context]
  refine ⟨fun _ => by decide, fun mapped _ => ⟨fun _ => by decide, fun inputs _ =>
    ⟨errs_renamed (by decide) names inputs, fun items _ => ⟨fun _ => by decide, fun object _ => ?_⟩⟩⟩⟩
  split
  · exact errs_pure _
  · simp only [errs_bind, errs_ok, errs_pure]
    refine ⟨errs_mapM fun entry _ => ?_, fun _ _ => ⟨trivial, fun _ _ => trivial⟩⟩
    simp only [errs_bind, errs_context, errs_pure]
    exact ⟨fun _ => by decide, fun targets _ => ⟨errs_renamed (by decide) names targets, fun _ _ => trivial⟩⟩

def Finds {α : Type} (x y : Except String α) : Prop := x = y ∧ Errs Elsewhere y

section Rules

variable {α β : Type}

theorem finds_same {x : Except String α} (h : Errs Elsewhere x) : Finds x x := ⟨rfl, h⟩

theorem Finds.bind {x y : Except String α} {f g : α → Except String β} (h : Finds x y)
    (hf : ∀ a, y = .ok a → Finds (f a) (g a)) : Finds (x >>= f) (y >>= g) := by
  obtain ⟨rfl, herrs⟩ := h
  refine ⟨?_, errs_bind.mpr ⟨herrs, fun a ha => (hf a ha).2⟩⟩
  cases x with
  | error e => rfl
  | ok a => exact (hf a rfl).1

theorem Finds.foldlM {f g : β → α → Except String β} {xs : List α} {b : β} (h : ∀ b, ∀ x ∈ xs, Finds (f b x) (g b x)) :
    Finds (xs.foldlM f b) (xs.foldlM g b) := by
  induction xs generalizing b with
  | nil => exact finds_same (errs_pure b)
  | cons x xs ih =>
      rw [List.foldlM_cons, List.foldlM_cons]
      exact (h b x List.mem_cons_self).bind fun b' _ => ih fun b y hy => h b y (List.mem_cons_of_mem x hy)

end Rules

/-- A set of references whose definitions are at hand and refer to nothing
outside the set. -/
structure Complete (definitions : Definitions) (keys : ReferenceKey → Prop) : Prop where
  available : ∀ k, keys k → (definitions.lookup k).isSome = true
  closed : ∀ k definition found, keys k → definitions.lookup k = some definition → references definition = .ok found →
    ∀ r ∈ found, keys r.key

theorem foldlM_nodeReference_mem {steps nodes : List Value} {found found' : List PipelineReference}
    (h : nodes.foldlM (nodeReference steps) found = .ok found') :
    (∀ r ∈ found, r ∈ found') ∧ ∀ node ∈ nodes, node.getStr "type" = some "pipeline" →
      ∃ id, ∃ r ∈ found', transferReference steps id node = .ok r := by
  induction nodes generalizing found with
  | nil =>
      cases h
      exact ⟨fun r hr => hr, fun node hm => by cases hm⟩
  | cons node nodes ih =>
      rw [List.foldlM_cons, bind_eq_ok] at h
      obtain ⟨next, hnode, hrest⟩ := h
      obtain ⟨hkept, hlater⟩ := ih hrest
      obtain ⟨htype, -, id, reference, href, rfl⟩ | ⟨htype, rfl⟩ := nodeReference_eq_ok hnode
      · refine ⟨fun r hr => hkept r (List.mem_append_left _ hr), fun node' hm htype' => ?_⟩
        rcases List.mem_cons.mp hm with rfl | hm
        · exact ⟨id, reference, hkept reference (List.mem_append_right _ (List.mem_singleton.mpr rfl)), href⟩
        · exact hlater node' hm htype'
      · refine ⟨hkept, fun node' hm htype' => ?_⟩
        rcases List.mem_cons.mp hm with rfl | hm
        · exact absurd htype' htype
        · exact hlater node' hm htype'

theorem references_mem {definition step value : Value} {steps : List Value} {found : List PipelineReference}
    {reference : PipelineReference} (h : references definition = .ok found)
    (hsteps : definition.getArray "pipeline" = some steps) (hm : step ∈ steps) (htype : step.getStr "type" = some "pipeline")
    (hvalue : step.get "pipeline_ref" = some value) (href : parseReference value = some reference) : reference ∈ found := by
  simp only [references, bind_eq_ok, context_eq_ok] at h
  obtain ⟨sources, -, _, hsteps', _, -, hfold⟩ := h
  obtain rfl := Option.some.inj (hsteps'.symm.trans hsteps)
  obtain ⟨id, r, hr, htransfer⟩ := (foldlM_nodeReference_mem hfold).2 step (List.mem_append_right _ hm) htype
  simp only [transferReference, bind_eq_ok, context_eq_ok, pure_eq_ok] at htransfer
  obtain ⟨_, -, value', hvalue', r', href', _, -, _, -, _, -, rfl⟩ := htransfer
  obtain rfl := Option.some.inj (hvalue.symm.trans hvalue')
  obtain rfl := Option.some.inj (href.symm.trans href')
  exact hr

/-- Two maps that agree on a complete set of references expand a definition
alike, and neither lacks one of them. -/
theorem append_finds {definitions others : Definitions} {keys : ReferenceKey → Prop} (hcomplete : Complete definitions keys)
    (hagree : ∀ k, keys k → others.lookup k = definitions.lookup k) {depth : Nat} {pipelineId revisionId : String}
    {definition : Value} {entry : Option (String × String)} {expansion : Expansion}
    (hroots : ∀ found, references definition = .ok found → ∀ r ∈ found, keys r.key) :
    Finds (append others depth pipelineId revisionId definition entry expansion)
      (append definitions depth pipelineId revisionId definition entry expansion) := by
  induction depth generalizing pipelineId revisionId definition entry expansion with
  | zero => exact finds_same (errs_error.mpr (by decide))
  | succ depth ih =>
      rw [append_succ, append_succ]
      refine (finds_same (errs_ensure.mpr fun _ => by decide)).bind fun _ _ => ?_
      refine (finds_same (errs_references definition)).bind fun found hfound => ?_
      refine (finds_same (errs_ensure.mpr fun _ => by decide)).bind fun _ _ => ?_
      refine (finds_same (errs_validatePipelineStructure definition)).bind fun order _ => ?_
      refine (finds_same (errs_context.mpr fun _ => by decide)).bind fun sources _ => ?_
      refine (finds_same (errs_context.mpr fun _ => by decide)).bind fun steps hsteps => ?_
      refine (finds_same (errs_ensure.mpr fun _ => by decide)).bind fun _ _ => ?_
      refine (finds_same ?_).bind fun linked _ => ?_
      · cases entry with
        | none => exact errs_pure _
        | some e => exact errs_bind.mpr ⟨errs_linkedBlocks sources steps order e.1, fun _ _ => errs_pure _⟩
      refine (finds_same (errs_foldlM (P := fun _ => True) trivial fun names _ source _ =>
        ⟨errs_nameSource entry names source, fun _ _ => trivial⟩)).bind fun names _ => ?_
      refine (finds_same (errs_foldlM (P := fun _ => True) trivial fun acc _ step _ =>
        ⟨errs_nameStep linked acc step, fun _ _ => trivial⟩)).bind fun named _ => ?_
      refine Finds.bind (Finds.foldlM fun expansion step hm => ?_) fun _ _ => finds_same (errs_pure _)
      refine (finds_same (errs_context.mpr fun _ => by decide)).bind fun id hid => ?_
      rw [context_eq_ok] at hid hsteps
      split
      · refine (finds_same (errs_renameStep _ _ id step)).bind fun renamed hrenamed => ?_
        by_cases htype : step.getStr "type" = some "pipeline"
        · simp only [if_pos htype]
          refine (finds_same (errs_context.mpr fun _ => by decide)).bind fun value hvalue => ?_
          refine (finds_same (errs_context.mpr fun _ => by decide)).bind fun reference href => ?_
          rw [context_eq_ok] at hvalue href
          -- the block transfers to a reference of its definition
          have hget : step.get "pipeline_ref" = some value := by
            rw [← (renameStep_eq_ok hid hrenamed).2.others "pipeline_ref" (by decide), hvalue]
          have hkey : keys reference.key := hroots found hfound reference (references_mem hfound hsteps hm htype hget href)
          obtain ⟨child, hchild⟩ := Option.isSome_iff_exists.mp (hcomplete.available _ hkey)
          rw [hagree _ hkey, hchild, context_some]
          exact ih fun found hfound => hcomplete.closed _ child found hkey hchild hfound
        · simp only [if_neg htype]
          exact finds_same (errs_pure _)
      · exact finds_same (errs_pure _)

end Galadril.Registry.Pipeline
