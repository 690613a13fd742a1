import Galadril.Dashboard.PipelineGraphs
import Galadril.Json.Keyed
import Galadril.Lib.Mapping
import Galadril.Registry.Authoring
import Galadril.Registry.PipelineExact

namespace Galadril.Dashboard

open Json Lib Lib.Checked Lib.Mapping

theorem field_filter {m : Members} {p : String → Bool} {key : String} (hkey : p key = true) :
    Members.field (m.filter fun entry => p entry.1) key = Members.field m key := by
  induction m with
  | nil => rfl
  | cons entry m ih =>
      obtain ⟨k, v⟩ := entry
      rw [List.filter_cons]
      by_cases hk : k = key
      · simp [hk, hkey, Members.field]
      · split
        · rw [Members.field, Members.field, if_neg hk, if_neg hk, ih]
        · rw [Members.field, if_neg hk, ih]

theorem field_without {v : Value} (hv : v.isObject = true) {keys : List String} {key : String} (hkey : key ∉ keys) :
    Members.field (without keys v) key = v.get key := by
  cases v with
  | object m => exact @field_filter m (fun key => decide (key ∉ keys)) key (by simpa using hkey)
  | null | bool | number | string | array => cases hv

theorem field_present_absent {fields : List (String × Option Value)} {key : String} (hkey : key ∉ fields.map Prod.fst) :
    Members.field (present fields) key = none := by
  cases hfield : Members.field (present fields) key with
  | none => rfl
  | some w =>
      obtain ⟨entry, hentry, hw⟩ := List.mem_filterMap.mp (Members.mem_of_field hfield)
      obtain ⟨u, -, heq⟩ := Option.map_eq_some_iff.mp hw
      have hfst : entry.1 = key := congrArg Prod.fst heq
      exact absurd (List.mem_map.mpr ⟨entry, hentry, hfst⟩) hkey

theorem field_without_mem {keys : List String} {key : String} (hkey : key ∈ keys) (v : Value) :
    Members.field (without keys v) key = none := by
  cases hfield : Members.field (without keys v) key with
  | none => rfl
  | some w =>
      have hkept := (List.mem_filter.mp (Members.mem_of_field hfield)).2
      exact absurd hkey (of_decide_eq_true hkept)

theorem field_present {fields : List (String × Option Value)} (hnodup : (fields.map Prod.fst).Nodup) {key : String}
    {v : Option Value}
    (h : (key, v) ∈ fields) : Members.field (present fields) key = v := by
  induction fields with
  | nil => cases h
  | cons entry fields ih =>
      obtain ⟨hfresh, hrest⟩ := List.nodup_cons.mp hnodup
      rcases List.mem_cons.mp h with rfl | hmem
      · cases v with
        | none =>
          have hrest : Members.field (present fields) key = none := field_present_absent hfresh
          exact hrest
        | some w => exact if_pos rfl
      · have hne : entry.1 ≠ key := by
          rintro rfl
          exact hfresh (List.mem_map.mpr ⟨_, hmem, rfl⟩)
        have htail := ih hrest hmem
        obtain ⟨k, w⟩ := entry
        cases w with
        | none => exact htail
        | some w =>
            have hcons : present ((k, some w) :: fields) = (k, w) :: present fields := rfl
            rw [hcons, Members.field, if_neg hne]
            exact htail

theorem copyConfig_accepts {config : Members} :
    Accepts (copyConfig config) ↔ ∀ entry ∈ config, Accepts (copyField entry.1 entry.2) := by
  rw [copyConfig, accepts_mapM]
  refine forall₂_congr fun entry _ => ?_
  constructor
  · rintro ⟨copied, h⟩
    obtain ⟨v, hv, -⟩ := map_eq_ok.mp h
    exact ⟨v, hv⟩
  · rintro ⟨v, hv⟩
    exact ⟨_, map_eq_ok.mpr ⟨v, hv, rfl⟩⟩

theorem field_copyConfig {config copied : Members} (h : copyConfig config = .ok copied) (key : String) :
    (Members.field config key = none ∧ Members.field copied key = none) ∨
      ∃ v w, Members.field config key = some v ∧ copyField key v = .ok w ∧ Members.field copied key = some w := by
  have hall := mapM_eq_ok.mp h
  clear h
  induction hall with
  | nil => exact .inl ⟨rfl, rfl⟩
  | @cons entry entry' config copied hentry hrest ih =>
      obtain ⟨k, v⟩ := entry
      obtain ⟨w, hw, rfl⟩ := map_eq_ok.mp hentry
      rw [Members.field, Members.field]
      by_cases hk : k = key
      · subst hk
        exact .inr ⟨v, w, if_pos rfl, hw, if_pos rfl⟩
      · rw [if_neg hk, if_neg hk]
        exact ih

theorem field_copyConfig_same {config copied : Members} (h : copyConfig config = .ok copied) {key : String}
    (hsame : ∀ v, Members.field config key = some v → ∀ w, copyField key v = .ok w → w = v) :
    Members.field copied key = Members.field config key := by
  rcases field_copyConfig h key with ⟨hnone, hnone'⟩ | ⟨v, w, hv, hw, hcopied⟩
  · rw [hnone, hnone']
  · rw [hcopied, hv, hsame v hv w hw]

theorem copyField_plain {key : String} (hkey : key ∉ ["params", "pipeline_ref", "branch_labels", "content_types"]) (v : Value) :
    copyField key v = .ok v := by
  simp only [List.mem_cons, List.not_mem_nil, or_false, not_or] at hkey
  obtain ⟨hparams, hreference, hlabels, htypes⟩ := hkey
  rw [copyField, if_neg (not_or.mpr ⟨hparams, hreference⟩), if_neg (not_or.mpr ⟨hlabels, htypes⟩), ite_self]

theorem copyField_falsy {key : String} {v : Value} (hv : truthy v = false) : copyField key v = .ok v := by
  rw [copyField, if_neg (by simp [hv])]

theorem copyField_record {key : String} (hkey : key = "params" ∨ key = "pipeline_ref") (m : Members) :
    copyField key (.object m) = .ok (.object m) := by
  have hobject : truthy (.object m) = true := rfl
  rw [copyField, if_pos hobject, if_pos hkey, entries]

theorem copyField_list {key : String} (hkey : key = "branch_labels" ∨ key = "content_types") {v : Value} (hv : truthy v = true) :
    copyField key v = (spread v).map .array := by
  have hother : ¬ (key = "params" ∨ key = "pipeline_ref") := by
    rcases hkey with rfl | rfl
    · decide
    · decide
  rw [copyField, if_pos hv, if_neg hother, if_pos hkey]

def Spreadable (v : Value) : Prop := truthy v = true → (∃ items, v = .array items) ∨ ∃ s, v = .string s

theorem spread_accepts {v : Value} : Accepts (spread v) ↔ (∃ items, v = .array items) ∨ ∃ s, v = .string s := by
  cases v with
  | array items => exact iff_of_true ⟨_, rfl⟩ (.inl ⟨_, rfl⟩)
  | string s => exact iff_of_true ⟨_, rfl⟩ (.inr ⟨_, rfl⟩)
  | null | bool | number | object => exact iff_of_false (not_accepts_error _) (by simp)

theorem copyField_accepts {key : String} {v : Value} :
    Accepts (copyField key v) ↔ (key = "branch_labels" ∨ key = "content_types" → Spreadable v) := by
  by_cases hlist : key = "branch_labels" ∨ key = "content_types"
  · rw [Spreadable, ← spread_accepts]
    by_cases hv : truthy v = true
    · rw [copyField_list hlist hv]
      constructor
      · rintro ⟨w, hw⟩ _ _
        obtain ⟨items, hitems, -⟩ := map_eq_ok.mp hw
        exact ⟨items, hitems⟩
      · intro h
        obtain ⟨items, hitems⟩ := h hlist hv
        exact ⟨_, map_eq_ok.mpr ⟨items, hitems, rfl⟩⟩
    · rw [copyField_falsy (by simpa using hv)]
      exact iff_of_true (accepts_ok v) fun _ htrue => absurd htrue hv
  · refine iff_of_true ?_ fun h => absurd h hlist
    rw [copyField, if_neg hlist]
    split
    · split
      · exact accepts_ok _
      · exact accepts_ok _
    · exact accepts_ok _

section Authored

open Registry.Pipeline

structure Defined (d : Value) (sources steps : List Value) : Prop where
  listedSources : d.getArray "sources" = some sources
  listedSteps : d.getArray "pipeline" = some steps
  defined : isDefinition d = true

structure Authored (d : Value) (sources steps : List Value) : Prop extends Defined d sources steps where
  keyed : d.keyed = true
  bounded : sources.length + steps.length ≤ 256
  wellformed : Wellformed sources steps
  unmarked : ∀ step ∈ steps, step.get "origin" = none
  fed : ∀ step ∈ steps, ∀ id kind inputs, Block step id kind inputs →
    if scheduled step then inputs = []
    else inputs ≠ [] ∧ (inputs.length = 1 ∨ kind = "forward" ∧ param step "merge" = some "union")
  started : sources ≠ [] ∨ ∃ step ∈ steps, scheduled step = true

theorem draftNode_unmarked {key : String} {ids ids' : List String} {node : Value} (h : draftNode key ids node = .ok ids') :
    node.get "origin" = none := by
  simp only [draftNode, bind_eq_ok, context_eq_ok, ensure_eq_ok] at h
  obtain ⟨id, -, -, -, -, hmark, -⟩ := h
  exact Option.isNone_iff_eq_none.mp hmark

theorem authored_of_executable {d : Value} (hexecutable : Accepts (validateExecutable d)) (hdefined : isDefinition d = true)
    (hkeyed : d.keyed = true) : ∃ sources steps, Authored d sources steps := by
  obtain ⟨u, h⟩ := hexecutable
  simp only [validateExecutable, bind_eq_ok, context_eq_ok, ensure_eq_ok] at h
  obtain ⟨_, hdraft, order, hstructure, sources, hsources, _, -, steps, hsteps, _, hstarted, hexecutable⟩ := h
  obtain ⟨sources', steps', hsources', hsteps', hw⟩ := validatePipelineStructure_accepts.mp ⟨order, hstructure⟩
  obtain rfl := Option.some.inj (hsources'.symm.trans hsources)
  obtain rfl := Option.some.inj (hsteps'.symm.trans hsteps)
  simp only [validateDraft, bind_eq_ok, context_eq_ok, ensure_eq_ok, decide_eq_true_eq] at hdraft
  obtain ⟨object, hobject, _, -, _, -, sources, hlist, steps, hlist', _, hbounded, _, -, ids, hids, ids', hids', -⟩ := hdraft
  obtain rfl := Value.asObject_eq_some.mp hobject
  obtain rfl := Option.some.inj (hlist.symm.trans hsources)
  obtain rfl := Option.some.inj (hlist'.symm.trans hsteps)
  refine ⟨sources, steps, ⟨hsources, hsteps, hdefined⟩, hkeyed, hbounded, hw, fun step hm => ?_,
    fun step hm id kind inputs hb => ?_, ?_⟩
  · obtain ⟨before, after, hnode⟩ := foldlM_eq_ok_mem hids' hm
    exact draftNode_unmarked hnode
  · have hstep := forM_eq_ok.mp hexecutable step hm
    simp only [executableStep, bind_eq_ok, context_eq_ok, ensure_eq_ok] at hstep
    obtain ⟨_, -, kind', hkind, inputs', hinputs, _, -, _, hcardinality, -⟩ := hstep
    obtain rfl := Option.some.inj (hkind.symm.trans hb.kind_eq)
    obtain rfl := Option.some.inj (hinputs.symm.trans hb.inputs_eq)
    split at hcardinality
    · next hscheduled => simpa [hscheduled] using hcardinality
    · next hscheduled =>
      rw [if_neg hscheduled]
      simpa using hcardinality
  · rw [Bool.or_eq_true, List.any_eq_true] at hstarted
    exact hstarted.imp (by simp) id

end Authored

structure OpensSource (source : Value) (node : GraphNode) : Prop where
  id_eq : source.getStr "id" = some node.id
  kind_eq : node.stepType = "source"
  copied : copyConfig (without ["id"] source) = .ok node.config

structure OpensStep (step : Value) (node : GraphNode) : Prop where
  id_eq : step.getStr "step" = some node.id
  kind_eq : step.getStr "type" = some node.stepType
  known : node.stepType ∈ storedKinds
  copied : copyConfig (stepConfig step) = .ok node.config

variable {capabilities : List CapabilityLabel} {editor : Option Value}

theorem hasTexts_iff {v : Value} {keys : List String} :
    hasTexts v keys = true ↔ ∀ key ∈ keys, ∃ text, v.getStr key = some text := by
  simp [hasTexts, Option.isSome_iff_exists]

theorem storedSource_opens {source : Value} {index : Nat} {node : GraphNode} (hsource : isSourceDefinition source = true)
    (h : storedSource capabilities editor source index = .ok node) : OpensSource source node := by
  simp only [storedSource, bind_eq_ok, pure_eq_ok] at h
  obtain ⟨copied, hcopied, title, -, rfl⟩ := h
  rw [isSourceDefinition, Bool.and_eq_true, hasTexts_iff] at hsource
  obtain ⟨id, hid⟩ := hsource.2 "id" (by simp)
  exact ⟨by rw [hid]; rfl, rfl, hcopied⟩

theorem storedSource_accepts {source : Value} {index : Nat} : Accepts (storedSource capabilities editor source index) ↔
    Accepts (copyConfig (without ["id"] source)) ∧
      Accepts (nodeTitle capabilities editor ((source.getStr "id").getD "") (without ["id"] source)) := by
  simp only [storedSource, accepts_bind]
  constructor
  · rintro ⟨copied, hcopied, title, htitle, -⟩
    exact ⟨⟨copied, hcopied⟩, title, htitle⟩
  · rintro ⟨⟨copied, hcopied⟩, title, htitle⟩
    exact ⟨copied, hcopied, title, htitle, accepts_ok _⟩

theorem storedStep_opens {step : Value} {index : Nat} {node : GraphNode} (hstep : isStepDefinition step = true)
    (h : storedStep capabilities editor step index = .ok node) : OpensStep step node := by
  simp only [storedStep, bind_eq_ok, ensure_eq_ok, pure_eq_ok] at h
  obtain ⟨_, hkind, title, -, copied, hcopied, rfl⟩ := h
  simp only [isStepDefinition, Bool.and_eq_true, hasTexts_iff] at hstep
  obtain ⟨⟨⟨⟨⟨-, htexts⟩, -⟩, -⟩, -⟩, -⟩ := hstep
  obtain ⟨id, hid⟩ := htexts "step" (by simp)
  obtain ⟨kind, hkind'⟩ := htexts "type" (by simp)
  refine ⟨by rw [hid]; rfl, by rw [hkind']; rfl, ?_, hcopied⟩
  simpa using hkind

theorem storedStep_accepts {step : Value} {index : Nat} : Accepts (storedStep capabilities editor step index) ↔
    (step.getStr "type").getD "" ∈ storedKinds ∧
      Accepts (nodeTitle capabilities editor ((step.getStr "step").getD "")
        (without ["step", "type", "input_from", "branches"] step)) ∧
      Accepts (copyConfig (stepConfig step)) := by
  simp only [storedStep, accepts_bind, ensure_eq_ok, List.contains_iff_mem]
  constructor
  · rintro ⟨_, hkind, title, htitle, copied, hcopied, -⟩
    exact ⟨hkind, ⟨title, htitle⟩, copied, hcopied⟩
  · rintro ⟨hkind, ⟨title, htitle⟩, copied, hcopied⟩
    exact ⟨(), hkind, title, htitle, copied, hcopied, accepts_ok _⟩

theorem place_eq_ok {node placed : GraphNode} (h : place editor node = .ok placed) :
    placed.id = node.id ∧ placed.stepType = node.stepType ∧ placed.config = node.config := by
  obtain ⟨saved, -, rfl⟩ := map_eq_ok.mp h
  exact ⟨rfl, rfl, rfl⟩

def Positioned (editor : Option Value) : Prop := ∀ e, nullish editor = some e → (nullish (e.get "positions")).isSome

theorem place_accepts {node : GraphNode} : Accepts (place editor node) ↔ Positioned editor := by
  have hmap : Accepts (place editor node) ↔ Accepts (savedPosition editor node.id) := by
    constructor
    · rintro ⟨placed, h⟩
      obtain ⟨saved, hsaved, -⟩ := map_eq_ok.mp h
      exact ⟨saved, hsaved⟩
    · rintro ⟨saved, hsaved⟩
      exact ⟨_, map_eq_ok.mpr ⟨saved, hsaved, rfl⟩⟩
  rw [hmap, savedPosition, Positioned]
  cases hnull : nullish editor with
  | none => exact iff_of_true (accepts_ok _) (by simp)
  | some e =>
      simp only [accepts_bind, context_eq_ok, Option.some.injEq, forall_eq', Option.isSome_iff_exists]
      constructor
      · rintro ⟨positions, h, -⟩
        exact ⟨positions, h⟩
      · rintro ⟨positions, h⟩
        refine ⟨positions, h, ?_⟩
        split
        · exact accepts_ok _
        · exact accepts_ok _

structure Opened (sources steps : List Value) (sourceNodes stepNodes : List GraphNode) (edges : List GraphEdge) : Prop where
  sourcesShown : List.Forall₂ OpensSource sources sourceNodes
  stepsShown : List.Forall₂ OpensStep steps stepNodes
  linked : ∃ links, steps.mapM (storedEdges steps) = .ok links ∧ edges = links.flatten

variable {d : Value} {sources steps : List Value}

theorem Defined.parts (h : Defined d sources steps) :
    (∀ source ∈ sources, isSourceDefinition source = true) ∧ ∀ step ∈ steps, isStepDefinition step = true := by
  have hdefined := h.defined
  simp only [isDefinition, h.listedSources, h.listedSteps, Option.any_some, Bool.and_eq_true, List.all_eq_true] at hdefined
  exact ⟨hdefined.1.2, hdefined.2⟩

theorem graph_opens (ha : Defined d sources steps) {g : StoredGraph} (h : graphFromDefinition capabilities d = .ok g) :
    ∃ sourceNodes stepNodes, g.nodes = sourceNodes ++ stepNodes ∧ Opened sources steps sourceNodes stepNodes g.edges := by
  obtain ⟨hsources, hsteps⟩ := ha.parts
  simp only [graphFromDefinition, parseDefinition, ha.defined, if_true, ok_bind, ha.listedSources, ha.listedSteps, Option.getD_some,
    bind_eq_ok, pure_eq_ok] at h
  obtain ⟨sourceNodes, hsourceNodes, stepNodes, hstepNodes, links, hlinks, _, -, placed, hplaced, rfl⟩ := h
  rw [List.mapM_append, bind_eq_ok] at hplaced
  obtain ⟨placedSources, hplacedSources, hplaced⟩ := hplaced
  rw [bind_eq_ok] at hplaced
  obtain ⟨placedSteps, hplacedSteps, hplaced⟩ := hplaced
  obtain rfl := pure_eq_ok.mp hplaced
  refine ⟨placedSources, placedSteps, rfl, ?_, ?_, links, hlinks, rfl⟩
  · have hstored : List.Forall₂ (fun source node =>
      ∃ index : Nat, storedSource capabilities (d.get "editor") source index = .ok node)
        sources sourceNodes := forall₂_zipIdx ((mapM_eq_ok.mp hsourceNodes).imp fun _ _ h => ⟨_, h⟩)
    refine forall₂_comp (fun source node placed hnode hplace => ?_) (List.forall₂_and_left _ _ |>.mpr ⟨hsources, hstored⟩)
      (mapM_eq_ok.mp hplacedSources)
    obtain ⟨hsource, index, hnode⟩ := hnode
    obtain ⟨hid, hkind, hconfig⟩ := place_eq_ok hplace
    have hopens := storedSource_opens hsource hnode
    exact ⟨by rw [hid, hopens.id_eq], by rw [hkind, hopens.kind_eq], by rw [hconfig, hopens.copied]⟩
  · have hstored : List.Forall₂ (fun step node => ∃ index : Nat, storedStep capabilities (d.get "editor") step index = .ok node)
        steps stepNodes := forall₂_zipIdx ((mapM_eq_ok.mp hstepNodes).imp fun _ _ h => ⟨_, h⟩)
    refine forall₂_comp (fun step node placed hnode hplace => ?_) (List.forall₂_and_left _ _ |>.mpr ⟨hsteps, hstored⟩)
      (mapM_eq_ok.mp hplacedSteps)
    obtain ⟨hstep, index, hnode⟩ := hnode
    obtain ⟨hid, hkind, hconfig⟩ := place_eq_ok hplace
    have hopens := storedStep_opens hstep hnode
    exact ⟨by rw [hid, hopens.id_eq], by rw [hkind, hopens.kind_eq],
      by rw [hkind]; exact hopens.known, by rw [hconfig, hopens.copied]⟩

section Links

open Registry.Pipeline

variable {d : Value} {sources steps : List Value}

def named (entry : String × Value) : List String := ((entry.2.asArray).getD []).filterMap Value.asStr

theorem named_list {entry : String × Value} {targets : List String} (h : entry.2 = .array (targets.map .string)) :
    named entry = targets := by
  rw [named, h]
  simp [Value.asArray, List.filterMap_map, Function.comp_def, Value.asStr]

theorem includes_list {entry : String × Value} {targets : List String} (h : entry.2 = .array (targets.map .string)) (id : String) :
    includes entry.2 id = .ok (decide (id ∈ named entry)) := by
  rw [named_list h, h, includes]
  simp [Value.asStr, List.any_eq]

theorem Authored.find_step (ha : Authored d sources steps) {step : Value} (hm : step ∈ steps) {id : String}
    (hid : step.getStr "step" = some id) : steps.find? (fun candidate => candidate.getStr "step" = some id) = some step := by
  obtain ⟨found, hfound⟩ : ∃ found, steps.find? (fun candidate => candidate.getStr "step" = some id) = some found :=
    Option.isSome_iff_exists.mp (List.find?_isSome.mpr ⟨step, hm, by simpa using hid⟩)
  have hfoundId : found.getStr "step" = some id := by simpa using List.find?_some hfound
  rw [hfound, ha.wellformed.step_unique (List.mem_of_find?_eq_some hfound) hm hfoundId hid]

theorem Authored.route (ha : Authored d sources steps) {step : Value} (hm : step ∈ steps) {id : String}
    (hid : step.getStr "step" = some id) (hroute : step.getStr "type" = some "route") :
      ∃ branches, Routes steps step id branches := by
  obtain ⟨id', kind, inputs, hb, -⟩ := ha.wellformed.blocks step hm
  obtain rfl := Option.some.inj (hid.symm.trans hb.id_eq)
  exact ((validateRoute_eq_ok hid hb.id_ne).mp (ha.wellformed.routes step hm)).2 hroute |>.2

def labelsFor (branches : Members) (id : String) : List String := (branches.filter fun entry => id ∈ named entry).map Prod.fst

theorem passedLabels_lists {steps : List Value} {source : String} {step : Value}
    (hfound : steps.find? (fun candidate => candidate.getStr "step" = some source) = some step)
    (hroute : step.getStr "type" = some "route") {branches : Members} (hlisted : step.get "branches" = some (.object branches))
    (hlists : ∀ entry ∈ branches, ∃ targets : List String, entry.2 = .array (targets.map .string)) (id : String) :
    passedLabels steps source id = .ok (if labelsFor branches id = [] then [none] else (labelsFor branches id).map some) := by
  have hentries : entries ((nullish (step.get "branches")).getD (.object [])) = branches := by
    rw [hlisted]
    rfl
  have hpassed : (branches.mapM fun entry => (includes entry.2 id).map fun passes => if passes then some entry.1 else none) =
      .ok (branches.map fun entry => if id ∈ named entry then some entry.1 else none) := by
    rw [mapM_eq_ok, List.forall₂_map_right_iff, List.forall₂_same]
    intro entry hentry
    obtain ⟨targets, htargets⟩ := hlists entry hentry
    rw [includes_list htargets]
    simp [Except.map]
  have hlabels : ((branches.map fun entry => if id ∈ named entry then some entry.1 else none).filterMap fun label => label) =
      labelsFor branches id := by
    rw [List.filterMap_map, labelsFor, ← List.filterMap_eq_map, List.filterMap_filter]
    refine List.filterMap_congr fun entry _ => ?_
    simp
  rw [passedLabels, hfound]
  simp only [if_pos hroute, hentries, hpassed, ok_bind, hlabels]
  rfl

theorem passedLabels_route (ha : Authored d sources steps) {step : Value} (hm : step ∈ steps) {source : String}
    (hsource : step.getStr "step" = some source) (hroute : step.getStr "type" = some "route") {branches : Members}
    (hroutes : Routes steps step source branches) (id : String) :
    passedLabels steps source id = .ok (if labelsFor branches id = [] then [none] else (labelsFor branches id).map some) :=
  passedLabels_lists (ha.find_step hm hsource) hroute hroutes.listed (fun entry hentry => by
    obtain ⟨targets, hbranch⟩ := hroutes.admissible entry hentry
    exact ⟨targets, hbranch.listed⟩) id

theorem passedLabels_plain {source : String}
    (hplain : ∀ step ∈ steps, step.getStr "step" = some source → step.getStr "type" ≠ some "route")
    (id : String) : passedLabels steps source id = .ok [none] := by
  rw [passedLabels]
  cases hfound : steps.find? (fun candidate => candidate.getStr "step" = some source) with
  | none => rfl
  | some parent =>
      have hparent : parent.getStr "step" = some source := by simpa using List.find?_some hfound
      simp only [if_neg (hplain parent (List.mem_of_find?_eq_some hfound) hparent)]

theorem Authored.branches_keyed (ha : Authored d sources steps) {step : Value} (hm : step ∈ steps) {branches : Members}
    (hlisted : step.get "branches" = some (.object branches)) : (Members.keys branches).Nodup := by
  have hstep := Value.keyed_of_mem (Value.keyed_get ha.keyed (Value.getArray_eq_some.mp ha.listedSteps)) hm
  exact Value.keyed_keys (Value.keyed_get hstep hlisted)

theorem Authored.passedLabels (ha : Authored d sources steps) (source id : String) :
    ∃ labels, passedLabels steps source id = .ok labels ∧ labels ≠ [] ∧ labels.Nodup := by
  by_cases hroute : ∃ step ∈ steps, step.getStr "step" = some source ∧ step.getStr "type" = some "route"
  · obtain ⟨step, hm, hsource, hroute⟩ := hroute
    obtain ⟨branches, hroutes⟩ := ha.route hm hsource hroute
    refine ⟨_, passedLabels_route ha hm hsource hroute hroutes id, ?_, ?_⟩
    · split
      · simp
      · next hne => simpa using hne
    · split
      · exact List.nodup_singleton none
      · have hkeys := ha.branches_keyed hm hroutes.listed
        exact ((List.filter_sublist.map Prod.fst).nodup hkeys).map (Option.some_injective _)
  · push Not at hroute
    exact ⟨[none], passedLabels_plain hroute id, by simp, List.nodup_singleton none⟩

def stepId (step : Value) : String := (step.getStr "step").getD ""

def inputNames (step : Value) : List String := ((step.getArray "input_from").getD []).filterMap Value.asStr

theorem inputNames_block {step : Value} {id kind : String} {inputs : List String} (hb : Block step id kind inputs) :
    inputNames step = inputs := by
  rw [inputNames, hb.inputs_eq]
  simp [List.filterMap_map, Function.comp_def, Value.asStr]

def labelsOf (steps : List Value) (source id : String) : List (Option String) :=
  match passedLabels steps source id with
  | .ok labels => labels
  | .error _ => []

def linksTo (steps : List Value) (id : String) (inputs : List String) : List GraphEdge :=
  inputs.flatMap fun source => (labelsOf steps source id).map fun label => ⟨source, id, label, none⟩

def links (steps : List Value) : List GraphEdge := steps.flatMap fun step => linksTo steps (stepId step) (inputNames step)

def Passes (steps : List Value) : Prop :=
  ∀ source id, ∃ labels, passedLabels steps source id = .ok labels ∧ labels ≠ [] ∧ labels.Nodup

theorem Authored.passes (ha : Authored d sources steps) : Passes steps := ha.passedLabels

theorem Passes.labelsOf_eq (hp : Passes steps) (source id : String) :
    passedLabels steps source id = .ok (labelsOf steps source id) := by
  obtain ⟨labels, hlabels, -⟩ := hp source id
  rw [labelsOf, hlabels]

theorem Passes.labelsOf_ne_nil (hp : Passes steps) (source id : String) : labelsOf steps source id ≠ [] := by
  obtain ⟨labels, hlabels, hne, -⟩ := hp source id
  rw [labelsOf, hlabels]
  exact hne

theorem Passes.labelsOf_nodup (hp : Passes steps) (source id : String) : (labelsOf steps source id).Nodup := by
  obtain ⟨labels, hlabels, -, hnodup⟩ := hp source id
  rw [labelsOf, hlabels]
  exact hnodup

theorem storedEdges_eq (hp : Passes steps) (step : Value) :
    storedEdges steps step = .ok (linksTo steps (stepId step) (inputNames step)) := by
  have hmap : ((inputNames step).mapM fun source => (passedLabels steps source (stepId step)).map fun labels =>
      labels.map fun label => (⟨source, stepId step, label, none⟩ : GraphEdge)) =
        .ok ((inputNames step).map fun source => (labelsOf steps source (stepId step)).map fun label =>
          ⟨source, stepId step, label, none⟩) := by
    rw [mapM_eq_ok, List.forall₂_map_right_iff, List.forall₂_same]
    intro source _
    rw [hp.labelsOf_eq]
    rfl
  rw [storedEdges]
  change ((inputNames step).mapM fun source => (passedLabels steps source (stepId step)).map fun labels =>
      labels.map fun label => (⟨source, stepId step, label, none⟩ : GraphEdge)) >>= _ = _
  rw [hmap, ok_bind, linksTo, List.flatMap_def]
  rfl

theorem mapM_storedEdges (hp : Passes steps) :
    ∃ found, steps.mapM (storedEdges steps) = .ok found ∧ found.flatten = links steps := by
  refine ⟨steps.map fun step => linksTo steps (stepId step) (inputNames step), ?_, ?_⟩
  · rw [mapM_eq_ok, List.forall₂_map_right_iff, List.forall₂_same]
    intro step _
    exact storedEdges_eq hp step
  · rw [links, List.flatMap_def]

theorem mem_links {e : GraphEdge} : e ∈ links steps ↔ ∃ step ∈ steps, e.target = stepId step ∧ e.source ∈ inputNames step ∧
    e.sourceHandle ∈ labelsOf steps e.source e.target ∧ e.targetHandle = none := by
  rw [links, List.mem_flatMap]
  refine exists_congr fun step => and_congr_right fun _ => ?_
  rw [linksTo, List.mem_flatMap]
  constructor
  · rintro ⟨source, hsource, hmem⟩
    obtain ⟨label, hlabel, rfl⟩ := List.mem_map.mp hmem
    exact ⟨rfl, hsource, hlabel, rfl⟩
  · obtain ⟨source, target, handle, targetHandle⟩ := e
    rintro ⟨rfl, hsource, hlabel, rfl⟩
    exact ⟨source, hsource, List.mem_map.mpr ⟨handle, hlabel, rfl⟩⟩

theorem Authored.stepIds_nodup (ha : Authored d sources steps) : (steps.map stepId).Nodup := by
  have hids : stepIds steps = steps.map stepId := by
    rw [stepIds, ← List.filterMap_eq_map]
    refine List.filterMap_congr fun step hm => ?_
    obtain ⟨id, kind, inputs, hb, -⟩ := ha.wellformed.blocks step hm
    rw [Function.comp_apply, stepId, hb.id_eq]
    rfl
  rw [← hids]
  exact (List.nodup_append.mp ha.wellformed.distinct).2.1

/-- No link is drawn twice just when no step names an input twice. -/
theorem Passes.links_nodup (hp : Passes steps) (hids : (steps.map stepId).Nodup) :
    (links steps).Nodup ↔ ∀ step ∈ steps, (inputNames step).Nodup := by
  have hto : ∀ id inputs, (linksTo steps id inputs).Nodup ↔ inputs.Nodup := by
    intro id inputs
    rw [linksTo, List.nodup_flatMap]
    constructor
    · rintro ⟨-, hdisjoint⟩
      refine hdisjoint.imp fun {a b} hab => ?_
      rintro rfl
      obtain ⟨label, hlabel⟩ := List.exists_mem_of_ne_nil _ (hp.labelsOf_ne_nil a id)
      have hmem : (⟨a, id, label, none⟩ : GraphEdge) ∈ (labelsOf steps a id).map fun label => (⟨a, id, label, none⟩ : GraphEdge) :=
        List.mem_map.mpr ⟨label, hlabel, rfl⟩
      exact hab hmem hmem
    · intro hnodup
      refine ⟨fun source _ => (hp.labelsOf_nodup source id).map fun a b heq => congrArg GraphEdge.sourceHandle heq, ?_⟩
      refine hnodup.imp fun {a b} hab e hea heb => hab ?_
      obtain ⟨label, -, rfl⟩ := List.mem_map.mp hea
      obtain ⟨label', -, heq⟩ := List.mem_map.mp heb
      exact (congrArg GraphEdge.source heq).symm
  rw [links, List.nodup_flatMap]
  constructor
  · rintro ⟨hall, -⟩ step hm
    exact (hto _ _).mp (hall step hm)
  · intro hall
    refine ⟨fun step hm => (hto _ _).mpr (hall step hm), ?_⟩
    refine (List.pairwise_map.mp hids).imp fun {a b} hab e hea heb => hab ?_
    obtain ⟨source, -, hmem⟩ := List.mem_flatMap.mp hea
    obtain ⟨label, -, rfl⟩ := List.mem_map.mp hmem
    obtain ⟨source', -, hmem'⟩ := List.mem_flatMap.mp heb
    obtain ⟨label', -, heq⟩ := List.mem_map.mp hmem'
    exact (congrArg GraphEdge.target heq).symm

end Links

section Openable

open Registry.Pipeline

variable {d : Value} {sources steps : List Value}

/-- A block has a saved title, or a capability whose name can be written. -/
def Captioned (editor : Option Value) (block : Value) (id : String) : Prop :=
  (nullish ((nullish ((nullish editor).bind fun e => e.get "labels")).bind fun labels => labels.get id)).isSome ∨
    ∀ capability, block.get "capability_id" = some capability → truthy capability = true →
      Accepts (textOf capability) ∧ Accepts (textOf ((nullish (block.get "capability_version")).getD (.string "")))

theorem capabilityTitle_accepts {capabilities : List CapabilityLabel} {config : Members} :
    Accepts (capabilityTitle capabilities config) ↔
    ∀ capability, Members.field config "capability_id" = some capability → truthy capability = true →
      Accepts (textOf capability) ∧ Accepts (textOf ((nullish (Members.field config "capability_version")).getD (.string ""))) := by
  rw [capabilityTitle]
  cases hcapability : (Members.field config "capability_id").filter truthy with
  | none =>
      refine iff_of_true (accepts_ok _) fun capability hfield htruthy => ?_
      rw [hfield, Option.filter_some, if_pos htruthy] at hcapability
      cases hcapability
  | some capability =>
      obtain ⟨hfield, htruthy⟩ := Option.filter_eq_some_iff.mp hcapability
      simp only [accepts_bind]
      constructor
      · rintro ⟨id, hid, version, hversion, -⟩ capability' hfield' -
        obtain rfl := Option.some.inj (hfield.symm.trans hfield')
        exact ⟨⟨id, hid⟩, version, hversion⟩
      · intro h
        obtain ⟨⟨id, hid⟩, version, hversion⟩ := h capability hfield htruthy
        exact ⟨id, hid, version, hversion, accepts_ok _⟩

theorem nodeTitle_accepts {capabilities : List CapabilityLabel} {editor : Option Value} {block : Value}
    (hblock : block.isObject = true)
    {keys : List String} (hkeys : "capability_id" ∉ keys ∧ "capability_version" ∉ keys) {id : String} :
    Accepts (nodeTitle capabilities editor id (without keys block)) ↔ Captioned editor block id := by
  rw [nodeTitle, Captioned]
  cases hsaved : nullish ((nullish ((nullish editor).bind fun e => e.get "labels")).bind fun labels => labels.get id) with
  | some label => exact iff_of_true (accepts_ok _) (.inl rfl)
  | none =>
      simp only [Option.isSome_none, Bool.false_eq_true, false_or]
      rw [capabilityTitle_accepts, field_without hblock hkeys.1, field_without hblock hkeys.2]

theorem keyed_entries {v : Value} (hkeyed : v.keyed = true) (hv : v.isObject = true) : (Members.keys (entries v)).Nodup := by
  cases v with
  | object m => exact Value.keyed_keys hkeyed
  | null | bool | number | string | array => cases hv

theorem keys_without_nodup {v : Value} (hkeys : (Members.keys (entries v)).Nodup) (keys : List String) :
    (Members.keys (without keys v)).Nodup := (List.filter_sublist.map Prod.fst).nodup hkeys

/-- A configuration without repeated keys is copied if its lists can be spread. -/
theorem copyConfig_accepts_fields {config : Members} (hnodup : (Members.keys config).Nodup) : Accepts (copyConfig config) ↔
    ∀ key ∈ ["branch_labels", "content_types"], ∀ v, Members.field config key = some v → Spreadable v := by
  rw [copyConfig_accepts]
  constructor
  · intro h key hkey v hfield
    exact copyField_accepts.mp (h _ (Members.mem_of_field hfield)) (by simpa using hkey)
  · rintro h ⟨key, v⟩ hentry
    exact copyField_accepts.mpr fun hkey => h key (by simpa using hkey) v (Members.field_of_mem hnodup hentry)

/-- What it takes to open a definition that both sides accept. -/
structure Openable (d : Value) (sources steps : List Value) : Prop where
  positioned : Positioned (d.get "editor")
  captioned : ∀ source ∈ sources, ∀ id, source.getStr "id" = some id → Captioned (d.get "editor") source id
  sourceLists : ∀ source ∈ sources, ∀ key ∈ ["branch_labels", "content_types"], ∀ v, source.get key = some v → Spreadable v
  stepTypes : ∀ step ∈ steps, ∀ v, step.get "content_types" = some v → Spreadable v
  stepLabels : ∀ step ∈ steps, (step.get "branches").filter truthy = none → ∀ v, step.get "branch_labels" = some v → Spreadable v

theorem Authored.source_keyed (ha : Authored d sources steps) {source : Value} (hm : source ∈ sources) : source.keyed = true :=
  Value.keyed_of_mem (Value.keyed_get ha.keyed (Value.getArray_eq_some.mp ha.listedSources)) hm

theorem Authored.step_keyed (ha : Authored d sources steps) {step : Value} (hm : step ∈ steps) : step.keyed = true :=
  Value.keyed_of_mem (Value.keyed_get ha.keyed (Value.getArray_eq_some.mp ha.listedSteps)) hm

theorem field_stepConfig {step : Value} (hstep : step.isObject = true) {key : String}
    (hkey : key ∉ ["step", "type", "input_from", "branches", "branch_labels"]) :
      Members.field (stepConfig step) key = step.get key := by
  have hkept : key ∉ ["step", "type", "input_from", "branches"] := fun hmem => hkey (by
    simp only [List.mem_cons, List.not_mem_nil, or_false] at hmem ⊢
    tauto)
  have hlabels : key ≠ "branch_labels" := by
    rintro rfl
    exact hkey (by simp)
  rw [stepConfig]
  split
  · exact field_without hstep hkept
  · rw [Members.field_insert, if_neg hlabels.symm]
    exact field_without hstep hkept

theorem field_stepConfig_labels {step : Value} (hstep : step.isObject = true) : Members.field (stepConfig step) "branch_labels" =
    match (step.get "branches").filter truthy with
    | none => step.get "branch_labels"
    | some branches => some (.array ((entries branches).map fun entry => .string entry.1)) := by
  rw [stepConfig]
  cases (step.get "branches").filter truthy with
  | none => exact field_without hstep (by simp)
  | some branches => simp only [Members.field_insert, if_true]

theorem nullish_eq_some {v : Option Value} {w : Value} : nullish v = some w ↔ v = some w ∧ w ≠ .null := by
  rw [nullish, Option.filter_eq_some_iff]
  refine and_congr_right fun _ => ?_
  cases w <;> simp [Value.isNull]

structure StepShape (step : Value) : Prop where
  object : step.isObject = true
  params : ∀ params, step.get "params" = some params → ∃ m, params = .object m
  reference : ∀ reference, step.get "pipeline_ref" = some reference → reference = .null ∨ ∃ m, reference = .object m
  texts : ∀ key ∈ ["model", "capability_id", "capability_version", "artifact_path"], ∀ v, step.get key = some v →
    v = .null ∨ ∃ text, v = .string text

theorem stepShape {step : Value} (h : isStepDefinition step = true) : StepShape step := by
  simp only [isStepDefinition, Bool.and_eq_true, Option.all_eq_true, List.all_eq_true] at h
  obtain ⟨⟨⟨⟨⟨hobject, -⟩, -⟩, hparams⟩, hreference⟩, htexts⟩ := h
  refine ⟨hobject, fun params hget => ?_, fun reference hget => ?_, fun key hkey v hget => ?_⟩
  · exact Option.isSome_iff_exists.mp (hparams params hget).1 |>.imp fun m hm => Value.asObject_eq_some.mp hm
  · by_cases hnull : reference = .null
    · exact .inl hnull
    · have hrecord := (hreference reference (nullish_eq_some.mpr ⟨hget, hnull⟩)).1
      exact .inr (Option.isSome_iff_exists.mp hrecord |>.imp fun m hm => Value.asObject_eq_some.mp hm)
  · by_cases hnull : v = .null
    · exact .inl hnull
    · have htext := htexts key hkey v (nullish_eq_some.mpr ⟨hget, hnull⟩)
      exact .inr (Option.isSome_iff_exists.mp htext |>.imp fun m hm => Value.asStr_eq_some.mp hm)

theorem StepShape.captioned {step : Value} (h : StepShape step) (editor : Option Value) (id : String) :
    Captioned editor step id := by
  refine .inr fun capability hcapability htruthy => ⟨?_, ?_⟩
  · rcases h.texts "capability_id" (by simp) capability hcapability with rfl | ⟨text, rfl⟩
    · cases htruthy
    · exact accepts_ok text
  · cases hversion : nullish (step.get "capability_version") with
    | none => exact accepts_ok ""
    | some version =>
        obtain ⟨hget, hne⟩ := nullish_eq_some.mp hversion
        rcases h.texts "capability_version" (by simp) version hget with rfl | ⟨text, rfl⟩
        · exact absurd rfl hne
        · exact accepts_ok text

theorem stepConfig_accepts {step : Value} (hobject : step.isObject = true) (hkeys : (Members.keys (entries step)).Nodup) :
    Accepts (copyConfig (stepConfig step)) ↔
      (∀ v, step.get "content_types" = some v → Spreadable v) ∧
        ((step.get "branches").filter truthy = none → ∀ v, step.get "branch_labels" = some v → Spreadable v) := by
  have hnodup : (Members.keys (stepConfig step)).Nodup := by
    have hwithout := keys_without_nodup hkeys ["step", "type", "input_from", "branches"]
    rw [stepConfig]
    split
    · exact hwithout
    · exact Members.nodup_insert hwithout _ _
  have htypes := @field_stepConfig step hobject "content_types" (by simp)
  rw [copyConfig_accepts_fields hnodup, List.forall_mem_cons, List.forall_mem_singleton, htypes, field_stepConfig_labels hobject,
    and_comm]
  refine and_congr_right fun _ => ?_
  cases (step.get "branches").filter truthy with
  | none => simp
  | some branches =>
      refine iff_of_true (fun v hv _ => ?_) (fun hnone => by cases hnone)
      exact .inl ⟨_, (Option.some.inj hv).symm⟩

theorem opens_ids {sourceNodes stepNodes : List GraphNode} (hsources : List.Forall₂ OpensSource sources sourceNodes)
    (hsteps : List.Forall₂ OpensStep steps stepNodes) : (sourceNodes ++ stepNodes).map GraphNode.id = nodeIds sources steps := by
  rw [List.map_append, nodeIds, sourceIds, stepIds]
  congr 1
  · induction hsources with
    | nil => rfl
    | cons hopens _ ih => rw [List.map_cons, @List.filterMap_cons_some _ _ (fun v : Value => v.getStr "id") _ _ _ hopens.id_eq, ih]
  · induction hsteps with
    | nil => rfl
    | cons hopens _ ih => rw [List.map_cons, @List.filterMap_cons_some _ _ (fun v : Value => v.getStr "step") _ _ _
        hopens.id_eq, ih]

theorem zipIdx_accepts {β γ : Type} {f : β → Nat → Except String γ} {p : β → Prop} {xs : List β}
    (h : ∀ x ∈ xs, ∀ index, Accepts (f x index) ↔ p x) :
    Accepts (xs.zipIdx.mapM fun entry => f entry.1 entry.2) ↔ ∀ x ∈ xs, p x := by
  rw [accepts_mapM]
  constructor
  · intro hall x hx
    rw [← List.zipIdx_map_fst 0 xs] at hx
    obtain ⟨entry, hentry, rfl⟩ := List.mem_map.mp hx
    have hmem : entry.1 ∈ xs := by
      rw [← List.zipIdx_map_fst 0 xs]
      exact List.mem_map.mpr ⟨entry, hentry, rfl⟩
    exact (h _ hmem _).mp (hall entry hentry)
  · intro hall entry hentry
    have hmem : entry.1 ∈ xs := by
      rw [← List.zipIdx_map_fst 0 xs]
      exact List.mem_map.mpr ⟨entry, hentry, rfl⟩
    exact (h _ hmem _).mpr (hall _ hmem)

theorem Defined.graph_accepts (hd : Defined d sources steps) (capabilities : List CapabilityLabel) :
    Accepts (graphFromDefinition capabilities d) ↔
      (∀ source ∈ sources, Accepts (storedSource capabilities (d.get "editor") source 0)) ∧
      (∀ step ∈ steps, Accepts (storedStep capabilities (d.get "editor") step 0)) ∧
      Accepts (steps.mapM (storedEdges steps)) ∧ (nodeIds sources steps).Nodup ∧
      ((∃ block, block ∈ sources ++ steps) → Positioned (d.get "editor")) := by
  obtain ⟨hsources, hsteps⟩ := hd.parts
  have hsourcesAccept := @zipIdx_accepts _ _ (storedSource capabilities (d.get "editor")) (fun source =>
    Accepts (storedSource capabilities (d.get "editor") source 0)) sources fun source _ index => by
      rw [storedSource_accepts, storedSource_accepts]
  have hstepsAccept := @zipIdx_accepts _ _ (storedStep capabilities (d.get "editor")) (fun step =>
    Accepts (storedStep capabilities (d.get "editor") step 0)) steps fun step _ index => by
      rw [storedStep_accepts, storedStep_accepts]
  rw [← hsourcesAccept, ← hstepsAccept]
  simp only [graphFromDefinition, parseDefinition, hd.defined, if_true, ok_bind, hd.listedSources, hd.listedSteps, Option.getD_some,
    accepts_bind, ensure_eq_ok, decide_eq_true_eq]
  have hids : ∀ sourceNodes stepNodes,
      (sources.zipIdx.mapM fun entry => storedSource capabilities (d.get "editor") entry.1 entry.2) = .ok sourceNodes →
      (steps.zipIdx.mapM fun entry => storedStep capabilities (d.get "editor") entry.1 entry.2) = .ok stepNodes →
      (sourceNodes ++ stepNodes).map GraphNode.id = nodeIds sources steps := by
    intro sourceNodes stepNodes hsourceNodes hstepNodes
    have hstoredSources : List.Forall₂
      (fun source node => ∃ index : Nat, storedSource capabilities (d.get "editor") source index = .ok node)
      sources sourceNodes := forall₂_zipIdx ((mapM_eq_ok.mp hsourceNodes).imp fun _ _ h => ⟨_, h⟩)
    have hstoredSteps : List.Forall₂
      (fun step node => ∃ index : Nat, storedStep capabilities (d.get "editor") step index = .ok node)
      steps stepNodes := forall₂_zipIdx ((mapM_eq_ok.mp hstepNodes).imp fun _ _ h => ⟨_, h⟩)
    refine opens_ids (((List.forall₂_and_left _ _).mpr ⟨hsources, hstoredSources⟩).imp ?_)
      (((List.forall₂_and_left _ _).mpr ⟨hsteps, hstoredSteps⟩).imp ?_)
    · rintro source node ⟨hsource, index, hnode⟩
      exact storedSource_opens hsource hnode
    · rintro step node ⟨hstep, index, hnode⟩
      exact storedStep_opens hstep hnode
  constructor
  · rintro ⟨sourceNodes, hsourceNodes, stepNodes, hstepNodes, found, hfound, _, hnodup, placed, hplaced, -⟩
    refine ⟨⟨sourceNodes, hsourceNodes⟩, ⟨stepNodes, hstepNodes⟩, ⟨found, hfound⟩, ?_, ?_⟩
    · rwa [← hids sourceNodes stepNodes hsourceNodes hstepNodes]
    · rintro ⟨block, hblock⟩
      have hlength := (mapM_eq_ok.mp hsourceNodes).length_eq
      have hlength' := (mapM_eq_ok.mp hstepNodes).length_eq
      rw [List.length_zipIdx] at hlength hlength'
      obtain ⟨node, hnode⟩ : ∃ node, node ∈ sourceNodes ++ stepNodes := by
        refine List.exists_mem_of_length_pos ?_
        rw [List.length_append, ← hlength, ← hlength', ← List.length_append]
        exact List.length_pos_of_mem hblock
      exact place_accepts.mp (accepts_mapM.mp ⟨placed, hplaced⟩ node hnode)
  · rintro ⟨⟨sourceNodes, hsourceNodes⟩, ⟨stepNodes, hstepNodes⟩, ⟨found, hfound⟩, hnodup, hpositioned⟩
    refine ⟨sourceNodes, hsourceNodes, stepNodes, hstepNodes, found, hfound, (), ?_, ?_⟩
    · rwa [hids sourceNodes stepNodes hsourceNodes hstepNodes]
    · have hlength := (mapM_eq_ok.mp hsourceNodes).length_eq
      have hlength' := (mapM_eq_ok.mp hstepNodes).length_eq
      rw [List.length_zipIdx] at hlength hlength'
      obtain ⟨placed, hplaced⟩ := accepts_mapM.mpr fun node (hnode : node ∈ sourceNodes ++ stepNodes) =>
        place_accepts.mpr (hpositioned (by
        refine List.exists_mem_of_length_pos ?_
        rw [List.length_append, hlength, hlength', ← List.length_append]
        exact List.length_pos_of_mem hnode))
      exact ⟨placed, hplaced, accepts_ok _⟩

/-- A definition that both sides accept is opened just if it is openable. -/
theorem graph_accepts (ha : Authored d sources steps) (capabilities : List CapabilityLabel) :
    Accepts (graphFromDefinition capabilities d) ↔ Openable d sources steps := by
  obtain ⟨hsources, hsteps⟩ := ha.parts
  have hsourceAccepts : ∀ source ∈ sources, Accepts (storedSource capabilities (d.get "editor") source 0) ↔
      (∀ key ∈ ["branch_labels", "content_types"], ∀ v, source.get key = some v → Spreadable v) ∧
        ∀ id, source.getStr "id" = some id → Captioned (d.get "editor") source id := by
    intro source hm
    have h := hsources source hm
    rw [isSourceDefinition, Bool.and_eq_true, hasTexts_iff] at h
    obtain ⟨id, hid⟩ := h.2 "id" (by simp)
    rw [storedSource_accepts, copyConfig_accepts_fields (keys_without_nodup (keyed_entries (ha.source_keyed hm) h.1) _),
      nodeTitle_accepts h.1 (by simp), hid]
    refine and_congr (forall₂_congr fun key hkey => ?_) ?_
    · rw [field_without h.1]
      intro hmem
      obtain rfl := List.mem_singleton.mp hmem
      simp at hkey
    · simp
  have hstepAccepts : ∀ step ∈ steps, Accepts (storedStep capabilities (d.get "editor") step 0) ↔
      (∀ v, step.get "content_types" = some v → Spreadable v) ∧
        ((step.get "branches").filter truthy = none → ∀ v, step.get "branch_labels" = some v → Spreadable v) := by
    intro step hm
    obtain ⟨id, kind, inputs, hb, hissues⟩ := ha.wellformed.blocks step hm
    have hshape := stepShape (hsteps step hm)
    have hkinds : ∀ kind ∈ stepTypes, kind ∈ storedKinds := by decide
    have hknown : (some kind).getD "" ∈ storedKinds := hkinds kind (stepIssues_eq_nil.mp hissues).1
    rw [storedStep_accepts, nodeTitle_accepts hshape.object (by simp),
      stepConfig_accepts hshape.object (keyed_entries (ha.step_keyed hm) hshape.object), hb.kind_eq,
        and_iff_right hknown, and_iff_right (hshape.captioned _ _)]
  have hlinks : Accepts (steps.mapM (storedEdges steps)) := by
    obtain ⟨found, hfound, -⟩ := mapM_storedEdges ha.passes
    exact ⟨found, hfound⟩
  rw [ha.toDefined.graph_accepts, and_iff_right hlinks, and_iff_right ha.wellformed.distinct]
  have hsome : ∃ block, block ∈ sources ++ steps := by
    rcases ha.started with hne | ⟨step, hm, -⟩
    · obtain ⟨source, hm⟩ := List.exists_mem_of_ne_nil _ hne
      exact ⟨source, List.mem_append_left _ hm⟩
    · exact ⟨step, List.mem_append_right _ hm⟩
  constructor
  · rintro ⟨hopenSources, hopenSteps, hpositioned⟩
    exact ⟨hpositioned hsome, fun source hm => ((hsourceAccepts source hm).mp (hopenSources source hm)).2,
      fun source hm => ((hsourceAccepts source hm).mp (hopenSources source hm)).1,
      fun step hm => ((hstepAccepts step hm).mp (hopenSteps step hm)).1, fun step hm =>
        ((hstepAccepts step hm).mp (hopenSteps step hm)).2⟩
  · intro h
    exact ⟨fun source hm => (hsourceAccepts source hm).mpr ⟨h.sourceLists source hm, h.captioned source hm⟩,
      fun step hm => (hstepAccepts step hm).mpr ⟨h.stepTypes step hm, h.stepLabels step hm⟩, fun _ => h.positioned⟩

end Openable

end Galadril.Dashboard
