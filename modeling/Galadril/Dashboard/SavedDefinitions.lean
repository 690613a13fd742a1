import Galadril.Dashboard.Connections
import Galadril.Dashboard.OpenedDefinitions

namespace Galadril.Dashboard

open Json Lib Lib.Checked Lib.Mapping

section Blocks

open Registry.Pipeline

variable {d : Value} {sources steps : List Value} {sourceNodes stepNodes : List GraphNode} {edges : List GraphEdge}

theorem OpensStep.field {step : Value} {node : GraphNode} (h : OpensStep step node) (hshape : StepShape step) {key : String}
    (hkey : key ∉ ["step", "type", "input_from", "branches", "branch_labels", "content_types"]) :
    Members.field node.config key = step.get key := by
  have hconfig : Members.field (stepConfig step) key = step.get key := by
    refine field_stepConfig hshape.object fun hmem => hkey ?_
    simp only [List.mem_cons, List.not_mem_nil, or_false] at hmem ⊢
    tauto
  rw [field_copyConfig_same h.copied, hconfig]
  intro v hv w hw
  rw [hconfig] at hv
  have hsame : copyField key v = .ok v := by
    by_cases hparams : key = "params"
    · subst hparams
      obtain ⟨m, rfl⟩ := hshape.params v hv
      exact copyField_record (.inl rfl) m
    by_cases hreference : key = "pipeline_ref"
    · subst hreference
      rcases hshape.reference v hv with rfl | ⟨m, rfl⟩
      · exact copyField_falsy rfl
      · exact copyField_record (.inr rfl) m
    refine copyField_plain (fun hmem => ?_) v
    simp only [List.mem_cons, List.not_mem_nil, or_false, not_or] at hmem hkey
    tauto
  exact Except.ok.inj (hw.symm.trans hsame)

theorem branchLabels_list {config : Members} {labels : List String}
    (h : Members.field config "branch_labels" = some (.array (labels.map .string))) : branchLabels config = .ok labels := by
  have hnull : nullish (Members.field config "branch_labels") = some (.array (labels.map .string)) := by
    rw [h]
    rfl
  rw [branchLabels, hnull]
  simp [List.filterMap_map, Function.comp_def, Value.asStr]

theorem OpensStep.labels {step : Value} {node : GraphNode} (h : OpensStep step node) (hshape : StepShape step) {branches : Members}
    (hlisted : step.get "branches" = some (.object branches)) :
    Members.field node.config "branch_labels" = some (.array ((Members.keys branches).map .string)) := by
  have hfilter : (step.get "branches").filter truthy = some (.object branches) := by
    rw [hlisted]
    rfl
  have hconfig := field_stepConfig_labels hshape.object
  simp only [hfilter, entries] at hconfig
  rw [field_copyConfig_same h.copied, hconfig, Members.keys, List.map_map]
  · rfl
  · intro v hv w hw
    obtain rfl := Option.some.inj (hconfig.symm.trans hv)
    rw [copyField_list (.inl rfl) rfl] at hw
    exact (Except.ok.inj hw).symm

theorem OpensStep.branchLabels {step : Value} {node : GraphNode} (h : OpensStep step node) (hshape : StepShape step)
    {branches : Members}
    (hlisted : step.get "branches" = some (.object branches)) : branchLabels node.config = .ok (Members.keys branches) :=
  branchLabels_list (h.labels hshape hlisted)

theorem OpensSource.field {source : Value} {node : GraphNode} (h : OpensSource source node) (hobject : source.isObject = true)
    {key : String} (hkey : key ∉ ["id", "params", "pipeline_ref", "branch_labels", "content_types"]) :
    Members.field node.config key = source.get key := by
  have hconfig : Members.field (without ["id"] source) key = source.get key := by
    refine field_without hobject fun hmem => hkey ?_
    obtain rfl := List.mem_singleton.mp hmem
    simp
  rw [field_copyConfig_same h.copied, hconfig]
  intro v _ w hw
  refine Except.ok.inj (hw.symm.trans (copyField_plain (fun hmem => ?_) v))
  simp only [List.mem_cons, List.not_mem_nil, or_false, not_or] at hmem hkey
  tauto

def ListOrFalsy (v : Option Value) : Prop := ∀ w, v = some w → truthy w = false ∨ ∃ items, w = .array items

theorem OpensSource.types {source : Value} {node : GraphNode} (h : OpensSource source node) (hobject : source.isObject = true) :
    Members.field node.config "content_types" = source.get "content_types" ↔ ListOrFalsy (source.get "content_types") := by
  have hconfig : Members.field (without ["id"] source) "content_types" = source.get "content_types" :=
    field_without hobject (by simp)
  rcases field_copyConfig h.copied "content_types" with ⟨hnone, hnone'⟩ | ⟨v, w, hv, hw, hcopied⟩
  · rw [hconfig] at hnone
    rw [hnone, hnone']
    exact iff_of_true rfl fun w hw => by cases hw
  · rw [hconfig] at hv
    rw [hcopied, hv]
    constructor
    · rintro heq w' hw'
      obtain rfl := Option.some.inj heq
      obtain rfl := Option.some.inj hw'
      by_cases htruthy : truthy w = true
      · rw [copyField_list (.inr rfl) htruthy] at hw
        obtain ⟨items, -, hitems⟩ := map_eq_ok.mp hw
        exact .inr ⟨items, hitems.symm⟩
      · exact .inl (by simpa using htruthy)
    · intro hlist
      rcases hlist v rfl with hfalsy | ⟨items, rfl⟩
      · rw [copyField_falsy hfalsy] at hw
        rw [Except.ok.inj hw]
      · rw [copyField_list (.inr rfl) rfl] at hw
        rw [← Except.ok.inj hw]

theorem OpensStep.configParam {step : Value} {node : GraphNode} (h : OpensStep step node) (hshape : StepShape step)
    (name : String) :
    configParam node.config name = step.pointer "params" name := by
  have hparams := @OpensStep.field step node h hshape "params" (by simp)
  rw [Dashboard.configParam, hparams, Value.pointer]
  cases hget : step.get "params" with
  | none => rfl
  | some params =>
      obtain ⟨m, rfl⟩ := hshape.params params hget
      rfl

theorem OpensStep.isScheduled {step : Value} {node : GraphNode} (h : OpensStep step node) (hshape : StepShape step) :
    isScheduled node.config = scheduled step := by
  rw [Dashboard.isScheduled, h.configParam hshape, scheduled, Bool.eq_iff_iff]
  cases hget : step.pointer "params" "trigger" with
  | none => exact .rfl
  | some trigger => cases trigger <;> simp [Value.asStr]

theorem OpensStep.mergesUnion {step : Value} {node : GraphNode} (h : OpensStep step node) (hshape : StepShape step) {kind : String}
    (hkind : step.getStr "type" = some kind) : mergesUnion node = true ↔ kind = "forward" ∧ param step "merge" = some "union" := by
  have hkind' := Option.some.inj (hkind.symm.trans h.kind_eq)
  rw [Dashboard.mergesUnion, h.configParam hshape, param, hkind']
  cases hget : step.pointer "params" "merge" with
  | none => simp
  | some merge => cases merge <;> simp [Value.asStr]

end Blocks

section Graph

open Registry.Pipeline

variable {d : Value} {sources steps : List Value} {sourceNodes stepNodes : List GraphNode} {edges : List GraphEdge}

theorem Opened.edges_eq (ho : Opened sources steps sourceNodes stepNodes edges) (hp : Passes steps) : edges = links steps := by
  obtain ⟨found, hfound, rfl⟩ := ho.linked
  obtain ⟨found', hfound', hflat⟩ := mapM_storedEdges hp
  rw [← hflat, Except.ok.inj (hfound.symm.trans hfound')]

theorem Opened.ids (ho : Opened sources steps sourceNodes stepNodes edges) :
    (sourceNodes ++ stepNodes).map GraphNode.id = nodeIds sources steps := opens_ids ho.sourcesShown ho.stepsShown

theorem Opened.step_shown (ho : Opened sources steps sourceNodes stepNodes edges) {node : GraphNode} (hm : node ∈ stepNodes) :
    ∃ step ∈ steps, OpensStep step node := forall₂_mem_right ho.stepsShown hm

theorem Opened.source_shown (ho : Opened sources steps sourceNodes stepNodes edges) {node : GraphNode} (hm : node ∈ sourceNodes) :
    ∃ source ∈ sources, OpensSource source node := forall₂_mem_right ho.sourcesShown hm

theorem OpensStep.id {step : Value} {node : GraphNode} (h : OpensStep step node) : stepId step = node.id := by
  rw [stepId, h.id_eq]
  rfl

theorem Opened.find (ho : Opened sources steps sourceNodes stepNodes edges) (ha : Authored d sources steps) {node : GraphNode}
    (hm : node ∈ sourceNodes ++ stepNodes) :
    (sourceNodes ++ stepNodes).find? (fun candidate => candidate.id = node.id) = some node :=
  (Lookup.find?_eq_some_iff_of_nodup (by rw [ho.ids]; exact ha.wellformed.distinct)).mpr ⟨hm, rfl⟩

theorem Authored.awaits (ha : Authored d sources steps) {step : Value} (hm : step ∈ steps) {u : String} (hu : u ∈ inputNames step) :
    scheduled step = false ∧ Awaits steps u (stepId step) ∧ Feeds steps u (stepId step) := by
  obtain ⟨id, kind, inputs, hb, -⟩ := ha.wellformed.blocks step hm
  rw [inputNames_block hb] at hu
  have hconsumes : Consumes step u := hb.consumes_iff.mpr hu
  have hid : step.getStr "step" = some (stepId step) := by
    rw [stepId, hb.id_eq]
    rfl
  have hidle : scheduled step = false := by
    have hfed := ha.fed step hm id kind inputs hb
    by_contra hscheduled
    rw [if_pos (by simpa using hscheduled)] at hfed
    rw [hfed] at hu
    cases hu
  exact ⟨hidle, ⟨step, hm, hid, hidle, hconsumes⟩, step, hm, hid, hconsumes⟩

theorem Authored.awaits_iff (ha : Authored d sources steps) {u v : String} :
    Awaits steps u v ↔ ∃ step ∈ steps, stepId step = v ∧ u ∈ inputNames step := by
  constructor
  · rintro ⟨step, hm, hid, -, hconsumes⟩
    obtain ⟨id, kind, inputs, hb, -⟩ := ha.wellformed.blocks step hm
    refine ⟨step, hm, by rw [stepId, hid]; rfl, ?_⟩
    rw [inputNames_block hb]
    exact hb.consumes_iff.mp hconsumes
  · rintro ⟨step, hm, rfl, hu⟩
    exact (ha.awaits hm hu).2.1

theorem mem_labelsFor {branches : Members} {id label : String} :
    label ∈ labelsFor branches id ↔ ∃ entry ∈ branches, entry.1 = label ∧ id ∈ named entry := by
  simp only [labelsFor, List.mem_map, List.mem_filter, decide_eq_true_eq]
  exact exists_congr fun entry => by tauto

/-- The links of a route carry the labels of the branches that name their target. -/
theorem Authored.labelsOf_route (ha : Authored d sources steps) {route : Value} (hm : route ∈ steps) {source : String}
    (hsource : route.getStr "step" = some source) (hroute : route.getStr "type" = some "route") {branches : Members}
    (hroutes : Routes steps route source branches) {id : String} (hawaits : Awaits steps source id) :
    labelsOf steps source id = (labelsFor branches id).map some := by
  rw [labelsOf, passedLabels_route ha hm hsource hroute hroutes]
  obtain ⟨entry, hentry, targets, hbranch, htarget⟩ := (hroutes.covers id).mpr hawaits
  have hmem : entry.1 ∈ labelsFor branches id := mem_labelsFor.mpr ⟨entry, hentry, rfl, by rwa [named_list hbranch.listed]⟩
  rw [if_neg (List.ne_nil_of_mem hmem)]

theorem labelsOf_plain {source : String}
    (hplain : ∀ step ∈ steps, step.getStr "step" = some source → step.getStr "type" ≠ some "route")
    (id : String) : labelsOf steps source id = [none] := by rw [labelsOf, passedLabels_plain hplain]

def TransfersEnd (steps : List Value) : Prop :=
  ∀ step ∈ steps, step.getStr "type" = some "pipeline" → ∀ other ∈ steps, stepId step ∉ inputNames other

theorem Opened.ends (ho : Opened sources steps sourceNodes stepNodes edges) (ha : Authored d sources steps) {e : GraphEdge}
    (he : e ∈ links steps) : ∃ source ∈ sourceNodes ++ stepNodes, ∃ step ∈ steps, ∃ target ∈ stepNodes, OpensStep step target ∧
      source.id = e.source ∧ target.id = e.target ∧ e.source ∈ inputNames step ∧ e.sourceHandle ∈ labelsOf steps e.source e.target ∧
        e.targetHandle = none := by
  obtain ⟨step, hm, htarget, hsource, hhandle, hplain⟩ := mem_links.mp he
  obtain ⟨target, htargetMem, hopens⟩ := forall₂_mem_left ho.stepsShown hm
  have hknown := ha.wellformed.closed _ _ (ha.awaits hm hsource).2.2
  rw [← ho.ids] at hknown
  obtain ⟨source, hsourceMem, hid⟩ := List.mem_map.mp hknown
  exact ⟨source, hsourceMem, step, hm, target, htargetMem, hopens, hid, by rw [htarget, hopens.id], hsource, hhandle, hplain⟩

theorem Opened.route (ho : Opened sources steps sourceNodes stepNodes edges) (ha : Authored d sources steps) {node : GraphNode}
    (hm : node ∈ sourceNodes ++ stepNodes) (hroute : node.stepType = "route") : ∃ route ∈ steps, OpensStep route node ∧
      route.getStr "type" = some "route" ∧ ∃ branches, Routes steps route node.id branches := by
  rcases List.mem_append.mp hm with hm | hm
  · obtain ⟨source, -, hopens⟩ := ho.source_shown hm
    exact absurd (hopens.kind_eq.symm.trans hroute) (by decide)
  · obtain ⟨route, hr, hopens⟩ := ho.step_shown hm
    have htype := hopens.kind_eq.trans (congrArg some hroute)
    exact ⟨route, hr, hopens, htype, ha.route hr hopens.id_eq htype⟩

theorem Opened.handle (ho : Opened sources steps sourceNodes stepNodes edges) (ha : Authored d sources steps) {node : GraphNode}
    (hm : node ∈ sourceNodes ++ stepNodes) {step : Value} (hstep : step ∈ steps) (hinput : node.id ∈ inputNames step)
    {handle : Option String} (hhandle : handle ∈ labelsOf steps node.id (stepId step)) :
    (node.stepType ≠ "route" ∧ handle = none) ∨ ∃ route ∈ steps, ∃ branches label, OpensStep route node ∧ node.stepType = "route" ∧
      Routes steps route node.id branches ∧ handle = some label ∧ label ∈ labelsFor branches (stepId step) := by
  by_cases hroute : node.stepType = "route"
  · obtain ⟨route, hr, hopens, htype, branches, hroutes⟩ := ho.route ha hm hroute
    rw [ha.labelsOf_route hr hopens.id_eq htype hroutes (ha.awaits hstep hinput).2.1] at hhandle
    obtain ⟨label, hlabel, rfl⟩ := List.mem_map.mp hhandle
    exact .inr ⟨route, hr, branches, label, hopens, hroute, hroutes, rfl, hlabel⟩
  · refine .inl ⟨hroute, ?_⟩
    rw [labelsOf_plain] at hhandle
    · exact List.mem_singleton.mp hhandle
    · intro parent hp hid htype
      have hfound := ho.find ha hm
      obtain ⟨shown, hshown, hopens⟩ := forall₂_mem_left ho.stepsShown hp
      have heq : shown.id = node.id := Option.some.inj (hopens.id_eq.symm.trans hid)
      have hsame : shown = node := by
        rw [← heq, ho.find ha (List.mem_append_right _ hshown)] at hfound
        exact Option.some.inj hfound
      exact hroute (hsame ▸ Option.some.inj (hopens.kind_eq.symm.trans htype))

theorem Routes.label_ne {route : Value} {id label : String} {branches : Members} (h : Routes steps route id branches)
    (hlabel : label ∈ Members.keys branches) : label ≠ "" := by
  obtain ⟨entry, hentry, rfl⟩ := List.mem_map.mp hlabel
  obtain ⟨targets, hbranch⟩ := h.admissible entry hentry
  intro hempty
  have hblank := hbranch.labelled
  rw [hempty] at hblank
  exact absurd hblank (by decide)

theorem labelsFor_subset {branches : Members} {id label : String} (h : label ∈ labelsFor branches id) :
    label ∈ Members.keys branches := by
  obtain ⟨entry, hentry, rfl, -⟩ := mem_labelsFor.mp h
  exact List.mem_map_of_mem hentry

theorem Opened.key_inj (ho : Opened sources steps sourceNodes stepNodes edges) (ha : Authored d sources steps) {e e' : GraphEdge}
    (he : e ∈ links steps) (he' : e' ∈ links steps) (hsource : e'.source = e.source) (htarget : e'.target = e.target)
    (hkey : e'.sourceHandle.getD "" = e.sourceHandle.getD "") : e' = e := by
  have hhandle : ∀ e ∈ links steps, e.targetHandle = none ∧ ∀ label, e.sourceHandle = some label → label ≠ "" := by
    intro e he
    obtain ⟨source, hm, step, hstep, target, -, hopens, hid, hid', hinput, hhandle, hplain⟩ := ho.ends ha he
    refine ⟨hplain, fun label hlabel => ?_⟩
    rw [← hid, ← hid', ← hopens.id] at hhandle
    rw [← hid] at hinput
    rcases ho.handle ha hm hstep hinput hhandle with ⟨-, hnone⟩ | ⟨route, hr, branches, label', -, -, hroutes, hsome, hmem⟩
    · rw [hnone] at hlabel
      cases hlabel
    · obtain rfl := Option.some.inj (hsome.symm.trans hlabel)
      exact Routes.label_ne hroutes (labelsFor_subset hmem)
  obtain ⟨hplain, hne⟩ := hhandle e he
  obtain ⟨hplain', hne'⟩ := hhandle e' he'
  obtain ⟨source, target, handle, targetHandle⟩ := e
  obtain ⟨source', target', handle', targetHandle'⟩ := e'
  simp only at hsource htarget hkey hplain hplain' hne hne'
  subst hsource htarget hplain hplain'
  congr 1
  cases handle with
  | none =>
      cases handle' with
      | none => rfl
      | some label' => exact absurd hkey (hne' label' rfl)
  | some label =>
      cases handle' with
      | none => exact absurd hkey.symm (hne label rfl)
      | some label' => exact congrArg some hkey

theorem eraseDups_length_le {inputs names : List String} (hsub : names ⊆ inputs) (hone : inputs.length = 1) :
    names.eraseDups.length ≤ 1 := by
  have hnodup := Lookup.nodup_eraseDups names
  have hsub' : names.eraseDups ⊆ inputs := fun name hname => hsub (List.mem_eraseDups.mp hname)
  exact (hnodup.subperm hsub').length_le.trans_eq hone

/-- The links of a definition pass if none is drawn twice and transfers end
there. -/
theorem Opened.connects (ho : Opened sources steps sourceNodes stepNodes edges) (ha : Authored d sources steps)
    (hnodup : (links steps).Nodup) (hends : TransfersEnd steps) {before after : List GraphEdge} {e : GraphEdge}
    (heq : links steps = before ++ e :: after) : ∃ source target, Connects (sourceNodes ++ stepNodes) before e source target := by
  have hmem : ∀ e' ∈ before ++ [e], e' ∈ links steps := fun e' he' => by
    rw [heq]
    simp only [List.mem_append, List.mem_cons] at he' ⊢
    tauto
  have he := hmem e (by simp)
  obtain ⟨source, hsourceMem, step, hstep, target, htargetMem, hopens, hid, hid', hinput, hhandle, hplain⟩ := ho.ends ha he
  have hshape := stepShape (ha.parts.2 step hstep)
  have hinput' : source.id ∈ inputNames step := by rwa [hid]
  rw [← hid, ← hid', ← hopens.id] at hhandle
  have hcases := ho.handle ha hsourceMem hstep hinput' hhandle
  refine ⟨source, target, by rw [← hid]; exact ho.find ha hsourceMem,
    by rw [← hid']; exact ho.find ha (List.mem_append_right _ htargetMem),
    ⟨?_, ?_, ?_⟩, ⟨by rw [hplain]; rfl, ?_⟩, ?_, ?_, ?_⟩
  · intro htype
    rcases List.mem_append.mp hsourceMem with hm | hm
    · obtain ⟨shown, -, hshown⟩ := ho.source_shown hm
      exact absurd (hshown.kind_eq.symm.trans htype) (by decide)
    · obtain ⟨transfer, htransfer, hshown⟩ := ho.step_shown hm
      refine hends transfer htransfer (hshown.kind_eq.trans (congrArg some htype)) step hstep ?_
      rwa [hshown.id]
  · intro htype
    have hknown := hopens.known
    rw [htype] at hknown
    exact absurd hknown (by decide)
  · rw [hopens.isScheduled hshape]
    exact (ha.awaits hstep hinput).1
  · rcases hcases with ⟨-, hnone⟩ | ⟨-, -, -, -, -, hroute, -⟩
    · exact .inr (by rw [hnone]; rfl)
    · exact .inl hroute
  · rintro e' he' ⟨hsource, htarget, hkey⟩
    have hsame := ho.key_inj ha he (hmem e' (List.mem_append_left _ he')) hsource htarget hkey
    rw [heq, List.nodup_append] at hnodup
    exact hnodup.2.2 e' he' e List.mem_cons_self hsame
  · rw [checkBranch]
    split
    · rcases hcases with ⟨hother, -⟩ | ⟨route, hr, branches, label, hroute, -, hroutes, hlabel, hmem⟩
      · exact absurd (by assumption) hother
      · rw [hroute.branchLabels (stepShape (ha.parts.2 route hr)) hroutes.listed, hlabel, ok_bind, accepts_ensure]
        simpa using labelsFor_subset hmem
    · exact accepts_ok ()
  · obtain ⟨id, kind, inputs, hb, -⟩ := ha.wellformed.blocks step hstep
    have hfed := ha.fed step hstep id kind inputs hb
    rw [if_neg (by simp [(ha.awaits hstep hinput).1])] at hfed
    rw [hopens.mergesUnion hshape hb.kind_eq]
    refine hfed.2.imp_left (eraseDups_length_le fun name hname => ?_)
    obtain ⟨e', he', rfl⟩ := List.mem_map.mp hname
    obtain ⟨he', htarget⟩ := List.mem_filter.mp he'
    obtain ⟨step', hstep', htarget', hinput'', -⟩ := mem_links.mp (hmem e' he')
    have hsame : step' = step := by
      refine List.inj_on_of_nodup_map ha.stepIds_nodup hstep' hstep ?_
      rw [← htarget', of_decide_eq_true htarget, ← hid', hopens.id]
    rw [← inputNames_block hb, ← hsame]
    exact hinput''

end Graph

section Validation

open Registry.Pipeline

variable {d : Value} {sources steps : List Value} {sourceNodes stepNodes : List GraphNode} {edges : List GraphEdge}

def transfers (steps : List Value) : Nat := steps.countP fun step => step.getStr "type" = some "pipeline"

theorem countP_forall₂ {β γ : Type} {R : β → γ → Prop} {p : β → Bool} {q : γ → Bool} (hpq : ∀ x y, R x y → p x = q y) {xs : List β}
    {ys : List γ} (h : List.Forall₂ R xs ys) : xs.countP p = ys.countP q := by
  induction h with
  | nil => rfl
  | cons hxy _ ih => rw [List.countP_cons, List.countP_cons, hpq _ _ hxy, ih]

theorem Opened.transfers_eq (ho : Opened sources steps sourceNodes stepNodes edges) :
    ((sourceNodes ++ stepNodes).filter fun node => node.stepType = "pipeline").length = transfers steps := by
  have hsources : (sourceNodes.countP fun node => node.stepType = "pipeline") = 0 := by
    rw [List.countP_eq_zero]
    intro node hm
    obtain ⟨source, -, hopens⟩ := ho.source_shown hm
    rw [hopens.kind_eq]
    decide
  rw [← List.countP_eq_length_filter, List.countP_append, hsources, Nat.zero_add, transfers]
  refine (countP_forall₂ (fun step node hopens => ?_) ho.stepsShown).symm
  rw [hopens.kind_eq]
  simp

theorem Authored.ids_ne (ha : Authored d sources steps) : ∀ id ∈ nodeIds sources steps, id ≠ "" := by
  intro id hid
  rcases List.mem_append.mp hid with hm | hm
  · obtain ⟨source, hsource, hget⟩ := List.mem_filterMap.mp hm
    obtain ⟨id', hget', hne⟩ := ha.wellformed.named source hsource
    exact Option.some.inj (hget'.symm.trans hget) ▸ hne
  · obtain ⟨step, hstep, hget⟩ := List.mem_filterMap.mp hm
    obtain ⟨id', kind, inputs, hb, -⟩ := ha.wellformed.blocks step hstep
    exact Option.some.inj (hb.id_eq.symm.trans hget) ▸ hb.id_ne

/-- The checks pass if no link is drawn twice and transfers end there. -/
theorem Opened.validated (ho : Opened sources steps sourceNodes stepNodes edges) (ha : Authored d sources steps)
    (hnodup : ∀ step ∈ steps, (inputNames step).Nodup) (hends : TransfersEnd steps) (hthree : transfers steps ≤ 3) :
    validateConnections (sourceNodes ++ stepNodes) edges = .ok () := by
  obtain rfl := ho.edges_eq ha.passes
  obtain ⟨checked, hchecked⟩ := foldlM_checkEdge.mpr fun before e after heq => by
    rw [List.nil_append]
    exact ho.connects ha ((ha.passes.links_nodup ha.stepIds_nodup).mpr hnodup) hends heq
  have hlength : (sourceNodes ++ stepNodes).length = ((sourceNodes ++ stepNodes).map GraphNode.id).length :=
    List.length_map _ |>.symm
  simp only [validateConnections, bind_eq_ok, ensure_eq_ok, decide_eq_true_eq]
  refine ⟨(), ?_, (), ?_, (), ?_, checked, hchecked, ?_⟩
  · rw [List.length_append, ← ho.sourcesShown.length_eq, ← ho.stepsShown.length_eq]
    exact ha.bounded
  · rw [ho.transfers_eq]
    exact hthree
  · rw [ho.ids]
    exact ha.wellformed.distinct
  · rw [hlength, ho.ids]
    refine visit_length ha.wellformed.distinct ha.ids_ne (fun e he => ?_) fun v => ?_
    · obtain ⟨source, hm, step, hstep, target, htarget, hopens, hid, hid', -⟩ := ho.ends ha he
      rw [← ho.ids, ← hid, ← hid']
      exact ⟨List.mem_map_of_mem hm, List.mem_map_of_mem (List.mem_append_right _ htarget)⟩
    · refine Subrelation.accessible (fun {u v} huv => ?_) (ha.wellformed.acyclic v)
      obtain ⟨e, he, rfl, rfl⟩ := huv
      obtain ⟨step, hstep, htarget, hsource, -⟩ := mem_links.mp he
      rw [htarget]
      exact (ha.awaits hstep hsource).2.2

end Validation

theorem mem_propertyOrder {keys : List String} {key : String} : key ∈ propertyOrder keys ↔ key ∈ keys := by
  simp only [propertyOrder, List.mem_append, List.mem_mergeSort, List.mem_filter, List.mem_eraseDups]
  cases arrayIndex key <;> simp

theorem nodup_propertyOrder (keys : List String) : (propertyOrder keys).Nodup := by
  have hdistinct := Lookup.nodup_eraseDups keys
  rw [propertyOrder, List.nodup_append]
  refine ⟨(List.mergeSort_perm _ _).nodup_iff.mpr (hdistinct.filter _), hdistinct.filter _, fun key hkey key' hkey' heq => ?_⟩
  subst heq
  rw [List.mem_mergeSort, List.mem_filter] at hkey
  have hnone := (List.mem_filter.mp hkey').2
  rw [Option.isNone_iff_eq_none.mp hnone] at hkey
  exact absurd hkey.2 (by decide)

theorem keys_fromEntries_of {given : List (String × Value)} (order : List String) :
    Members.keys (order.filterMap fun key => (given.reverse.lookup key).map fun v => (key, v)) =
      order.filter fun key => (given.reverse.lookup key).isSome := by
  induction order with
  | nil => rfl
  | cons key order ih =>
      rw [List.filterMap_cons, List.filter_cons]
      cases hlookup : given.reverse.lookup key with
      | none => simpa [hlookup] using ih
      | some v => simpa [hlookup, Members.keys] using ih

theorem lookup_isSome {given : List (String × Value)} {key : String} : (given.lookup key).isSome = true ↔
    key ∈ given.map Prod.fst := by
  induction given with
  | nil => simp
  | cons entry given ih =>
      obtain ⟨k, v⟩ := entry
      rw [List.lookup_cons]
      by_cases hk : key = k
      · simp [hk]
      · have hbeq : (key == k) = false := by simpa using hk
        simp [hbeq, hk, ih]

theorem keys_fromEntries (given : List (String × Value)) :
    Members.keys (fromEntries given) = propertyOrder (given.map Prod.fst) := by
  rw [fromEntries, keys_fromEntries_of, List.filter_eq_self]
  intro key hkey
  rw [lookup_isSome, List.map_reverse, List.mem_reverse]
  exact mem_propertyOrder.mp hkey

theorem field_fromEntries (given : List (String × Value)) (key : String) :
    Members.field (fromEntries given) key = given.reverse.lookup key := by
  have hnodup : (Members.keys (fromEntries given)).Nodup := by
    rw [keys_fromEntries]
    exact nodup_propertyOrder _
  cases hlookup : given.reverse.lookup key with
  | none =>
      cases hfield : Members.field (fromEntries given) key with
      | none => rfl
      | some v =>
          obtain ⟨key', -, heq⟩ := List.mem_filterMap.mp (Members.mem_of_field hfield)
          obtain ⟨w, hw, heq⟩ := Option.map_eq_some_iff.mp heq
          obtain ⟨rfl, rfl⟩ := Prod.mk.inj heq
          rw [hlookup] at hw
          cases hw
  | some v =>
      refine Members.field_of_mem hnodup (List.mem_filterMap.mpr ⟨key, ?_, by rw [hlookup]; rfl⟩)
      rw [mem_propertyOrder, ← List.mem_reverse, ← List.map_reverse, ← lookup_isSome, hlookup]
      rfl

def sourceFields : List String :=
  ["id", "account_id", "topic", "match_pattern", "schema_path", "capability_id", "capability_version", "parser",
    "source_kind", "group_id",
    "content_types"]

/-- The fields that a runtime reads from a step, beside its inputs, branches and
parameters. -/
def stepFields : List String :=
  ["step", "type", "model", "artifact_path", "capability_id", "capability_version", "routing", "pipeline_ref",
    "origin", "ontology_required"]

def SameSource (source saved : Value) : Prop := ∀ key ∈ sourceFields, saved.get key = source.get key

structure SameBranches (branches saved : Members) : Prop where
  labels : ∀ label, label ∈ Members.keys saved ↔ label ∈ Members.keys branches
  targets : ∀ label v, Members.field branches label = some v →
    ∃ targets : List String, Members.field saved label = some (.array (targets.map .string)) ∧
      ∀ u, u ∈ targets ↔ u ∈ named (label, v)

/-- A step as it was saved. An absent object counts as an empty one. -/
structure SameStep (step saved : Value) : Prop where
  fields : ∀ key ∈ stepFields, saved.get key = step.get key
  params : (saved.get "params").getD (.object []) = (step.get "params").getD (.object [])
  inputs : ∃ inputs : List String, saved.getArray "input_from" = some (inputs.map .string) ∧ ∀ u, u ∈ inputs ↔ u ∈ inputNames step
  routed : step.getStr "type" = some "route" → ∃ branches branches', step.get "branches" = some (.object branches) ∧
    saved.get "branches" = some (.object branches') ∧ SameBranches branches branches'
  unrouted : step.getStr "type" ≠ some "route" → (saved.get "branches").getD (.object []) = (step.get "branches").getD (.object [])

structure SameDefinition (d saved : Value) : Prop where
  sources : ∃ sources sources', d.getArray "sources" = some sources ∧ saved.getArray "sources" = some sources' ∧
    List.Forall₂ SameSource sources sources'
  steps : ∃ steps steps', d.getArray "pipeline" = some steps ∧ saved.getArray "pipeline" = some steps' ∧
    List.Forall₂ SameStep steps steps'

def Preserved (capabilities : List CapabilityLabel) (d : Value) : Prop :=
  ∃ g saved, graphFromDefinition capabilities d = .ok g ∧
    definitionFromGraph ((d.getStr "name").getD "") g.nodes g.edges false = .ok saved ∧ SameDefinition d saved

section Saved

open Registry.Pipeline

variable {d : Value} {sources steps : List Value} {sourceNodes stepNodes : List GraphNode} {edges : List GraphEdge}

theorem savedSource_id (node : GraphNode) : (savedSource node).get "id" = some (.string node.id) :=
  @field_present _ (by simp) "id" (some (.string node.id)) (by simp)

theorem savedSource_get (node : GraphNode) {key : String}
    (hkey : key ∈ ["account_id", "capability_id", "capability_version", "parser", "source_kind", "group_id", "content_types"]) :
    (savedSource node).get key = Members.field node.config key := by
  rw [savedSource, Value.get]
  refine field_present (by simp) ?_
  simp only [List.mem_cons, List.not_mem_nil, or_false] at hkey
  rcases hkey with rfl | rfl | rfl | rfl | rfl | rfl | rfl <;> simp

theorem savedSource_getD (node : GraphNode) {key text : String}
    (hkey : (key, text) ∈ [("topic", "raw"), ("match_pattern", ".*"), ("schema_path", "schemas/avro/text.avsc")]) :
    (savedSource node).get key = some ((nullish (Members.field node.config key)).getD (.string text)) := by
  rw [savedSource, Value.get]
  refine field_present (by simp) ?_
  simp only [List.mem_cons, List.not_mem_nil, or_false, Prod.mk.injEq] at hkey
  rcases hkey with ⟨rfl, rfl⟩ | ⟨rfl, rfl⟩ | ⟨rfl, rfl⟩ <;> simp

theorem nullish_text {v : Option Value} {text : String} (h : v = some (.string text)) (w : Value) :
    some ((nullish v).getD w) = v := by
  rw [h]
  rfl

theorem savedSource_same {source : Value} {node : GraphNode} (h : OpensSource source node)
    (hsource : isSourceDefinition source = true) :
    SameSource source (savedSource node) ↔ ListOrFalsy (source.get "content_types") := by
  rw [isSourceDefinition, Bool.and_eq_true, hasTexts_iff] at hsource
  obtain ⟨hobject, htexts⟩ := hsource
  rw [← h.types hobject]
  constructor
  · intro hsame
    rw [← hsame "content_types" (by decide), savedSource_get node (by simp)]
  · intro htypes key hkey
    by_cases hid : key = "id"
    · subst hid
      rw [savedSource_id, Value.getStr_eq_some.mp h.id_eq]
    by_cases htext : key ∈ ["topic", "match_pattern", "schema_path"]
    · obtain ⟨text, hget⟩ := htexts key (List.mem_cons_of_mem _ htext)
      have hconfig : Members.field node.config key = source.get key := h.field hobject (by
        simp only [List.mem_cons, List.not_mem_nil, or_false] at htext ⊢
        rcases htext with rfl | rfl | rfl <;> simp)
      obtain ⟨default, hdefault⟩ : ∃ text, (key, text) ∈
        [("topic", "raw"), ("match_pattern", ".*"), ("schema_path", "schemas/avro/text.avsc")] := by
        simp only [List.mem_cons, List.not_mem_nil, or_false, Prod.mk.injEq] at htext ⊢
        rcases htext with rfl | rfl | rfl <;> simp
      rw [savedSource_getD node hdefault, hconfig, nullish_text (Value.getStr_eq_some.mp hget)]
    · have hkept : key ∈ ["account_id", "capability_id", "capability_version", "parser", "source_kind", "group_id",
        "content_types"] := by
        simp only [sourceFields, List.mem_cons, List.not_mem_nil, or_false] at hkey hid htext ⊢
        tauto
      rw [savedSource_get node hkept]
      by_cases htypes' : key = "content_types"
      · rw [htypes', htypes]
      · refine h.field hobject ?_
        simp only [List.mem_cons, List.not_mem_nil, or_false, not_or] at hkept ⊢
        refine ⟨hid, ?_, ?_, ?_, htypes'⟩ <;> rintro rfl <;> simp at hkept

section Steps

theorem mem_inputsOf {id u : String} : u ∈ inputsOf edges id ↔ ∃ e ∈ edges, e.target = id ∧ e.source = u := by
  simp [inputsOf, List.mem_eraseDups, and_assoc]

theorem mem_branchTargets {id label u : String} :
    u ∈ branchTargets edges id label ↔ ∃ e ∈ edges, e.source = id ∧ e.sourceHandle = some label ∧ e.target = u := by
  simp [branchTargets, and_assoc]

variable {draft : Bool}

structure Saves (edges : List GraphEdge) (draft : Bool) (node : GraphNode) (saved : Value) : Prop where
  object : saved.isObject = true
  keyed : (Members.keys (entries saved)).Nodup
  step : saved.get "step" = some (.string node.id)
  kind : saved.get "type" = some (.string node.stepType)
  inputs : saved.get "input_from" = some (.array ((inputsOf edges node.id).map .string))
  kept : ∀ key ∈ ["ontology_required", "model", "capability_id", "capability_version", "artifact_path", "routing", "pipeline_ref"],
    saved.get key = Members.field node.config key
  params : saved.get "params" = some ((nullish (Members.field node.config "params")).getD (.object []))
  branches : savedBranches edges draft node = .ok (saved.get "branches")
  others : ∀ key ∉ ["ontology_required", "model", "capability_id", "capability_version", "artifact_path", "routing",
    "pipeline_ref", "step",
    "type", "input_from", "params", "branches"], saved.get key = none

theorem keys_present {fields : List (String × Option Value)} (hnodup : (fields.map Prod.fst).Nodup) :
    (Members.keys (present fields)).Nodup := by
  refine List.Sublist.nodup ?_ hnodup
  clear hnodup
  induction fields with
  | nil => exact .slnil
  | cons field fields ih =>
      obtain ⟨key, v⟩ := field
      cases v with
      | none => exact ih.cons key
      | some v => exact ih.cons_cons key

theorem savedStep_saves {node : GraphNode} {saved : Value} (h : savedStep edges draft node = .ok saved) :
    Saves edges draft node saved := by
  simp only [savedStep, bind_eq_ok, pure_eq_ok] at h
  obtain ⟨_, -, branches, hbranches, _, -, rfl⟩ := h
  refine ⟨rfl, keys_present (by simp), @field_present _ (by simp) "step" _ (by simp), @field_present _ (by simp) "type" _ (by simp),
    @field_present _ (by simp) "input_from" _ (by simp), fun key hkey => ?_, @field_present _ (by simp) "params" _ (by simp), ?_,
    fun key hkey => ?_⟩
  · rw [Value.get]
    refine field_present (by simp) ?_
    simp only [List.mem_cons, List.not_mem_nil, or_false] at hkey
    rcases hkey with rfl | rfl | rfl | rfl | rfl | rfl | rfl <;> simp
  · rw [hbranches, Value.get, @field_present _ (by simp) "branches" branches (by simp)]
  · rw [Value.get]
    refine field_present_absent fun hmem => hkey ?_
    simp only [List.map_cons, List.map_nil, List.mem_cons, List.not_mem_nil, or_false] at hmem ⊢
    tauto

theorem savedStep_accepts {node : GraphNode} : Accepts (savedStep edges draft node) ↔
    (draft = true ∨ (inputsOf edges node.id).length = 1 ∨ (mergesUnion node = true ∧ inputsOf edges node.id ≠ []) ∨
      isScheduled node.config = true) ∧
    Accepts (savedBranches edges draft node) ∧
    (draft = true ∨ node.stepType ≠ "pipeline" ∨ (Members.field node.config "pipeline_ref").any truthy = true) := by
  simp only [savedStep, accepts_bind, ensure_eq_ok, Bool.or_eq_true, beq_iff_eq, Bool.and_eq_true, Bool.not_eq_true',
    List.isEmpty_eq_false_iff, bne_iff_ne, or_assoc]
  constructor
  · rintro ⟨_, hinputs, branches, hbranches, _, hreference, -⟩
    exact ⟨hinputs, ⟨branches, hbranches⟩, hreference⟩
  · rintro ⟨hinputs, ⟨branches, hbranches⟩, hreference⟩
    exact ⟨(), hinputs, branches, hbranches, (), hreference, accepts_ok _⟩

theorem mem_inputsOf_links (ha : Authored d sources steps) {step : Value} (hm : step ∈ steps) {u : String} :
    u ∈ inputsOf (links steps) (stepId step) ↔ u ∈ inputNames step := by
  rw [mem_inputsOf]
  constructor
  · rintro ⟨e, he, htarget, rfl⟩
    obtain ⟨step', hstep', htarget', hsource, -⟩ := mem_links.mp he
    rwa [List.inj_on_of_nodup_map ha.stepIds_nodup hm hstep' (htarget.symm.trans htarget')]
  · intro hu
    obtain ⟨label, hlabel⟩ := List.exists_mem_of_ne_nil _ (ha.passes.labelsOf_ne_nil u (stepId step))
    exact ⟨⟨u, stepId step, label, none⟩, mem_links.mpr ⟨step, hm, rfl, hu, hlabel, rfl⟩, rfl, rfl⟩

theorem length_inputsOf_links (ha : Authored d sources steps) {step : Value} (hm : step ∈ steps)
    (hnodup : (inputNames step).Nodup) :
    (inputsOf (links steps) (stepId step)).length = (inputNames step).length := by
  have hperm : (inputsOf (links steps) (stepId step)).Perm (inputNames step) :=
    (List.perm_ext_iff_of_nodup (Lookup.nodup_eraseDups _) hnodup).mpr fun _ => mem_inputsOf_links ha hm
  exact hperm.length_eq

theorem mem_branchTargets_links (ha : Authored d sources steps) {route : Value} (hm : route ∈ steps) {id : String}
    (hid : route.getStr "step" = some id) (hroute : route.getStr "type" = some "route") {branches : Members}
    (hroutes : Routes steps route id branches) {label : String} {v : Value} (hlabel : (label, v) ∈ branches) {u : String} :
    u ∈ branchTargets (links steps) id label ↔ u ∈ named (label, v) := by
  rw [mem_branchTargets]
  constructor
  · rintro ⟨e, he, rfl, hhandle, rfl⟩
    obtain ⟨step, hstep, htarget, hsource, hlabels, -⟩ := mem_links.mp he
    have hawaits : Awaits steps e.source e.target := by
      rw [htarget]
      exact (ha.awaits hstep hsource).2.1
    rw [hhandle, ha.labelsOf_route hm hid hroute hroutes hawaits, List.mem_map] at hlabels
    obtain ⟨label', hlabel', heq⟩ := hlabels
    obtain rfl := Option.some.inj heq
    obtain ⟨entry, hentry, hfst, hnamed⟩ := mem_labelsFor.mp hlabel'
    have hentry' : entry = (label', v) := List.inj_on_of_nodup_map (ha.branches_keyed hm hroutes.listed) hentry hlabel hfst
    rwa [hentry'] at hnamed
  · intro hu
    obtain ⟨targets, hbranch⟩ := hroutes.admissible _ hlabel
    have hawaits := (hroutes.covers u).mp ⟨_, hlabel, targets, hbranch, by rwa [named_list hbranch.listed] at hu⟩
    obtain ⟨step, hstep, rfl, hsource⟩ := ha.awaits_iff.mp hawaits
    refine ⟨⟨id, stepId step, some label, none⟩, mem_links.mpr ⟨step, hstep, rfl, hsource, ?_, rfl⟩, rfl, rfl, rfl⟩
    rw [ha.labelsOf_route hm hid hroute hroutes hawaits]
    exact List.mem_map_of_mem (mem_labelsFor.mpr ⟨_, hlabel, rfl, hu⟩)

theorem savedBranches_accepts (ha : Authored d sources steps) {route : Value} (hm : route ∈ steps) {node : GraphNode}
    (hopens : OpensStep route node) (hroute : node.stepType = "route") {branches : Members}
    (hroutes : Routes steps route node.id branches) :
    Accepts (savedBranches (links steps) false node) ↔ ∀ label ∈ Members.keys branches, trim label ≠ "" := by
  have hlabels := hopens.branchLabels (stepShape (ha.parts.2 route hm)) hroutes.listed
  have hmap : Accepts (savedBranches (links steps) false node) ↔
      Accepts ((Members.keys branches).mapM (savedBranch (links steps) false node.id)) := by
    rw [savedBranches, if_pos hroute, hlabels, ok_bind, accepts_bind]
    constructor
    · rintro ⟨saved, hsaved, -⟩
      exact ⟨saved, hsaved⟩
    · rintro ⟨saved, hsaved⟩
      exact ⟨saved, hsaved, accepts_ok _⟩
  rw [hmap, accepts_mapM]
  refine forall₂_congr fun label hlabel => ?_
  obtain ⟨entry, hentry, rfl⟩ := List.mem_map.mp hlabel
  have htargets : branchTargets (links steps) node.id entry.1 ≠ [] := by
    obtain ⟨targets, hbranch⟩ := hroutes.admissible entry hentry
    obtain ⟨u, hu⟩ := List.exists_mem_of_ne_nil _ hbranch.nonempty
    have hnamed : u ∈ named entry := by rwa [named_list hbranch.listed]
    exact List.ne_nil_of_mem ((mem_branchTargets_links ha hm hopens.id_eq (hopens.kind_eq.trans (congrArg some hroute)) hroutes
      hentry).mpr hnamed)
  rw [savedBranch, accepts_bind]
  simp [htargets, Accepts, pure, Except.pure]

theorem mapM_savedBranch {id : String} {labels : List String} {saved : List (String × Value)}
    (h : labels.mapM (savedBranch edges draft id) = .ok saved) :
    saved = labels.map fun label => (label, .array ((branchTargets edges id label).map .string)) := by
  refine mapM_eq_map h fun label _ entry hentry => ?_
  simp only [savedBranch, bind_eq_ok, pure_eq_ok] at hentry
  obtain ⟨_, -, rfl⟩ := hentry
  rfl

theorem lookup_map {β : Type} {labels : List String} {f : String → β} {label : String} (h : label ∈ labels) :
    (labels.map fun label => (label, f label)).lookup label = some (f label) := by
  induction labels with
  | nil => cases h
  | cons first labels ih =>
      rw [List.map_cons, List.lookup_cons]
      by_cases heq : label = first
      · simp [heq]
      · have hbeq : (label == first) = false := by simpa using heq
        simpa [hbeq] using ih ((List.mem_cons.mp h).resolve_left heq)

theorem savedBranches_route {node : GraphNode} {labels : List String} (hroute : node.stepType = "route")
    (hlabels : branchLabels node.config = .ok labels) {saved : Option Value} (h : savedBranches edges draft node = .ok saved) :
    ∃ branches, saved = some (.object branches) ∧ Members.keys branches = propertyOrder labels ∧
      ∀ label ∈ labels, Members.field branches label = some (.array ((branchTargets edges node.id label).map .string)) := by
  rw [savedBranches, if_pos hroute, hlabels, ok_bind, bind_eq_ok] at h
  obtain ⟨given, hgiven, h⟩ := h
  obtain rfl := pure_eq_ok.mp h
  obtain rfl := mapM_savedBranch hgiven
  refine ⟨_, rfl, ?_, fun label hlabel => ?_⟩
  · rw [keys_fromEntries, List.map_map]
    congr 1
    exact List.map_id _
  · rw [field_fromEntries, ← List.map_reverse, lookup_map (List.mem_reverse.mpr hlabel)]

/-- A step is saved as it was unless it is no route and has branches. -/
theorem Saves.same (ha : Authored d sources steps) {step : Value} (hm : step ∈ steps) {node : GraphNode}
    (hopens : OpensStep step node)
    {saved : Value} (hs : Saves (links steps) draft node saved) : SameStep step saved ↔
      (step.getStr "type" ≠ some "route" → step.get "branches" = none ∨ step.get "branches" = some (.object [])) := by
  have hshape := stepShape (ha.parts.2 step hm)
  have hunrouted : step.getStr "type" ≠ some "route" → saved.get "branches" = none := by
    intro htype
    have hbranches := hs.branches
    rw [savedBranches, if_neg] at hbranches
    · exact (Except.ok.inj hbranches).symm
    · intro hroute
      exact htype (hopens.kind_eq.trans (congrArg some hroute))
  constructor
  · intro hsame htype
    have heq := hsame.unrouted htype
    rw [hunrouted htype] at heq
    cases hget : step.get "branches" with
    | none => exact .inl rfl
    | some branches =>
        rw [hget] at heq
        exact .inr (congrArg some heq.symm)
  · intro hplain
    refine ⟨fun key hkey => ?_, ?_, ⟨_, by rw [Value.getArray, hs.inputs]; rfl, fun u => ?_⟩, fun htype => ?_, fun htype => ?_⟩
    · by_cases hkept : key ∈ ["ontology_required", "model", "capability_id", "capability_version", "artifact_path",
        "routing", "pipeline_ref"]
      · rw [hs.kept key hkept]
        refine hopens.field hshape ?_
        simp only [List.mem_cons, List.not_mem_nil, or_false] at hkept
        rcases hkept with rfl | rfl | rfl | rfl | rfl | rfl | rfl <;> simp
      · have hother : key = "step" ∨ key = "type" ∨ key = "origin" := by
          simp only [stepFields, List.mem_cons, List.not_mem_nil, or_false] at hkey hkept
          tauto
        rcases hother with rfl | rfl | rfl
        · rw [hs.step, Value.getStr_eq_some.mp hopens.id_eq]
        · rw [hs.kind, Value.getStr_eq_some.mp hopens.kind_eq]
        · rw [hs.others "origin" (by simp), ha.unmarked step hm]
    · have hparams := @OpensStep.field step node hopens hshape "params" (by simp)
      rw [hs.params, hparams]
      cases hget : step.get "params" with
      | none => rfl
      | some params =>
          obtain ⟨m, rfl⟩ := hshape.params params hget
          rfl
    · rw [← hopens.id]
      exact mem_inputsOf_links ha hm
    · obtain ⟨branches, hroutes⟩ := ha.route hm hopens.id_eq htype
      have hroute : node.stepType = "route" := Option.some.inj (hopens.kind_eq.symm.trans htype)
      obtain ⟨saved', hsaved, hkeys, hfields⟩ := savedBranches_route hroute (hopens.branchLabels hshape hroutes.listed) hs.branches
      refine ⟨branches, saved', hroutes.listed, hsaved, fun label => by rw [hkeys, mem_propertyOrder], fun label v hlabel => ?_⟩
      have hmem := Members.mem_of_field hlabel
      refine ⟨_, hfields label (List.mem_map_of_mem hmem), fun u => ?_⟩
      exact mem_branchTargets_links ha hm hopens.id_eq htype hroutes hmem
    · rw [hunrouted htype]
      rcases hplain htype with hnone | hempty
      · rw [hnone]
      · rw [hempty]
        rfl

end Steps

section Definitions

variable {name : String} {nodes : List GraphNode} {draft : Bool}

def savedDefinition (name : String) (nodes : List GraphNode) (pipeline : List Value) : Value :=
  .object [
    ("name", .string (trim name)),
    ("version", .number (.int 1)),
    ("sources", .array ((nodes.filter fun node => node.stepType = "source").map savedSource)),
    ("pipeline", .array pipeline),
    ("editor", .object [("labels", .object (savedLabels nodes)), ("positions", .object (savedPositions nodes))])]

theorem definitionFromGraph_eq_ok {saved : Value} : definitionFromGraph name nodes edges draft = .ok saved ↔
    (draft = false → Accepts (validateConnections nodes edges) ∧ trim name ≠ "") ∧
      ∃ pipeline, (nodes.filter fun node => node.stepType ≠ "source").mapM (savedStep edges draft) = .ok pipeline ∧
        (draft = false → (∃ node ∈ nodes, node.stepType = "source") ∨ ∃ node ∈ nodes, isScheduled node.config = true) ∧
        saved = savedDefinition name nodes pipeline := by
  have hstarted : (draft || !((nodes.filter fun node => node.stepType = "source").map savedSource).isEmpty ||
      nodes.any fun node => isScheduled node.config) = true ↔
        (draft = false → (∃ node ∈ nodes, node.stepType = "source") ∨ ∃ node ∈ nodes, isScheduled node.config = true) := by
    cases draft <;> simp
  rw [← hstarted]
  cases draft with
  | true =>
      simp only [definitionFromGraph, Bool.not_true, Bool.false_eq_true, if_false, bind_eq_ok, pure_eq_ok, ensure_eq_ok]
      constructor
      · rintro ⟨pipeline, hpipeline, _, hstart, rfl⟩
        exact ⟨by simp, pipeline, hpipeline, hstart, rfl⟩
      · rintro ⟨-, pipeline, hpipeline, hstart, rfl⟩
        exact ⟨pipeline, hpipeline, (), hstart, rfl⟩
  | false =>
      simp only [definitionFromGraph, Bool.not_false, if_true, bind_eq_ok, pure_eq_ok, ensure_eq_ok, bne_iff_ne]
      constructor
      · rintro ⟨_, hvalid, _, hname, pipeline, hpipeline, _, hstart, rfl⟩
        exact ⟨fun _ => ⟨⟨_, hvalid⟩, hname⟩, pipeline, hpipeline, hstart, rfl⟩
      · rintro ⟨hchecks, pipeline, hpipeline, hstart, rfl⟩
        obtain ⟨⟨_, hvalid⟩, hname⟩ := hchecks trivial
        exact ⟨_, hvalid, (), hname, pipeline, hpipeline, (), hstart, rfl⟩

theorem Opened.sources_filter (ho : Opened sources steps sourceNodes stepNodes edges) :
    ((sourceNodes ++ stepNodes).filter fun node => node.stepType = "source") = sourceNodes := by
  have hsources : (sourceNodes.filter fun node => node.stepType = "source") = sourceNodes :=
    List.filter_eq_self.mpr fun node hm => by
    obtain ⟨source, -, hopens⟩ := ho.source_shown hm
    simpa using hopens.kind_eq
  have hsteps : (stepNodes.filter fun node => node.stepType = "source") = [] := List.filter_eq_nil_iff.mpr fun node hm hsource => by
    obtain ⟨step, -, hopens⟩ := ho.step_shown hm
    have hknown := hopens.known
    rw [of_decide_eq_true hsource] at hknown
    exact absurd hknown (by decide)
  rw [List.filter_append, hsources, hsteps, List.append_nil]

theorem Opened.steps_filter (ho : Opened sources steps sourceNodes stepNodes edges) :
    ((sourceNodes ++ stepNodes).filter fun node => node.stepType ≠ "source") = stepNodes := by
  have hsources : (sourceNodes.filter fun node => node.stepType ≠ "source") = [] :=
    List.filter_eq_nil_iff.mpr fun node hm hother => by
    obtain ⟨source, -, hopens⟩ := ho.source_shown hm
    exact (of_decide_eq_true hother) hopens.kind_eq
  have hsteps : (stepNodes.filter fun node => node.stepType ≠ "source") = stepNodes := List.filter_eq_self.mpr fun node hm => by
    obtain ⟨step, -, hopens⟩ := ho.step_shown hm
    refine decide_eq_true fun hsource => ?_
    have hknown := hopens.known
    rw [hsource] at hknown
    exact absurd hknown (by decide)
  rw [List.filter_append, hsources, hsteps, List.nil_append]

def Savable (step : Value) : Prop :=
  (step.getStr "type" = some "route" → ∀ branches, step.get "branches" = some (.object branches) →
    ∀ label ∈ Members.keys branches, trim label ≠ "") ∧
  (step.getStr "type" = some "pipeline" → ∃ reference, step.get "pipeline_ref" = some (.object reference))

/-- What it takes for an accepted definition to be opened and saved as it is. -/
structure Keeps (d : Value) (sources steps : List Value) : Prop where
  openable : Openable d sources steps
  single : ∀ step ∈ steps, (inputNames step).Nodup
  ends : TransfersEnd steps
  savable : ∀ step ∈ steps, Savable step
  unbranched : ∀ step ∈ steps, step.getStr "type" ≠ some "route" →
    step.get "branches" = none ∨ step.get "branches" = some (.object [])
  types : ∀ source ∈ sources, ListOrFalsy (source.get "content_types")

end Definitions

section Kept

variable (ho : Opened sources steps sourceNodes stepNodes (links steps)) (ha : Authored d sources steps)

include ho ha

theorem Opened.ends_of_checked (h : Accepts ((links steps).foldlM (checkEdge (sourceNodes ++ stepNodes)) [])) :
    TransfersEnd steps := by
  intro transfer htransfer htype other hother hinput
  obtain ⟨node, hnode, hopens⟩ := forall₂_mem_left ho.stepsShown htransfer
  obtain ⟨e, he, -, hsource⟩ := mem_inputsOf.mp ((mem_inputsOf_links ha hother).mpr hinput)
  obtain ⟨before, after, heq⟩ := List.append_of_mem he
  obtain ⟨source, target, hconnects⟩ := foldlM_checkEdge.mp h before e after heq
  have hfound := ho.find ha (List.mem_append_right _ hnode)
  have hfind := hconnects.source_eq
  rw [hsource, hopens.id, hfound] at hfind
  obtain rfl := Option.some.inj hfind
  exact hconnects.open_.1 (Option.some.inj (hopens.kind_eq.symm.trans htype))

omit ho in
theorem inputs_accepted (hnodup : ∀ step ∈ steps, (inputNames step).Nodup) {step : Value} (hm : step ∈ steps) {node : GraphNode}
    (hopens : OpensStep step node) : (inputsOf (links steps) node.id).length = 1 ∨
      (mergesUnion node = true ∧ inputsOf (links steps) node.id ≠ []) ∨ isScheduled node.config = true := by
  have hshape := stepShape (ha.parts.2 step hm)
  obtain ⟨id, kind, inputs, hb, -⟩ := ha.wellformed.blocks step hm
  have hlength := length_inputsOf_links ha hm (hnodup step hm)
  rw [hopens.id, inputNames_block hb] at hlength
  have hfed := ha.fed step hm id kind inputs hb
  split at hfed
  · next hscheduled => exact .inr (.inr ((hopens.isScheduled hshape).trans hscheduled))
  · rcases hfed.2 with hone | hunion
    · exact .inl (hlength.trans hone)
    · refine .inr (.inl ⟨(hopens.mergesUnion hshape hb.kind_eq).mpr hunion, ?_⟩)
      rw [← List.length_pos_iff, hlength, List.length_pos_iff]
      exact hfed.1

omit ho in
theorem savedStep_iff (hnodup : ∀ step ∈ steps, (inputNames step).Nodup) {step : Value} (hm : step ∈ steps) {node : GraphNode}
    (hopens : OpensStep step node) : Accepts (savedStep (links steps) false node) ↔ Savable step := by
  have hshape := stepShape (ha.parts.2 step hm)
  have hbranches : Accepts (savedBranches (links steps) false node) ↔
      (step.getStr "type" = some "route" → ∀ branches, step.get "branches" = some (.object branches) →
        ∀ label ∈ Members.keys branches, trim label ≠ "") := by
    by_cases hroute : node.stepType = "route"
    · have htype := hopens.kind_eq.trans (congrArg some hroute)
      obtain ⟨branches, hroutes⟩ := ha.route hm hopens.id_eq htype
      rw [savedBranches_accepts ha hm hopens hroute hroutes, hroutes.listed]
      simp [htype]
    · rw [savedBranches, if_neg hroute]
      exact iff_of_true (accepts_ok _) fun htype => absurd (Option.some.inj (hopens.kind_eq.symm.trans htype)) hroute
  have hreference : (node.stepType ≠ "pipeline" ∨ (Members.field node.config "pipeline_ref").any truthy = true) ↔
      (step.getStr "type" = some "pipeline" → ∃ reference, step.get "pipeline_ref" = some (.object reference)) := by
    rw [@OpensStep.field step node hopens hshape "pipeline_ref" (by simp), hopens.kind_eq, Option.some.injEq, ← imp_iff_not_or]
    refine imp_congr_right fun _ => ?_
    cases hget : step.get "pipeline_ref" with
    | none => simp
    | some reference =>
        rcases hshape.reference reference hget with rfl | ⟨m, rfl⟩
        · simp [truthy]
        · simp [truthy]
  rw [savedStep_accepts, hbranches, Savable, ← hreference]
  constructor
  · rintro ⟨-, hlabels, htransfer⟩
    exact ⟨hlabels, htransfer.resolve_left (by simp)⟩
  · rintro ⟨hlabels, htransfer⟩
    exact ⟨.inr (inputs_accepted ha hnodup hm hopens), hlabels, .inr htransfer⟩

variable {capabilities : List CapabilityLabel}

omit ho in
theorem keeps_of_preserved (h : Preserved capabilities d) : Keeps d sources steps := by
  obtain ⟨g, saved, hg, hsaved, hsame⟩ := h
  obtain ⟨sourceNodes, stepNodes, hnodes, hopened⟩ := graph_opens ha.toDefined hg
  have hopenable := (graph_accepts ha capabilities).mp ⟨g, hg⟩
  have ho : Opened sources steps sourceNodes stepNodes (links steps) := hopened.edges_eq ha.passes ▸ hopened
  rw [hnodes, hopened.edges_eq ha.passes] at hsaved
  obtain ⟨hchecks, pipeline, hpipeline, -, rfl⟩ := definitionFromGraph_eq_ok.mp hsaved
  have hchecked := checked_of_validated (hchecks rfl).1
  have hnodup := (ha.passes.links_nodup ha.stepIds_nodup).mp (nodup_of_checked hchecked)
  rw [ho.steps_filter] at hpipeline
  obtain ⟨⟨sources', saved', hsources, hsaved', hsourcesSame⟩, steps', savedSteps, hsteps, hsavedSteps, hstepsSame⟩ := hsame
  obtain rfl := Option.some.inj (hsources.symm.trans ha.listedSources)
  obtain rfl := Option.some.inj (hsteps.symm.trans ha.listedSteps)
  have hsourceList : saved' = sourceNodes.map savedSource := by
    have hlist : (savedDefinition ((d.getStr "name").getD "") (sourceNodes ++ stepNodes) pipeline).getArray "sources" =
        some (((sourceNodes ++ stepNodes).filter fun node => node.stepType = "source").map savedSource) := rfl
    rw [ho.sources_filter] at hlist
    exact Option.some.inj (hsaved'.symm.trans hlist)
  have hstepList : savedSteps = pipeline := Option.some.inj (hsavedSteps.symm.trans rfl)
  subst hsourceList hstepList
  refine ⟨hopenable, hnodup, ho.ends_of_checked ha hchecked, fun step hm => ?_, fun step hm => ?_, fun source hm => ?_⟩
  · obtain ⟨node, hnode, hopens⟩ := forall₂_mem_left ho.stepsShown hm
    exact (savedStep_iff ha hnodup hm hopens).mp (accepts_mapM.mp ⟨_, hpipeline⟩ node hnode)
  · have hsavedFrom := forall₂_comp (fun _ node _ hopens hsaved => Exists.intro node (And.intro hopens hsaved)) ho.stepsShown
      (mapM_eq_ok.mp hpipeline)
    obtain ⟨saved, -, hsame, node, hopens, hsaved⟩ :=
      forall₂_mem_left (hstepsSame.mp (fun _ _ hs hr => And.intro hs hr) hsavedFrom) hm
    exact (Saves.same ha hm hopens (savedStep_saves hsaved)).mp hsame
  · rw [List.forall₂_map_right_iff] at hsourcesSame
    obtain ⟨node, -, hsame, hopens⟩ := forall₂_mem_left (hsourcesSame.mp (fun _ _ hs hr => And.intro hs hr) ho.sourcesShown) hm
    exact (savedSource_same hopens (ha.parts.1 source hm)).mp hsame

omit ho in
theorem preserved_of_keeps (hname : trim ((d.getStr "name").getD "") ≠ "") (hthree : transfers steps ≤ 3)
    (h : Keeps d sources steps) :
    Preserved capabilities d := by
  obtain ⟨g, hg⟩ := (graph_accepts ha capabilities).mpr h.openable
  obtain ⟨sourceNodes, stepNodes, hnodes, hopened⟩ := graph_opens ha.toDefined hg
  have ho : Opened sources steps sourceNodes stepNodes (links steps) := hopened.edges_eq ha.passes ▸ hopened
  obtain ⟨pipeline, hpipeline⟩ : Accepts (stepNodes.mapM (savedStep (links steps) false)) := by
    refine accepts_mapM.mpr fun node hnode => ?_
    obtain ⟨step, hm, hopens⟩ := ho.step_shown hnode
    exact (savedStep_iff ha h.single hm hopens).mpr (h.savable step hm)
  have hstarted : (∃ node ∈ sourceNodes ++ stepNodes, node.stepType = "source") ∨
      ∃ node ∈ sourceNodes ++ stepNodes, isScheduled node.config = true := by
    rcases ha.started with hne | ⟨step, hm, hscheduled⟩
    · obtain ⟨source, hsource⟩ := List.exists_mem_of_ne_nil _ hne
      obtain ⟨node, hnode, hopens⟩ := forall₂_mem_left ho.sourcesShown hsource
      exact .inl ⟨node, List.mem_append_left _ hnode, hopens.kind_eq⟩
    · obtain ⟨node, hnode, hopens⟩ := forall₂_mem_left ho.stepsShown hm
      exact .inr ⟨node, List.mem_append_right _ hnode, (hopens.isScheduled (stepShape (ha.parts.2 step hm))).trans hscheduled⟩
  have hsaved : definitionFromGraph ((d.getStr "name").getD "") g.nodes g.edges false =
      .ok (savedDefinition ((d.getStr "name").getD "") (sourceNodes ++ stepNodes) pipeline) := by
    rw [hnodes, hopened.edges_eq ha.passes]
    refine definitionFromGraph_eq_ok.mpr ⟨fun _ => ⟨⟨_, ho.validated ha h.single h.ends hthree⟩, hname⟩,
      pipeline, ?_, fun _ => hstarted, rfl⟩
    rw [ho.steps_filter]
    exact hpipeline
  refine ⟨g, _, hg, hsaved, ⟨sources, sourceNodes.map savedSource, ha.listedSources, ?_, ?_⟩, steps, pipeline,
    ha.listedSteps, rfl, ?_⟩
  · have hlist : (savedDefinition ((d.getStr "name").getD "") (sourceNodes ++ stepNodes) pipeline).getArray "sources" =
        some (((sourceNodes ++ stepNodes).filter fun node => node.stepType = "source").map savedSource) := rfl
    rw [hlist, ho.sources_filter]
  · rw [List.forall₂_map_right_iff]
    refine ((List.forall₂_and_left _ _).mpr ⟨fun source hm => And.intro (ha.parts.1 source hm) (h.types source hm),
      ho.sourcesShown⟩).imp ?_
    rintro source node ⟨⟨hsource, htypes⟩, hopens⟩
    exact (savedSource_same hopens hsource).mpr htypes
  · have hsavedFrom := forall₂_comp (fun _ node _ hopens hsaved => Exists.intro node (And.intro hopens hsaved)) ho.stepsShown
      (mapM_eq_ok.mp hpipeline)
    refine ((List.forall₂_and_left _ _).mpr ⟨fun step hm => hm, hsavedFrom⟩).imp ?_
    rintro step saved ⟨hm, node, hopens, hsaved⟩
    exact (Saves.same ha hm hopens (savedStep_saves hsaved)).mpr (h.unbranched step hm)

end Kept

end Saved

section Again

open Registry.Pipeline

def Kept (d : Value) : Prop := Keeps d ((d.getArray "sources").getD []) ((d.getArray "pipeline").getD [])

/-- A definition that both sides accept is the same after it was opened and saved
just if every block can be opened and none of what it says is dropped, read
differently or refused by the editor. -/
theorem opened_and_saved_iff (capabilities : List CapabilityLabel) {d : Value} (hexecutable : Accepts (validateExecutable d))
    (hparsed : Accepts (parseDefinition d)) (hkeyed : d.keyed = true) (hname : trim ((d.getStr "name").getD "") ≠ "")
    (hthree : transfers ((d.getArray "pipeline").getD []) ≤ 3) : Preserved capabilities d ↔ Kept d := by
  have hdefined : isDefinition d = true := by
    by_contra hnot
    rw [parseDefinition, if_neg hnot] at hparsed
    exact not_accepts_error _ hparsed
  obtain ⟨sources, steps, ha⟩ := authored_of_executable hexecutable hdefined hkeyed
  rw [Kept, ha.listedSources, ha.listedSteps, Option.getD_some, Option.getD_some]
  rw [ha.listedSteps, Option.getD_some] at hthree
  exact ⟨keeps_of_preserved ha, preserved_of_keeps ha hname hthree⟩

def inboxSource : Value :=
  .object [("id", .string "mail"), ("topic", .string "raw"), ("match_pattern", .string ".*"), ("schema_path", .string "mail.avsc")]

def chooseStep : Value :=
  .object [("step", .string "choose"), ("type", .string "route"), ("input_from", .array [.string "mail"]),
    ("routing", .string "regex"),
    ("branches", .object [("legal", .array [.string "store", .string "send"]), ("other", .array [.string "send"])])]

def storeStep : Value := .object [("step", .string "store"), ("type", .string "sink"), ("input_from", .array [.string "choose"])]

def sendStep (inputs : List String) : Value :=
  .object [("step", .string "send"), ("type", .string "forward"), ("input_from", .array (inputs.map .string)),
    ("params", .object [("merge", .string "union")])]

def composed (steps : List Value) : Value :=
  .object [("name", .string "legal mail"), ("sources", .array [inboxSource]), ("pipeline", .array steps)]

def chosenMail : Value := composed [chooseStep, storeStep, sendStep ["choose"]]

def repeatedMail : Value := composed [sendStep ["mail", "mail"]]

theorem opened_and_saved_iff_mail : (Preserved [] chosenMail ↔ Kept chosenMail) ∧ ¬ Preserved [] repeatedMail := by
  refine ⟨opened_and_saved_iff [] (by decide +kernel) (by decide +kernel) (by decide +kernel) (by decide +kernel)
    (by decide +kernel), ?_⟩
  rw [opened_and_saved_iff [] (by decide +kernel) (by decide +kernel) (by decide +kernel) (by decide +kernel) (by decide +kernel)]
  intro hkept
  have hsingle : (inputNames (sendStep ["mail", "mail"])).Nodup := hkept.single _ List.mem_cons_self
  exact absurd hsingle (by decide +kernel)

end Again

end Galadril.Dashboard
