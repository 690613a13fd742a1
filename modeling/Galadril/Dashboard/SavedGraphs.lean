import Galadril.Dashboard.SavedDefinitions

namespace Galadril.Dashboard

open Json Lib Lib.Checked Lib.Mapping

def textFields : List String :=
  ["account_id", "topic", "match_pattern", "schema_path", "parser", "source_kind", "group_id", "model",
    "artifact_path", "capability_id",
    "capability_version", "routing"]

structure TypedConfig (config : Members) : Prop where
  texts : ∀ key ∈ textFields, ∀ v, Members.field config key = some v → ∃ text, v = .string text
  lists : ∀ key ∈ ["content_types", "branch_labels"], ∀ v, Members.field config key = some v →
    ∃ texts : List String, v = .array (texts.map .string)
  params : ∀ v, Members.field config "params" = some v → ∃ m, v = .object m
  reference : ∀ v, Members.field config "pipeline_ref" = some v →
    v.isObject = true ∧ hasTexts v ["pipeline_id", "revision_id", "input_source"] = true

def Labelled (nodes : List GraphNode) (edges : List GraphEdge) : Prop :=
  ∀ e ∈ edges, ∀ node ∈ nodes, node.id = e.source → node.stepType = "route" →
    ∃ labels, branchLabels node.config = .ok labels ∧ ∃ label ∈ labels, e.sourceHandle = some label

def leavesRoute (nodes : List GraphNode) (e : GraphEdge) : Bool :=
  nodes.any fun node => node.id == e.source && node.stepType == "route"

def shownHandle (handle : Option String) : Option String := if namesHandle handle then handle else none

def shownLink (nodes : List GraphNode) (e : GraphEdge) : GraphEdge :=
  { e with sourceHandle := if leavesRoute nodes e then e.sourceHandle else shownHandle e.sourceHandle
           targetHandle := shownHandle e.targetHandle }

structure SameBlock (node node' : GraphNode) : Prop where
  id : node'.id = node.id
  kind : node'.stepType = node.stepType
  config : ∀ key, Members.field node'.config key = Members.field node.config key

def Restored (capabilities : List CapabilityLabel) (name : String) (nodes : List GraphNode) (edges : List GraphEdge) : Prop :=
  ∃ saved g, draftFromGraph name nodes edges = .ok saved ∧ graphFromDefinition capabilities saved = .ok g ∧
    (∀ node ∈ nodes, ∃ node' ∈ g.nodes, SameBlock node node') ∧ (∀ node' ∈ g.nodes, ∃ node ∈ nodes, SameBlock node node') ∧
      (g.edges.map (shownLink g.nodes)).Perm (edges.map (shownLink nodes))

def sourceKept : List String :=
  ["account_id", "capability_id", "capability_version", "parser", "source_kind", "group_id", "content_types"]

def sourceDefaults : List (String × String) :=
  [("topic", "raw"), ("match_pattern", ".*"), ("schema_path", "schemas/avro/text.avsc")]

/-- The fields of a step beside its parameters and labels. -/
def stepKept : List String :=
  ["ontology_required", "model", "capability_id", "capability_version", "artifact_path", "routing", "pipeline_ref"]

structure RestorableSource (config : Members) : Prop where
  known : ∀ key, key ∉ sourceKept → key ∉ sourceDefaults.map Prod.fst → Members.field config key = none
  complete : ∀ key ∈ sourceDefaults.map Prod.fst, Members.field config key ≠ none

structure RestorableStep (node : GraphNode) : Prop where
  known : ∀ key, key ∉ stepKept → key ≠ "params" → key ≠ "branch_labels" → Members.field node.config key = none
  params : ∃ params, Members.field node.config "params" = some params
  labels : if node.stepType = "route" then
      ∃ labels : List String, Members.field node.config "branch_labels" = some (.array (labels.map .string)) ∧
        propertyOrder labels = labels
    else Members.field node.config "branch_labels" = none

structure Restorable (nodes : List GraphNode) (edges : List GraphEdge) : Prop where
  distinct : (nodes.map GraphNode.id).Nodup
  kinds : ∀ node ∈ nodes, node.stepType ≠ "source" → node.stepType ∈ storedKinds
  shallow : ∀ node ∈ nodes, node.stepType ≠ "source" → ∀ params, Members.field node.config "params" = some params →
    isJson 0 params = true
  single : (edges.map (shownLink nodes)).Nodup
  targets : ∀ e ∈ edges, ∃ node ∈ nodes, node.id = e.target ∧ node.stepType ≠ "source"
  plain : ∀ e ∈ edges, namesHandle e.targetHandle = false ∧ (leavesRoute nodes e = false → namesHandle e.sourceHandle = false)
  sources : ∀ node ∈ nodes, node.stepType = "source" → RestorableSource node.config
  steps : ∀ node ∈ nodes, node.stepType ≠ "source" → RestorableStep node

section Drafts

variable {name : String} {nodes : List GraphNode} {edges : List GraphEdge} {pipeline : List Value}

def Drafted (nodes : List GraphNode) (edges : List GraphEdge) (pipeline : List Value) : Prop :=
  List.Forall₂ (fun node saved => savedStep edges true node = .ok saved)
    (nodes.filter fun node => node.stepType ≠ "source") pipeline

theorem draftFromGraph_eq_ok {saved : Value} : draftFromGraph name nodes edges = .ok saved ↔
    ∃ pipeline, Drafted nodes edges pipeline ∧ saved = savedDefinition name nodes pipeline := by
  rw [draftFromGraph, definitionFromGraph_eq_ok]
  simp only [Bool.true_eq_false, false_implies, true_and, mapM_eq_ok, Drafted]

theorem Drafted.saves (hd : Drafted nodes edges pipeline) {saved : Value} (hm : saved ∈ pipeline) :
    ∃ node ∈ nodes, node.stepType ≠ "source" ∧ Saves edges true node saved := by
  obtain ⟨node, hnode, hsaved⟩ := forall₂_mem_right hd hm
  obtain ⟨hnode, hkind⟩ := List.mem_filter.mp hnode
  exact ⟨node, hnode, of_decide_eq_true hkind, savedStep_saves hsaved⟩

theorem Drafted.saved (hd : Drafted nodes edges pipeline) {node : GraphNode} (hm : node ∈ nodes)
    (hkind : node.stepType ≠ "source") :
    ∃ saved ∈ pipeline, Saves edges true node saved := by
  obtain ⟨saved, hsaved, hstep⟩ := forall₂_mem_left hd (List.mem_filter.mpr ⟨hm, decide_eq_true hkind⟩)
  exact ⟨saved, hsaved, savedStep_saves hstep⟩

theorem Saves.id_eq {draft : Bool} {node : GraphNode} {saved : Value} (h : Saves edges draft node saved) :
    stepId saved = node.id := by
  rw [stepId, Value.getStr, h.step]
  rfl

theorem Saves.inputNames_eq {draft : Bool} {node : GraphNode} {saved : Value} (h : Saves edges draft node saved) :
    inputNames saved = inputsOf edges node.id := by
  rw [inputNames, Value.getArray, h.inputs]
  simp [Value.asArray, List.filterMap_map, Function.comp_def, Value.asStr]

theorem Saves.getStr_step {draft : Bool} {node : GraphNode} {saved : Value} (h : Saves edges draft node saved) :
    saved.getStr "step" = some node.id ∧ saved.getStr "type" = some node.stepType := by
  rw [Value.getStr, Value.getStr, h.step, h.kind]
  exact ⟨rfl, rfl⟩

theorem Saves.route {draft : Bool} {node : GraphNode} {saved : Value} (h : Saves edges draft node saved)
    (hroute : node.stepType = "route") :
    ∃ labels branches, branchLabels node.config = .ok labels ∧ saved.get "branches" = some (.object branches) ∧
      Members.keys branches = propertyOrder labels ∧
      ∀ label ∈ labels, Members.field branches label = some (.array ((branchTargets edges node.id label).map .string)) := by
  have hbranches := h.branches
  cases hlabels : branchLabels node.config with
  | error message =>
      rw [savedBranches, if_pos hroute, hlabels] at hbranches
      cases hbranches
  | ok labels =>
      obtain ⟨branches, hsaved, hkeys, hfields⟩ := savedBranches_route hroute hlabels hbranches
      exact ⟨labels, branches, rfl, hsaved, hkeys, hfields⟩

theorem Saves.plain {draft : Bool} {node : GraphNode} {saved : Value} (h : Saves edges draft node saved)
    (hroute : node.stepType ≠ "route") :
    saved.get "branches" = none := by
  have hbranches := h.branches
  rw [savedBranches, if_neg hroute] at hbranches
  exact (Except.ok.inj hbranches).symm

/-- The labels under which a saved route leads to a block. -/
theorem mem_labelsFor_saved {id : String} {labels : List String} {branches : Members}
    (hkeys : Members.keys branches = propertyOrder labels)
    (hfields : ∀ label ∈ labels, Members.field branches label = some (.array ((branchTargets edges id label).map .string)))
    {label target : String} : label ∈ labelsFor branches target ↔ label ∈ labels ∧ target ∈ branchTargets edges id label := by
  have hnodup : (Members.keys branches).Nodup := hkeys ▸ nodup_propertyOrder labels
  rw [mem_labelsFor]
  constructor
  · rintro ⟨⟨label, v⟩, hentry, rfl, hnamed⟩
    have hlabel : label ∈ labels := by
      rw [← mem_propertyOrder, ← hkeys]
      exact List.mem_map.mpr ⟨_, hentry, rfl⟩
    have hv := (Members.field_of_mem hnodup hentry).symm.trans (hfields label hlabel)
    rw [named_list (Option.some.inj hv)] at hnamed
    exact ⟨hlabel, hnamed⟩
  · rintro ⟨hlabel, htarget⟩
    refine ⟨_, Members.mem_of_field (hfields label hlabel), rfl, ?_⟩
    rwa [@named_list (label, _) _ rfl]

theorem lists_saved {id : String} {labels : List String} {branches : Members} (hkeys : Members.keys branches = propertyOrder labels)
    (hfields : ∀ label ∈ labels, Members.field branches label = some (.array ((branchTargets edges id label).map .string)))
    {entry : String × Value} (hentry : entry ∈ branches) : ∃ targets : List String, entry.2 = .array (targets.map .string) := by
  have hnodup : (Members.keys branches).Nodup := hkeys ▸ nodup_propertyOrder labels
  have hlabel : entry.1 ∈ labels := by
    rw [← mem_propertyOrder, ← hkeys]
    exact List.mem_map_of_mem hentry
  exact ⟨_, Option.some.inj ((Members.field_of_mem hnodup hentry).symm.trans (hfields _ hlabel))⟩

/-- The inputs of a saved draft are passed on under some labels. -/
theorem Drafted.passes (hd : Drafted nodes edges pipeline) : Passes pipeline := by
  intro source id
  cases hfound : pipeline.find? (fun candidate => candidate.getStr "step" = some source) with
  | none => exact ⟨[none], by rw [passedLabels, hfound], by simp, List.nodup_singleton none⟩
  | some parent =>
      obtain ⟨node, hnode, hkind, hsaves⟩ := hd.saves (List.mem_of_find?_eq_some hfound)
      by_cases hroute : node.stepType = "route"
      · obtain ⟨labels, branches, -, hlisted, hkeys, hfields⟩ := hsaves.route hroute
        have htype : parent.getStr "type" = some "route" := hsaves.getStr_step.2.trans (congrArg some hroute)
        have hnodup : (labelsFor branches id).Nodup :=
          (List.filter_sublist.map Prod.fst).nodup (show (Members.keys branches).Nodup from hkeys ▸ nodup_propertyOrder labels)
        refine ⟨_, passedLabels_lists hfound htype hlisted (fun entry hentry => lists_saved hkeys hfields hentry) id, ?_, ?_⟩
        · split
          · simp
          · next hne => simpa using hne
        · split
          · exact List.nodup_singleton none
          · exact hnodup.map (Option.some_injective _)
      · have htype : parent.getStr "type" ≠ some "route" := by
          rw [hsaves.getStr_step.2]
          exact fun heq => hroute (Option.some.inj heq)
        refine ⟨[none], ?_, by simp, List.nodup_singleton none⟩
        rw [passedLabels, hfound]
        simp only [if_neg htype]

theorem Drafted.ids (hd : Drafted nodes edges pipeline) :
    pipeline.map stepId = (nodes.filter fun node => node.stepType ≠ "source").map GraphNode.id := by
  have hall : ∀ drawn, List.Forall₂ (fun node saved => savedStep edges true node = .ok saved) drawn pipeline →
      pipeline.map stepId = drawn.map GraphNode.id := by
    clear hd
    intro drawn hd
    induction hd with
    | nil => rfl
    | cons hsaved _ ih => rw [List.map_cons, List.map_cons, ih, (savedStep_saves hsaved).id_eq]
  exact hall _ hd

theorem Drafted.labelsOf_plain (hd : Drafted nodes edges pipeline) {e : GraphEdge}
    (hplain : leavesRoute nodes e = false) (id : String) :
    labelsOf pipeline e.source id = [none] := by
  refine Dashboard.labelsOf_plain (fun saved hsaved hstep htype => ?_) id
  obtain ⟨node, hnode, -, hsaves⟩ := hd.saves hsaved
  have hid : node.id = e.source := Option.some.inj (hsaves.getStr_step.1.symm.trans hstep)
  have hroute : node.stepType = "route" := Option.some.inj (hsaves.getStr_step.2.symm.trans htype)
  rw [leavesRoute, List.any_eq_false] at hplain
  exact hplain node hnode (by simp [hid, hroute])

theorem Drafted.mem_inputNames (hd : Drafted nodes edges pipeline) {e : GraphEdge} (he : e ∈ edges)
    {node : GraphNode} (hnode : node ∈ nodes)
    (hkind : node.stepType ≠ "source") (htarget : node.id = e.target) :
    ∃ saved ∈ pipeline, stepId saved = e.target ∧ e.source ∈ inputNames saved := by
  obtain ⟨saved, hsaved, hsaves⟩ := hd.saved hnode hkind
  refine ⟨saved, hsaved, hsaves.id_eq.trans htarget, ?_⟩
  rw [hsaves.inputNames_eq, mem_inputsOf]
  exact ⟨e, he, htarget.symm, rfl⟩

variable (hd : Drafted nodes edges pipeline) (hdistinct : (nodes.map GraphNode.id).Nodup)

include hd hdistinct

theorem Drafted.ids_nodup : (pipeline.map stepId).Nodup := by
  rw [hd.ids]
  exact (List.filter_sublist.map GraphNode.id).nodup hdistinct

theorem Drafted.links_nodup : (links pipeline).Nodup := by
  refine (hd.passes.links_nodup (hd.ids_nodup hdistinct)).mpr fun saved hsaved => ?_
  obtain ⟨node, -, -, hsaves⟩ := hd.saves hsaved
  rw [hsaves.inputNames_eq]
  exact Lookup.nodup_eraseDups _

/-- The labels of the links from a route are those of its branches that lead to the block. -/
theorem Drafted.labelsOf_route {node : GraphNode} (hnode : node ∈ nodes) (hroute : node.stepType = "route") :
    ∃ labels, branchLabels node.config = .ok labels ∧ ∀ id, ∃ found : List String,
      (∀ label, label ∈ found ↔ label ∈ labels ∧ id ∈ branchTargets edges node.id label) ∧
        labelsOf pipeline node.id id = if found = [] then [none] else found.map some := by
  obtain ⟨saved, hsaved, hsaves⟩ := hd.saved hnode (by rw [hroute]; decide)
  obtain ⟨labels, branches, hlabels, hlisted, hkeys, hfields⟩ := hsaves.route hroute
  have hfound : pipeline.find? (fun candidate => candidate.getStr "step" = some node.id) = some saved := by
    obtain ⟨parent, hparent⟩ : ∃ parent, pipeline.find? (fun candidate => candidate.getStr "step" = some node.id) = some parent :=
      Option.isSome_iff_exists.mp (List.find?_isSome.mpr ⟨saved, hsaved, by simpa using hsaves.getStr_step.1⟩)
    have hid : parent.getStr "step" = some node.id := by simpa using List.find?_some hparent
    have hid' : stepId parent = stepId saved := by rw [stepId, hid, hsaves.id_eq]; rfl
    rw [hparent, List.inj_on_of_nodup_map (hd.ids_nodup hdistinct) (List.mem_of_find?_eq_some hparent) hsaved hid']
  refine ⟨labels, hlabels, fun id => ⟨labelsFor branches id, fun label => mem_labelsFor_saved hkeys hfields, ?_⟩⟩
  rw [labelsOf, passedLabels_lists hfound (hsaves.getStr_step.2.trans (congrArg some hroute)) hlisted
    (fun entry hentry => lists_saved hkeys hfields hentry) id]

/-- A link is saved if it leads to a step and its handles say nothing that is not saved. -/
theorem Drafted.mem_links_of (hlabelled : Labelled nodes edges) {e : GraphEdge} (he : e ∈ edges)
    (htarget : ∃ node ∈ nodes, node.id = e.target ∧ node.stepType ≠ "source")
    (hplain : namesHandle e.targetHandle = false ∧ (leavesRoute nodes e = false → namesHandle e.sourceHandle = false)) :
    shownLink nodes e ∈ links pipeline := by
  obtain ⟨node, hnode, hid, hkind⟩ := htarget
  obtain ⟨saved, hsaved, hstep, hinput⟩ := hd.mem_inputNames he hnode hkind hid
  refine mem_links.mpr ⟨saved, hsaved, hstep.symm, hinput, ?_, by simp [shownLink, shownHandle, hplain.1]⟩
  by_cases hleaves : leavesRoute nodes e = true
  · rw [leavesRoute, List.any_eq_true] at hleaves
    obtain ⟨route, hroute, hmatch⟩ := hleaves
    simp only [Bool.and_eq_true, beq_iff_eq] at hmatch
    obtain ⟨labels, hlabels, label, hlabel, hhandle⟩ := hlabelled e he route hroute hmatch.1 hmatch.2
    obtain ⟨labels', hlabels', hof⟩ := hd.labelsOf_route hdistinct hroute hmatch.2
    obtain rfl := Except.ok.inj (hlabels.symm.trans hlabels')
    obtain ⟨found, hfound, heq⟩ := hof e.target
    have hmem : label ∈ found := (hfound label).mpr ⟨hlabel, mem_branchTargets.mpr ⟨e, he, hmatch.1.symm, hhandle, rfl⟩⟩
    have hleaves : leavesRoute nodes e = true := List.any_eq_true.mpr ⟨route, hroute, by simp [hmatch]⟩
    simp only [shownLink, hleaves, if_true]
    rw [← hmatch.1, heq, if_neg (List.ne_nil_of_mem hmem), hhandle]
    exact List.mem_map_of_mem hmem
  · have hleaves : leavesRoute nodes e = false := by simpa using hleaves
    simp only [shownLink, hleaves, Bool.false_eq_true, if_false, shownHandle, hplain.2 hleaves]
    rw [hd.labelsOf_plain hleaves]
    exact List.mem_singleton_self none

theorem Drafted.mem_edges_of (hlabelled : Labelled nodes edges) {e' : GraphEdge} (he' : e' ∈ links pipeline)
    (hplain : ∀ e ∈ edges, namesHandle e.targetHandle = false ∧
      (leavesRoute nodes e = false → namesHandle e.sourceHandle = false)) :
    e' ∈ edges.map (shownLink nodes) := by
  obtain ⟨saved, hsaved, htarget, hsource, hhandle, htargetHandle⟩ := mem_links.mp he'
  obtain ⟨node, hnode, hkind, hsaves⟩ := hd.saves hsaved
  rw [hsaves.inputNames_eq, mem_inputsOf] at hsource
  obtain ⟨e, he, hid, hsource⟩ := hsource
  rw [hsaves.id_eq] at htarget
  by_cases hleaves : leavesRoute nodes e = true
  · have hany := hleaves
    rw [leavesRoute, List.any_eq_true] at hany
    obtain ⟨route, hroute, hmatch⟩ := hany
    simp only [Bool.and_eq_true, beq_iff_eq] at hmatch
    obtain ⟨labels, hlabels, label, hlabel, hdrawn⟩ := hlabelled e he route hroute hmatch.1 hmatch.2
    obtain ⟨labels', hlabels', hof⟩ := hd.labelsOf_route hdistinct hroute hmatch.2
    obtain rfl := Except.ok.inj (hlabels.symm.trans hlabels')
    obtain ⟨found, hfound, heq⟩ := hof e'.target
    have hmem : label ∈ found := by
      refine (hfound label).mpr ⟨hlabel, mem_branchTargets.mpr ⟨e, he, hmatch.1.symm, hdrawn, ?_⟩⟩
      rw [hid, htarget]
    rw [← hsource, ← hmatch.1, heq, if_neg (List.ne_nil_of_mem hmem), List.mem_map] at hhandle
    obtain ⟨label', hlabel', hhandle⟩ := hhandle
    obtain ⟨-, htargets⟩ := (hfound label').mp hlabel'
    obtain ⟨drawn, hdrawnMem, hsource', hhandle', htarget'⟩ := mem_branchTargets.mp htargets
    have hleaves' : leavesRoute nodes drawn = true := List.any_eq_true.mpr ⟨route, hroute, by simp [hmatch.2, hsource']⟩
    refine List.mem_map.mpr ⟨drawn, hdrawnMem, ?_⟩
    obtain ⟨source, target, handle, targetHandle⟩ := e'
    simp only [shownLink, hleaves', if_true, shownHandle, (hplain drawn hdrawnMem).1, Bool.false_eq_true, if_false]
    simp only at hhandle htargetHandle htarget' hsource
    rw [hsource', hhandle', htarget', hmatch.1, hsource, hhandle, htargetHandle]
  · have hleaves : leavesRoute nodes e = false := by simpa using hleaves
    rw [← hsource, hd.labelsOf_plain hleaves, List.mem_singleton] at hhandle
    refine List.mem_map.mpr ⟨e, he, ?_⟩
    obtain ⟨source, target, handle, targetHandle⟩ := e'
    simp only [shownLink, hleaves, Bool.false_eq_true, if_false, shownHandle, (hplain e he).1, (hplain e he).2 hleaves]
    simp only at hhandle htargetHandle htarget hsource
    rw [hsource, hid, ← htarget, hhandle, htargetHandle]

end Drafts

variable {edges : List GraphEdge} {node node' : GraphNode}

theorem field_copied_none {config copied : Members} (h : copyConfig config = .ok copied) {key : String}
    (hnone : Members.field config key = none) : Members.field copied key = none := by
  rcases field_copyConfig h key with ⟨-, hcopied⟩ | ⟨v, w, hv, -, -⟩
  · exact hcopied
  · rw [hnone] at hv
    cases hv

theorem savedSource_other (node : GraphNode) {key : String} (hid : key ≠ "id") (hkept : key ∉ sourceKept)
    (hdefault : key ∉ sourceDefaults.map Prod.fst) : (savedSource node).get key = none := by
  rw [savedSource, Value.get]
  refine field_present_absent fun hmem => ?_
  simp only [sourceKept, sourceDefaults, List.map_cons, List.map_nil, List.mem_cons, List.not_mem_nil,
    or_false] at hmem hkept hdefault
  tauto

/-- A source is restored just if it says only what is saved of it. -/
theorem sameBlock_source (h : OpensSource (savedSource node) node') (ht : TypedConfig node.config)
    (hkind : node.stepType = "source") :
    SameBlock node node' ↔ RestorableSource node.config := by
  have hid : node'.id = node.id := by
    have hget := Value.getStr_eq_some.mp h.id_eq
    rw [savedSource_id] at hget
    exact (Value.string.inj (Option.some.inj hget)).symm
  have hkept : ∀ key ∈ sourceKept, Members.field node'.config key = Members.field node.config key := by
    intro key hkey
    rw [← savedSource_get node hkey]
    by_cases htypes : key = "content_types"
    · subst htypes
      refine (h.types rfl).mpr fun v hv => ?_
      rw [savedSource_get node hkey] at hv
      obtain ⟨texts, rfl⟩ := ht.lists "content_types" (by simp) v hv
      exact .inr ⟨_, rfl⟩
    · refine h.field rfl ?_
      simp only [sourceKept, List.mem_cons, List.not_mem_nil, or_false] at hkey
      rcases hkey with rfl | rfl | rfl | rfl | rfl | rfl | rfl <;> simp at htypes ⊢
  have hdefault : ∀ key text, (key, text) ∈ sourceDefaults →
      Members.field node'.config key = some ((nullish (Members.field node.config key)).getD (.string text)) := by
    intro key text hkey
    rw [← savedSource_getD node hkey]
    refine h.field rfl ?_
    simp only [sourceDefaults, List.mem_cons, List.not_mem_nil, or_false, Prod.mk.injEq] at hkey
    rcases hkey with ⟨rfl, rfl⟩ | ⟨rfl, rfl⟩ | ⟨rfl, rfl⟩ <;> simp
  have hother : ∀ key, key ∉ sourceKept → key ∉ sourceDefaults.map Prod.fst → Members.field node'.config key = none := by
    intro key hnotKept hnotDefault
    refine field_copied_none h.copied ?_
    by_cases hkey : key = "id"
    · exact field_without_mem (by simp [hkey]) _
    · rw [field_without rfl (by simpa using hkey)]
      exact savedSource_other node hkey hnotKept hnotDefault
  constructor
  · rintro ⟨-, -, hconfig⟩
    refine ⟨fun key hnotKept hnotDefault => ?_, fun key hkey => ?_⟩
    · rw [← hconfig, hother key hnotKept hnotDefault]
    · obtain ⟨⟨key, text⟩, hmem, rfl⟩ := List.mem_map.mp hkey
      rw [← hconfig, hdefault key text hmem]
      simp
  · intro hr
    refine ⟨hid, h.kind_eq.trans hkind.symm, fun key => ?_⟩
    by_cases hkeyKept : key ∈ sourceKept
    · exact hkept key hkeyKept
    by_cases hkeyDefault : key ∈ sourceDefaults.map Prod.fst
    · obtain ⟨v, hv⟩ := Option.ne_none_iff_exists'.mp (hr.complete key hkeyDefault)
      have htext : key ∈ textFields := by
        simp only [sourceDefaults, List.map_cons, List.map_nil, List.mem_cons, List.not_mem_nil, or_false] at hkeyDefault
        rcases hkeyDefault with rfl | rfl | rfl <;> decide
      obtain ⟨text, rfl⟩ := ht.texts key htext v hv
      obtain ⟨⟨key, default⟩, hmem, rfl⟩ := List.mem_map.mp hkeyDefault
      rw [hdefault key default hmem, nullish_text hv]
    · rw [hother key hkeyKept hkeyDefault, hr.known key hkeyKept hkeyDefault]

section Steps

variable {saved : Value} {draft : Bool} (h : OpensStep saved node') (hs : Saves edges draft node saved) (hshape : StepShape saved)

include h hs hshape

theorem reopened_kept {key : String} (hkey : key ∈ stepKept) : Members.field node'.config key = Members.field node.config key := by
  rw [← hs.kept key hkey]
  refine h.field hshape ?_
  simp only [stepKept, List.mem_cons, List.not_mem_nil, or_false] at hkey
  rcases hkey with rfl | rfl | rfl | rfl | rfl | rfl | rfl <;> simp

theorem reopened_params :
    Members.field node'.config "params" = some ((nullish (Members.field node.config "params")).getD (.object [])) := by
  rw [← hs.params]
  exact h.field hshape (by simp)

theorem reopened_other {key : String} (hkept : key ∉ stepKept) (hparams : key ≠ "params") (hlabels : key ≠ "branch_labels") :
    Members.field node'.config key = none := by
  refine field_copied_none h.copied ?_
  by_cases hremoved : key ∈ ["step", "type", "input_from", "branches"]
  · rw [stepConfig]
    split
    · exact field_without_mem hremoved _
    · rw [Members.field_insert, if_neg (Ne.symm hlabels)]
      exact field_without_mem hremoved _
  · rw [field_stepConfig hshape.object]
    · refine hs.others key ?_
      simp only [stepKept, List.mem_cons, List.not_mem_nil, or_false] at hkept hremoved ⊢
      tauto
    · simp only [List.mem_cons, List.not_mem_nil, or_false] at hremoved ⊢
      tauto

theorem reopened_unlabelled (hroute : node.stepType ≠ "route") : Members.field node'.config "branch_labels" = none := by
  refine field_copied_none h.copied ?_
  have hfilter : (saved.get "branches").filter truthy = none := by
    rw [hs.plain hroute]
    rfl
  rw [field_stepConfig_labels hshape.object, hfilter]
  exact hs.others "branch_labels" (by simp)

/-- A step is restored just if it says only what is saved of it, and a route with
its labels in the order of properties. -/
theorem sameBlock_step (ht : TypedConfig node.config) : SameBlock node node' ↔ RestorableStep node := by
  have hid : node'.id = node.id := Option.some.inj (h.id_eq.symm.trans hs.getStr_step.1)
  have hkind : node'.stepType = node.stepType := Option.some.inj (h.kind_eq.symm.trans hs.getStr_step.2)
  constructor
  · rintro ⟨-, -, hconfig⟩
    refine ⟨fun key hkept hparams hlabels => ?_, ?_, ?_⟩
    · rw [← hconfig, reopened_other h hs hshape hkept hparams hlabels]
    · exact ⟨_, (hconfig "params").symm.trans (reopened_params h hs hshape)⟩
    · split
      · next hroute =>
        obtain ⟨labels, branches, hlabels, hlisted, hkeys, -⟩ := hs.route hroute
        have hfield := (hconfig "branch_labels").symm.trans (h.labels hshape hlisted)
        have hsame : labels = Members.keys branches := Except.ok.inj (hlabels.symm.trans (branchLabels_list hfield))
        exact ⟨_, hfield, by rw [← hsame, ← hkeys, hsame]⟩
      · next hroute => rw [← hconfig, reopened_unlabelled h hs hshape hroute]
  · intro hr
    refine ⟨hid, hkind, fun key => ?_⟩
    by_cases hkept : key ∈ stepKept
    · exact reopened_kept h hs hshape hkept
    by_cases hparams : key = "params"
    · subst hparams
      obtain ⟨params, hget⟩ := hr.params
      obtain ⟨m, rfl⟩ := ht.params params hget
      rw [reopened_params h hs hshape, hget]
      rfl
    by_cases hlabels : key = "branch_labels"
    · subst hlabels
      have hrestored := hr.labels
      by_cases hroute : node.stepType = "route"
      · rw [if_pos hroute] at hrestored
        obtain ⟨labels, hfield, horder⟩ := hrestored
        obtain ⟨labels', branches, hlabels', hlisted, hkeys, -⟩ := hs.route hroute
        obtain rfl := Except.ok.inj ((branchLabels_list hfield).symm.trans hlabels')
        rw [h.labels hshape hlisted, hkeys, horder, hfield]
      · rw [if_neg hroute] at hrestored
        rw [reopened_unlabelled h hs hshape hroute, hrestored]
    · rw [reopened_other h hs hshape hkept hparams hlabels, hr.known key hkept hparams hlabels]

end Steps

section Again

variable {capabilities : List CapabilityLabel} {name : String} {nodes : List GraphNode} {edges : List GraphEdge}
  {pipeline : List Value}

def draftSources (nodes : List GraphNode) : List Value := (nodes.filter fun node => node.stepType = "source").map savedSource

theorem filter_perm (nodes : List GraphNode) :
    ((nodes.filter fun node => node.stepType = "source") ++ nodes.filter fun node => node.stepType ≠ "source").Perm nodes := by
  have hperm := List.filter_append_perm (fun node : GraphNode => decide (node.stepType = "source")) nodes
  simpa using hperm

theorem Drafted.nodeIds_perm (hd : Drafted nodes edges pipeline) :
    (Registry.Pipeline.nodeIds (draftSources nodes) pipeline).Perm (nodes.map GraphNode.id) := by
  have hsources : Registry.Pipeline.sourceIds (draftSources nodes) =
    (nodes.filter fun node => node.stepType = "source").map GraphNode.id := by
    rw [Registry.Pipeline.sourceIds, draftSources, List.filterMap_map, ← List.filterMap_eq_map]
    refine List.filterMap_congr fun node _ => ?_
    simp [Value.getStr, savedSource_id, Value.asStr]
  have hsteps : Registry.Pipeline.stepIds pipeline = (nodes.filter fun node => node.stepType ≠ "source").map GraphNode.id := by
    rw [← hd.ids, Registry.Pipeline.stepIds, ← List.filterMap_eq_map]
    refine List.filterMap_congr fun saved hsaved => ?_
    obtain ⟨node, -, -, hsaves⟩ := hd.saves hsaved
    rw [hsaves.getStr_step.1, Function.comp_apply, hsaves.id_eq]
  rw [Registry.Pipeline.nodeIds, hsources, hsteps, ← List.map_append]
  exact (filter_perm nodes).map GraphNode.id

structure Reopens (nodes : List GraphNode) (edges : List GraphEdge) (pipeline : List Value) (g : StoredGraph) : Prop where
  source : ∀ node ∈ nodes, node.stepType = "source" → ∃ node' ∈ g.nodes, OpensSource (savedSource node) node'
  step : ∀ node ∈ nodes, node.stepType ≠ "source" →
    ∃ saved ∈ pipeline, Saves edges true node saved ∧ StepShape saved ∧ isStepDefinition saved = true ∧
      ∃ node' ∈ g.nodes, OpensStep saved node'
  shown : ∀ node' ∈ g.nodes, ∃ node ∈ nodes, node'.id = node.id ∧ node'.stepType = node.stepType
  distinct : (g.nodes.map GraphNode.id).Nodup
  edges_eq : g.edges = links pipeline

theorem defined_of_graph {d : Value} {g : StoredGraph} (hg : graphFromDefinition capabilities d = .ok g) :
    isDefinition d = true := by
  simp only [graphFromDefinition, bind_eq_ok, parseDefinition] at hg
  obtain ⟨definition, hparsed, -⟩ := hg
  split at hparsed
  · assumption
  · cases hparsed

theorem Drafted.reopens (hd : Drafted nodes edges pipeline) {g : StoredGraph}
    (hg : graphFromDefinition capabilities (savedDefinition name nodes pipeline) = .ok g) : Reopens nodes edges pipeline g := by
  have hdefined : Defined (savedDefinition name nodes pipeline) (draftSources nodes) pipeline := ⟨rfl, rfl, defined_of_graph hg⟩
  obtain ⟨sourceNodes, stepNodes, hnodes, ho⟩ := graph_opens hdefined hg
  obtain ⟨-, -, -, hdistinct, -⟩ := (hdefined.graph_accepts capabilities).mp ⟨g, hg⟩
  have hsources := ho.sourcesShown
  rw [draftSources, List.forall₂_map_left_iff] at hsources
  refine ⟨fun node hm hkind => ?_, fun node hm hkind => ?_, fun node' hm => ?_, ?_, ho.edges_eq hd.passes⟩
  · obtain ⟨node', hnode', hopens⟩ := forall₂_mem_left hsources (List.mem_filter.mpr ⟨hm, decide_eq_true hkind⟩)
    exact ⟨node', hnodes ▸ List.mem_append_left _ hnode', hopens⟩
  · obtain ⟨saved, hsaved, hsaves⟩ := hd.saved hm hkind
    obtain ⟨node', hnode', hopens⟩ := forall₂_mem_left ho.stepsShown hsaved
    have hstep := hdefined.parts.2 saved hsaved
    exact ⟨saved, hsaved, hsaves, stepShape hstep, hstep, node', hnodes ▸ List.mem_append_right _ hnode', hopens⟩
  · rw [hnodes] at hm
    rcases List.mem_append.mp hm with hm | hm
    · obtain ⟨node, hnode, hopens⟩ := forall₂_mem_right hsources hm
      obtain ⟨hnode, hkind⟩ := List.mem_filter.mp hnode
      have hget := Value.getStr_eq_some.mp hopens.id_eq
      rw [savedSource_id] at hget
      exact ⟨node, hnode, (Value.string.inj (Option.some.inj hget)).symm, hopens.kind_eq.trans (of_decide_eq_true hkind).symm⟩
    · obtain ⟨saved, hsaved, hopens⟩ := ho.step_shown hm
      obtain ⟨node, hnode, hkind, hsaves⟩ := hd.saves hsaved
      exact ⟨node, hnode, Option.some.inj (hopens.id_eq.symm.trans hsaves.getStr_step.1),
        Option.some.inj (hopens.kind_eq.symm.trans hsaves.getStr_step.2)⟩
  · rw [hnodes, ho.ids]
    exact hdistinct

section Reopening

variable {g : StoredGraph} (hr : Reopens nodes edges pipeline g)

include hr

theorem Reopens.leaves (e : GraphEdge) : leavesRoute g.nodes e = leavesRoute nodes e := by
  rw [Bool.eq_iff_iff, leavesRoute, leavesRoute, List.any_eq_true, List.any_eq_true]
  simp only [Bool.and_eq_true, beq_iff_eq]
  constructor
  · rintro ⟨node', hm, hid, hroute⟩
    obtain ⟨node, hnode, hid', hkind⟩ := hr.shown node' hm
    exact ⟨node, hnode, hid'.symm.trans hid, hkind.symm.trans hroute⟩
  · rintro ⟨node, hm, hid, hroute⟩
    obtain ⟨saved, -, hsaves, -, -, node', hnode', hopens⟩ := hr.step node hm (by rw [hroute]; decide)
    exact ⟨node', hnode', (Option.some.inj (hopens.id_eq.symm.trans hsaves.getStr_step.1)).trans hid,
      (Option.some.inj (hopens.kind_eq.symm.trans hsaves.getStr_step.2)).trans hroute⟩

/-- The links of a reopened graph say no more than they show. -/
theorem Reopens.shown_edges (hd : Drafted nodes edges pipeline) : g.edges.map (shownLink g.nodes) = links pipeline := by
  rw [hr.edges_eq, List.map_congr_left, List.map_id]
  intro e he
  obtain ⟨saved, -, -, -, hhandle, htarget⟩ := mem_links.mp he
  obtain ⟨source, target, handle, targetHandle⟩ := e
  simp only at hhandle htarget
  subst htarget
  rw [shownLink, hr.leaves]
  by_cases hleaves : leavesRoute nodes ⟨source, target, handle, none⟩ = true
  · rw [if_pos hleaves]
    rfl
  · rw [@Drafted.labelsOf_plain _ _ _ hd ⟨source, target, handle, none⟩ (by simpa using hleaves), List.mem_singleton] at hhandle
    rw [if_neg hleaves, hhandle]
    rfl

theorem Reopens.unique {node' node'' : GraphNode} (hm : node' ∈ g.nodes) (hm' : node'' ∈ g.nodes) (hid : node'.id = node''.id) :
    node' = node'' := List.inj_on_of_nodup_map hr.distinct hm hm' hid

end Reopening

theorem shownHandle_eq_none {handle : Option String} (h : shownHandle handle = none) : namesHandle handle = false := by
  rw [shownHandle] at h
  cases handle with
  | none => rfl
  | some text =>
      split at h
      · cases h
      · next hnot => simpa using hnot

theorem restorable_of_restored (ht : ∀ node ∈ nodes, TypedConfig node.config) (h : Restored capabilities name nodes edges) :
    Restorable nodes edges := by
  obtain ⟨saved, g, hsaved, hg, hback, hshown, hlinks⟩ := h
  obtain ⟨pipeline, hd, rfl⟩ := draftFromGraph_eq_ok.mp hsaved
  have hr := hd.reopens hg
  have hdefined : Defined (savedDefinition name nodes pipeline) (draftSources nodes) pipeline := ⟨rfl, rfl, defined_of_graph hg⟩
  obtain ⟨-, -, -, hnodup, -⟩ := (hdefined.graph_accepts capabilities).mp ⟨g, hg⟩
  have hdistinct : (nodes.map GraphNode.id).Nodup := hd.nodeIds_perm.nodup_iff.mp hnodup
  rw [hr.shown_edges hd] at hlinks
  have hlink : ∀ e ∈ edges, shownLink nodes e ∈ links pipeline := fun e he => hlinks.mem_iff.mpr (List.mem_map_of_mem he)
  refine ⟨hdistinct, fun node hm hkind => ?_, fun node hm hkind params hget => ?_, ?_, fun e he => ?_, fun e he =>
    ⟨?_, fun hleaves => ?_⟩,
    fun node hm hkind => ?_, fun node hm hkind => ?_⟩
  · obtain ⟨saved, -, hsaves, -, -, node', -, hopens⟩ := hr.step node hm hkind
    rw [Option.some.inj (hsaves.getStr_step.2.symm.trans hopens.kind_eq)]
    exact hopens.known
  · obtain ⟨saved, -, hsaves, -, hstep, -⟩ := hr.step node hm hkind
    obtain ⟨m, rfl⟩ := (ht node hm).params params hget
    simp only [isStepDefinition, Bool.and_eq_true, Option.all_eq_true, hsaves.params, hget] at hstep
    obtain ⟨⟨⟨⟨⟨-, -⟩, -⟩, hparams⟩, -⟩, -⟩ := hstep
    exact (hparams _ rfl).2
  · exact hlinks.nodup_iff.mp (hd.links_nodup hdistinct)
  · obtain ⟨saved, hm, htarget, -⟩ := mem_links.mp (hlink e he)
    obtain ⟨node, hnode, hkind, hsaves⟩ := hd.saves hm
    exact ⟨node, hnode, hsaves.id_eq.symm.trans htarget.symm, hkind⟩
  · obtain ⟨saved, -, -, -, -, htarget⟩ := mem_links.mp (hlink e he)
    exact shownHandle_eq_none htarget
  · obtain ⟨saved, -, -, -, hhandle, -⟩ := mem_links.mp (hlink e he)
    have hplain := hd.labelsOf_plain hleaves (shownLink nodes e).target
    rw [show (shownLink nodes e).source = e.source from rfl, hplain, List.mem_singleton] at hhandle
    simp only [shownLink, hleaves, Bool.false_eq_true, if_false] at hhandle
    exact shownHandle_eq_none hhandle
  · obtain ⟨node', hnode', hsame⟩ := hback node hm
    obtain ⟨node'', hnode'', hopens⟩ := hr.source node hm hkind
    have hget := Value.getStr_eq_some.mp hopens.id_eq
    rw [savedSource_id] at hget
    obtain rfl := hr.unique hnode' hnode'' (hsame.id.trans (Value.string.inj (Option.some.inj hget)))
    exact (sameBlock_source hopens (ht node hm) hkind).mp hsame
  · obtain ⟨node', hnode', hsame⟩ := hback node hm
    obtain ⟨saved, -, hsaves, hshape, -, node'', hnode'', hopens⟩ := hr.step node hm hkind
    obtain rfl := hr.unique hnode' hnode'' (hsame.id.trans (Option.some.inj (hsaves.getStr_step.1.symm.trans hopens.id_eq)))
    exact (sameBlock_step hopens hsaves hshape (ht node hm)).mp hsame

/-- The steps of a restorable graph can be saved as a draft. -/
theorem Restorable.drafted (h : Restorable nodes edges) : ∃ pipeline, Drafted nodes edges pipeline := by
  obtain ⟨pipeline, hpipeline⟩ := accepts_mapM.mpr fun node (hnode : node ∈ nodes.filter fun node => node.stepType ≠ "source") => by
    obtain ⟨hm, hkind⟩ := List.mem_filter.mp hnode
    have hbranches : Accepts (savedBranches edges true node) := by
      rw [savedBranches]
      split
      · next hroute =>
        have hlabels := (h.steps node hm (of_decide_eq_true hkind)).labels
        rw [if_pos hroute] at hlabels
        obtain ⟨labels, hfield, -⟩ := hlabels
        rw [branchLabels_list hfield, ok_bind, accepts_bind]
        obtain ⟨branches, hbranches⟩ := accepts_mapM.mpr fun label (_ : label ∈ labels) =>
          (⟨_, rfl⟩ : Accepts (savedBranch edges true node.id label))
        exact ⟨branches, hbranches, accepts_ok _⟩
      · exact accepts_ok _
    exact savedStep_accepts.mpr ⟨.inl rfl, hbranches, .inl rfl⟩
  exact ⟨pipeline, mapM_eq_ok.mp hpipeline⟩

theorem savedSource_defined (node : GraphNode) (ht : TypedConfig node.config) : isSourceDefinition (savedSource node) = true := by
  rw [isSourceDefinition, Bool.and_eq_true, hasTexts_iff]
  refine ⟨rfl, fun key hkey => ?_⟩
  rcases List.mem_cons.mp hkey with rfl | hdefault
  · exact ⟨node.id, by rw [Value.getStr, savedSource_id]; rfl⟩
  · obtain ⟨text, hmem⟩ : ∃ text, (key, text) ∈ sourceDefaults := by
      simp only [List.mem_cons, List.not_mem_nil, or_false] at hdefault
      rcases hdefault with rfl | rfl | rfl <;> simp [sourceDefaults]
    rw [Value.getStr, savedSource_getD node hmem]
    cases hfield : Members.field node.config key with
    | none => exact ⟨text, rfl⟩
    | some v =>
        have htext : key ∈ textFields := by
          simp only [List.mem_cons, List.not_mem_nil, or_false] at hdefault
          rcases hdefault with rfl | rfl | rfl <;> decide
        obtain ⟨given, rfl⟩ := ht.texts key htext v hfield
        exact ⟨given, rfl⟩

theorem Saves.defined {node : GraphNode} {saved : Value} (hs : Saves edges true node saved) (ht : TypedConfig node.config)
    (hshallow : ∀ params, Members.field node.config "params" = some params → isJson 0 params = true) :
      isStepDefinition saved = true := by
  have htext : ∀ key ∈ ["model", "capability_id", "capability_version", "artifact_path"],
    (nullish (saved.get key)).all isText = true := by
    intro key hkey
    have hkept : key ∈ stepKept ∧ key ∈ textFields := by
      simp only [List.mem_cons, List.not_mem_nil, or_false] at hkey
      rcases hkey with rfl | rfl | rfl | rfl <;> decide
    rw [hs.kept key hkept.1]
    cases hfield : Members.field node.config key with
    | none => rfl
    | some v =>
        obtain ⟨text, rfl⟩ := ht.texts key hkept.2 v hfield
        rfl
  have hreference : (nullish (saved.get "pipeline_ref")).all (fun reference =>
      reference.isObject && hasTexts reference ["pipeline_id", "revision_id", "input_source"]) = true := by
    rw [hs.kept "pipeline_ref" (by simp)]
    cases hfield : Members.field node.config "pipeline_ref" with
    | none => rfl
    | some reference =>
        refine (Option.all_eq_true _ _).mpr fun v hv => ?_
        obtain ⟨heq, -⟩ := nullish_eq_some.mp hv
        obtain rfl := Option.some.inj heq
        rw [Bool.and_eq_true]
        exact ht.reference _ hfield
  have hparams : (saved.get "params").all (fun params => params.isObject && isJson 0 params) = true := by
    rw [hs.params]
    cases hfield : Members.field node.config "params" with
    | none => rfl
    | some params =>
        obtain ⟨m, rfl⟩ := ht.params params hfield
        exact (Bool.and_eq_true _ _).mpr ⟨rfl, hshallow _ hfield⟩
  have hinputs : (saved.getArray "input_from").any (fun inputs => inputs.all isText) = true := by
    rw [Value.getArray, hs.inputs]
    simp [Value.asArray, isText, Value.asStr]
  have htexts : hasTexts saved ["step", "type"] = true := by
    rw [hasTexts_iff]
    intro key hkey
    simp only [List.mem_cons, List.not_mem_nil, or_false] at hkey
    rcases hkey with rfl | rfl
    · exact ⟨_, hs.getStr_step.1⟩
    · exact ⟨_, hs.getStr_step.2⟩
  simp only [isStepDefinition, Bool.and_eq_true, hs.object, htexts, hinputs, hparams, hreference, List.all_eq_true, true_and]
  exact htext

theorem Restorable.defined (h : Restorable nodes edges) (ht : ∀ node ∈ nodes, TypedConfig node.config)
    (hd : Drafted nodes edges pipeline) :
    Defined (savedDefinition name nodes pipeline) (draftSources nodes) pipeline := by
  refine ⟨rfl, rfl, ?_⟩
  have hsources : (draftSources nodes).all isSourceDefinition = true := by
    rw [List.all_eq_true]
    intro source hsource
    obtain ⟨node, hnode, rfl⟩ := List.mem_map.mp hsource
    exact savedSource_defined node (ht node (List.mem_of_mem_filter hnode))
  have hsteps : pipeline.all isStepDefinition = true := by
    rw [List.all_eq_true]
    intro saved hsaved
    obtain ⟨node, hnode, hkind, hsaves⟩ := hd.saves hsaved
    exact hsaves.defined (ht node hnode) (h.shallow node hnode hkind)
  have hlistedSources : (savedDefinition name nodes pipeline).getArray "sources" = some (draftSources nodes) := rfl
  have hlistedSteps : (savedDefinition name nodes pipeline).getArray "pipeline" = some pipeline := rfl
  have hnamed : ((savedDefinition name nodes pipeline).getStr "name").isSome = true := rfl
  have hobject : (savedDefinition name nodes pipeline).isObject = true := rfl
  simp only [isDefinition, hobject, hnamed, hlistedSources, hlistedSteps, Option.any_some, hsources, hsteps, Bool.and_self]

theorem savedSource_keyed (node : GraphNode) : (Members.keys (entries (savedSource node))).Nodup := keys_present (by simp)

theorem textOf_typed {config : Members} (ht : TypedConfig config) {key : String} (hkey : key ∈ textFields) :
    (∀ v, Members.field config key = some v → Accepts (textOf v)) ∧
      Accepts (textOf ((nullish (Members.field config key)).getD (.string ""))) := by
  cases hfield : Members.field config key with
  | none => exact ⟨fun v hv => absurd hv (by simp), accepts_ok ""⟩
  | some v =>
      obtain ⟨text, rfl⟩ := ht.texts key hkey v hfield
      refine ⟨fun w hw => ?_, accepts_ok text⟩
      obtain rfl := Option.some.inj hw
      exact accepts_ok text

theorem storedSource_saved {node : GraphNode} (ht : TypedConfig node.config) (editor : Option Value) :
    Accepts (storedSource capabilities editor (savedSource node) 0) := by
  refine storedSource_accepts.mpr
    ⟨(copyConfig_accepts_fields (keys_without_nodup (savedSource_keyed node) _)).mpr fun key hkey v hv => ?_,
    (nodeTitle_accepts rfl (by simp)).mpr (.inr fun capability hcapability _ => ?_)⟩
  · simp only [List.mem_cons, List.not_mem_nil, or_false] at hkey
    rcases hkey with rfl | rfl
    · rw [field_without rfl (by simp), savedSource_other node (by simp) (by decide) (by decide)] at hv
      cases hv
    · rw [field_without rfl (by simp), savedSource_get node (by simp)] at hv
      obtain ⟨texts, rfl⟩ := ht.lists "content_types" (by simp) v hv
      exact fun _ => .inl ⟨_, rfl⟩
  · rw [savedSource_get node (by simp)] at hcapability
    rw [savedSource_get node (by simp)]
    exact ⟨(textOf_typed ht (by decide)).1 capability hcapability, (textOf_typed ht (by decide)).2⟩

theorem storedStep_saved {node : GraphNode} {saved : Value} (hs : Saves edges true node saved) (hkind : node.stepType ∈ storedKinds)
    (hstep : isStepDefinition saved = true) (editor : Option Value) : Accepts (storedStep capabilities editor saved 0) := by
  refine storedStep_accepts.mpr ⟨?_, (nodeTitle_accepts hs.object (by simp)).mpr ((stepShape hstep).captioned _ _),
    (stepConfig_accepts hs.object hs.keyed).mpr ⟨fun v hv => ?_, fun _ v hv => ?_⟩⟩
  · rwa [hs.getStr_step.2]
  · rw [hs.others "content_types" (by simp)] at hv
    cases hv
  · rw [hs.others "branch_labels" (by simp)] at hv
    cases hv

theorem Restorable.opens (h : Restorable nodes edges) (ht : ∀ node ∈ nodes, TypedConfig node.config)
    (hd : Drafted nodes edges pipeline) :
    Accepts (graphFromDefinition capabilities (savedDefinition name nodes pipeline)) := by
  have hdefined := @Restorable.defined name nodes edges pipeline h ht hd
  refine (hdefined.graph_accepts capabilities).mpr ⟨fun source hsource => ?_, fun saved hsaved => ?_, ?_, ?_, fun _ e he => ?_⟩
  · obtain ⟨node, hnode, rfl⟩ := List.mem_map.mp hsource
    exact storedSource_saved (ht node (List.mem_of_mem_filter hnode)) _
  · obtain ⟨node, hnode, hkind, hsaves⟩ := hd.saves hsaved
    exact storedStep_saved hsaves (h.kinds node hnode hkind) (hdefined.parts.2 saved hsaved) _
  · obtain ⟨found, hfound, -⟩ := mapM_storedEdges hd.passes
    exact ⟨found, hfound⟩
  · exact hd.nodeIds_perm.nodup_iff.mpr h.distinct
  · obtain ⟨heditor, -⟩ := nullish_eq_some.mp he
    obtain rfl := Option.some.inj heditor
    rfl

theorem restored_of_restorable (ht : ∀ node ∈ nodes, TypedConfig node.config) (hlabelled : Labelled nodes edges)
    (h : Restorable nodes edges) : Restored capabilities name nodes edges := by
  obtain ⟨pipeline, hd⟩ := h.drafted
  obtain ⟨g, hg⟩ := @Restorable.opens capabilities name nodes edges pipeline h ht hd
  have hr := hd.reopens hg
  have hback : ∀ node ∈ nodes, ∃ node' ∈ g.nodes, SameBlock node node' := by
    intro node hm
    by_cases hkind : node.stepType = "source"
    · obtain ⟨node', hnode', hopens⟩ := hr.source node hm hkind
      exact ⟨node', hnode', (sameBlock_source hopens (ht node hm) hkind).mpr (h.sources node hm hkind)⟩
    · obtain ⟨saved, -, hsaves, hshape, -, node', hnode', hopens⟩ := hr.step node hm hkind
      exact ⟨node', hnode', (sameBlock_step hopens hsaves hshape (ht node hm)).mpr (h.steps node hm hkind)⟩
  refine ⟨_, g, draftFromGraph_eq_ok.mpr ⟨pipeline, hd, rfl⟩, hg, hback, fun node' hnode' => ?_, ?_⟩
  · obtain ⟨node, hnode, hid, -⟩ := hr.shown node' hnode'
    obtain ⟨node'', hnode'', hsame⟩ := hback node hnode
    exact ⟨node, hnode, hr.unique hnode' hnode'' (hid.trans hsame.id.symm) ▸ hsame⟩
  · rw [hr.shown_edges hd]
    refine (List.perm_ext_iff_of_nodup (hd.links_nodup h.distinct) h.single).mpr fun e' => ⟨fun he' => ?_, fun he' => ?_⟩
    · exact hd.mem_edges_of h.distinct hlabelled he' h.plain
    · obtain ⟨e, he, rfl⟩ := List.mem_map.mp he'
      exact hd.mem_links_of h.distinct hlabelled he (h.targets e he) (h.plain e he)

/-- A graph whose links leave routes by their labels is the same after it was saved
as a draft and opened again just if it says only what a draft keeps. -/
theorem saved_and_opened_iff (capabilities : List CapabilityLabel) (name : String) (ht : ∀ node ∈ nodes, TypedConfig node.config)
    (hlabelled : Labelled nodes edges) : Restored capabilities name nodes edges ↔ Restorable nodes edges :=
  ⟨restorable_of_restored ht, restored_of_restorable ht hlabelled⟩

/-- A source whose topic was never chosen, and a step that reads it. -/
def unfinished : List GraphNode :=
  [⟨"input", "source", [("parser", .string "text")], none, none⟩, ⟨"store", "sink", [("params", .object [])], none, none⟩]

def unfinishedLinks : List GraphEdge := [⟨"input", "store", some "record", some "record"⟩]

theorem unfinished_typed : ∀ node ∈ unfinished, TypedConfig node.config := by
  intro node hm
  simp only [unfinished, List.mem_cons, List.not_mem_nil, or_false] at hm
  rcases hm with rfl | rfl
  · refine ⟨fun key _ v hv => ?_, fun key hkey v hv => ?_, fun v hv => ?_, fun v hv => ?_⟩
    · obtain ⟨-, rfl⟩ := Prod.mk.inj (List.mem_singleton.mp (Members.mem_of_field hv))
      exact ⟨"text", rfl⟩
    · obtain ⟨rfl, -⟩ := Prod.mk.inj (List.mem_singleton.mp (Members.mem_of_field hv))
      exact absurd hkey (by decide)
    · cases hv
    · cases hv
  · refine ⟨fun key hkey v hv => ?_, fun key hkey v hv => ?_, fun v hv => ?_, fun v hv => ?_⟩
    · obtain ⟨rfl, -⟩ := Prod.mk.inj (List.mem_singleton.mp (Members.mem_of_field hv))
      exact absurd hkey (by decide)
    · obtain ⟨rfl, -⟩ := Prod.mk.inj (List.mem_singleton.mp (Members.mem_of_field hv))
      exact absurd hkey (by decide)
    · exact ⟨[], (Option.some.inj hv).symm⟩
    · cases hv

/-- The source comes back with the topic that drafts are given. -/
theorem saved_and_opened_iff_unfinished : ¬ Restored [] "draft" unfinished unfinishedLinks := by
  have hlabelled : Labelled unfinished unfinishedLinks := by
    intro e he node hm hid hroute
    simp only [unfinished, List.mem_cons, List.not_mem_nil, or_false] at hm
    rcases hm with rfl | rfl <;> exact absurd hroute (by decide)
  rw [saved_and_opened_iff [] "draft" unfinished_typed hlabelled]
  intro h
  exact (h.sources _ List.mem_cons_self rfl).complete "topic" (by decide) rfl

end Again

end Galadril.Dashboard
