import Galadril.Lib.DepthFirst
import Galadril.Registry.PipelineValidity

namespace Galadril.Registry.Pipeline

open Json Lib Lib.Checked Identity Ontology Relation Std

/-- A branch under a label, to destinations that are named once each. -/
structure Branch (entry : String × Value) (targets : List String) : Prop where
  labelled : blank entry.1 = false
  short : entry.1.utf8ByteSize ≤ 128
  listed : entry.2 = .array (targets.map .string)
  nonempty : targets ≠ []
  distinct : targets.Nodup

def Awaits (steps : List Value) (u v : String) : Prop :=
  ∃ step ∈ steps, step.getStr "step" = some v ∧ scheduled step = false ∧ Consumes step u

/-- A route whose branches lead exactly to its immediate consumers. -/
structure Routes (steps : List Value) (step : Value) (id : String) (branches : Members) : Prop where
  listed : step.get "branches" = some (.object branches)
  nonempty : branches ≠ []
  bounded : branches.length ≤ 32
  admissible : ∀ entry ∈ branches, ∃ targets, Branch entry targets
  covers : ∀ v, (∃ entry ∈ branches, ∃ targets, Branch entry targets ∧ v ∈ targets) ↔ Awaits steps id v

def Native (step : Value) : Prop :=
  (∃ strategy ∈ ["regex", "slm", "metadata"], step.getStr "routing" = some strategy) ∧
    ∀ v, step.get "capability_id" = some v → v = .null

def Unbranched (step : Value) : Prop := ∀ branches, step.get "branches" = some (.object branches) → branches = []

/-- Destinations are collected as long as none of them repeats. -/
theorem foldlM_targets {items : List Value} {acc found : List String} :
    items.foldlM (fun unique target => do
        let name ← context target.asStr "Invalid branch destination"
        ensure (!unique.contains name) "Repeated branch destination"
        return unique ++ [name]) acc = .ok found ↔
      ∃ names, items = names.map .string ∧ found = acc ++ names ∧ names.Nodup ∧ ∀ name ∈ names, name ∉ acc := by
  induction items generalizing acc with
  | nil =>
      rw [List.foldlM_nil, pure_eq_ok]
      constructor
      · rintro rfl
        exact ⟨[], rfl, by simp, List.nodup_nil, by simp⟩
      · rintro ⟨names, hnames, rfl, -⟩
        simp [List.map_eq_nil_iff.mp hnames.symm]
  | cons item items ih =>
      have hfresh : ∀ name, acc.contains name = false ↔ name ∉ acc := by simp
      simp only [List.foldlM_cons, bind_eq_ok, context_eq_ok, ensure_eq_ok, pure_eq_ok, Bool.not_eq_true', hfresh,
        Value.asStr_eq_some, ih]
      constructor
      · rintro ⟨_, ⟨name, rfl, _, hnew, rfl⟩, names, rfl, rfl, hnodup, hnames⟩
        refine ⟨name :: names, rfl, by simp, List.nodup_cons.mpr ⟨fun hm => hnames name hm (by simp), hnodup⟩, ?_⟩
        rintro x hx
        rcases List.mem_cons.mp hx with rfl | hx
        · exact hnew
        · exact fun hm => hnames x hx (List.mem_append_left _ hm)
      · rintro ⟨names, hitems, rfl, hnodup, hnames⟩
        cases names with
        | nil => cases hitems
        | cons name names =>
            obtain ⟨rfl, rfl⟩ := List.cons.inj hitems
            obtain ⟨hname, hnodup⟩ := List.nodup_cons.mp hnodup
            refine ⟨_, ⟨name, rfl, (), hnames name List.mem_cons_self, rfl⟩, names, rfl, by simp, hnodup, fun x hx hm => ?_⟩
            rcases List.mem_append.mp hm with hm | hm
            · exact hnames x (List.mem_cons_of_mem _ hx) hm
            · exact hname (List.mem_singleton.mp hm ▸ hx)

theorem branchTargets_eq_ok {entry : String × Value} {targets : List String} :
    branchTargets entry = .ok targets ↔ Branch entry targets := by
  simp only [branchTargets, bind_eq_ok, ensure_eq_ok, context_eq_ok, Value.asArray_eq_some, Bool.and_eq_true, Bool.not_eq_true',
    decide_eq_true_eq, foldlM_targets, List.isEmpty_eq_false_iff]
  constructor
  · rintro ⟨_, ⟨hblank, hshort⟩, items, hitems, _, hne, names, rfl, rfl, hnodup, -⟩
    refine ⟨hblank, hshort, hitems, ?_, hnodup⟩
    simpa using hne
  · rintro ⟨hblank, hshort, hitems, hne, hnodup⟩
    exact ⟨(), ⟨hblank, hshort⟩, _, hitems, (), by simpa using hne, targets, rfl, by simp, hnodup, by simp⟩

theorem Branch.unique {entry : String × Value} {targets targets' : List String} (h : Branch entry targets)
    (h' : Branch entry targets') : targets = targets' := by
  have heq := h.listed.symm.trans h'.listed
  exact List.map_injective_iff.mpr (fun a b hab => Value.string.inj hab) (Value.array.inj heq)

theorem mem_consumers {steps : List Value} {u v : String} : v ∈ consumers steps u ↔ Awaits steps u v := by
  simp only [consumers, List.mem_filterMap, List.mem_filter, Bool.and_eq_true, Bool.not_eq_true', Option.any_eq_true,
    List.any_eq_true, decide_eq_true_eq, Awaits, Consumes]
  constructor
  · rintro ⟨step, ⟨hm, hscheduled, items, hitems, item, hitem, hu⟩, hv⟩
    exact ⟨step, hm, hv, hscheduled, items, hitems, Value.asStr_eq_some.mp hu ▸ hitem⟩
  · rintro ⟨step, hm, hv, hscheduled, items, hitems, hu⟩
    exact ⟨step, ⟨hm, hscheduled, items, hitems, _, hu, rfl⟩, hv⟩

theorem ofList_beq {xs ys : List String} :
    (ExtTreeSet.ofList xs == ExtTreeSet.ofList ys) = true ↔ ∀ v, v ∈ xs ↔ v ∈ ys := by
  rw [beq_iff_eq]
  constructor
  · intro h v
    have hmem : ∀ l : List String, v ∈ l ↔ v ∈ ExtTreeSet.ofList l compare := by
      intro l
      rw [ExtTreeSet.mem_ofList, List.contains_iff_mem]
    rw [hmem, h, hmem]
  · intro h
    refine ExtTreeSet.ext_mem fun v => ?_
    rw [ExtTreeSet.mem_ofList, ExtTreeSet.mem_ofList, List.contains_iff_mem, List.contains_iff_mem, h]

theorem branches_mapM {branches : Members} {found : List (List String)} (h : branches.mapM branchTargets = .ok found) :
    (∀ entry ∈ branches, ∃ targets, Branch entry targets) ∧
      ∀ v, v ∈ found.flatten ↔ ∃ entry ∈ branches, ∃ targets, Branch entry targets ∧ v ∈ targets := by
  have hall := mapM_eq_ok.mp h
  clear h
  induction hall with
  | nil => simp
  | cons hentry _ ih =>
      obtain ⟨hbranches, hmem⟩ := ih
      have hbranch := branchTargets_eq_ok.mp hentry
      refine ⟨List.forall_mem_cons.mpr ⟨⟨_, hbranch⟩, hbranches⟩, fun v => ?_⟩
      rw [List.flatten_cons, List.mem_append, hmem, List.exists_mem_cons_iff]
      refine or_congr_left ⟨fun hv => ⟨_, hbranch, hv⟩, ?_⟩
      rintro ⟨targets, htargets, hv⟩
      exact hbranch.unique htargets ▸ hv

theorem branches_accepted {branches : Members} (h : ∀ entry ∈ branches, ∃ targets, Branch entry targets) :
    Accepts (branches.mapM branchTargets) := by
  induction branches with
  | nil => exact ⟨[], rfl⟩
  | cons entry branches ih =>
      obtain ⟨⟨targets, hentry⟩, hbranches⟩ := List.forall_mem_cons.mp h
      obtain ⟨found, hfound⟩ := ih hbranches
      refine ⟨targets :: found, ?_⟩
      simp only [List.mapM_cons, bind_eq_ok, pure_eq_ok]
      exact ⟨targets, branchTargets_eq_ok.mpr hentry, found, hfound, rfl⟩

theorem get_branches {step : Value} {branches : Members} :
    (step.get "branches").bind Value.asObject = some branches ↔ step.get "branches" = some (.object branches) := by
  simp [Option.bind_eq_some_iff, Value.asObject_eq_some]

/-- A route passes when it is native and covers its consumers, any other step
when it has no branches. -/
theorem validateRoute_eq_ok {steps : List Value} {step : Value} {id : String} (hid : step.getStr "step" = some id) (hne : id ≠ "") :
    validateRoute steps step = .ok () ↔
      (step.getStr "type" ≠ some "route" → Unbranched step) ∧
      (step.getStr "type" = some "route" → Native step ∧ ∃ branches, Routes steps step id branches) := by
  have hstring : requiredString step "step" "pipeline step" = .ok id := requiredString_iff.mpr ⟨hid, hne⟩
  simp only [validateRoute, bind_eq_ok, hstring, Except.ok.injEq, exists_eq_left']
  by_cases htype : step.getStr "type" = some "route"
  · rw [if_neg (not_not.mpr htype)]
    simp only [bind_eq_ok, ensure_eq_ok, context_eq_ok, get_branches, ofList_beq, mem_consumers, Bool.and_eq_true,
      Bool.not_eq_true', decide_eq_true_eq, List.isEmpty_eq_false_iff]
    have hnative : Native step ↔
        (step.getStr "routing").any ["regex", "slm", "metadata"].contains = true ∧
          (step.get "capability_id").all Value.isNull = true := by
      refine and_congr ?_ ?_
      · simp only [Option.any_eq_true, List.contains_iff_mem]
        exact exists_congr fun s => and_comm
      · rw [Option.all_eq_true]
        refine forall₂_congr fun v _ => ?_
        cases v <;> simp [Value.isNull]
    constructor
    · rintro ⟨_, hrouting, _, hcapability, branches, hlisted, _, ⟨hnonempty, hbounded⟩, found, hfound, hcovers⟩
      obtain ⟨hadmissible, hmem⟩ := branches_mapM hfound
      refine ⟨fun h => absurd htype h, fun _ => ⟨hnative.mpr ⟨hrouting, hcapability⟩, branches, hlisted, hnonempty, hbounded,
        hadmissible, fun v => (hmem v).symm.trans (hcovers v)⟩⟩
    · rintro ⟨-, hroute⟩
      obtain ⟨hn, branches, hroutes⟩ := hroute htype
      obtain ⟨hrouting, hcapability⟩ := hnative.mp hn
      obtain ⟨found, hfound⟩ := branches_accepted hroutes.admissible
      refine ⟨(), hrouting, (), hcapability, branches, hroutes.listed, (), ⟨hroutes.nonempty, hroutes.bounded⟩, found, hfound,
        fun v => ?_⟩
      exact ((branches_mapM hfound).2 v).trans (hroutes.covers v)
  · rw [if_pos htype, ensure_eq_ok]
    have hempty : ((step.get "branches").bind Value.asObject).all List.isEmpty = true ↔ Unbranched step := by
      rw [Option.all_eq_true]
      exact forall_congr' fun branches => by rw [get_branches, List.isEmpty_iff]
    rw [hempty]
    exact ⟨fun h => ⟨fun _ => h, fun h => absurd h htype⟩, fun h => h.1 htype⟩

structure Shaped (definition : Value) (sources steps : List Value) : Prop where
  listedSources : definition.getArray "sources" = some sources
  listedSteps : definition.getArray "pipeline" = some steps
  named : ∀ source ∈ sources, ∃ id, source.getStr "id" = some id ∧ id ≠ ""
  blocks : ∀ step ∈ steps, ∃ id kind inputs, Block step id kind inputs

/-- A graph with distinct nodes and known inputs, without a cycle, whose steps
are known and whose routes lead to all their consumers. -/
structure Proper (sources steps : List Value) : Prop where
  distinct : (nodeIds sources steps).Nodup
  known : ∀ step ∈ steps, ∀ kind, step.getStr "type" = some kind → kind ∈ stepTypes
  inference : ∀ step ∈ steps, step.getStr "type" = some "inference" →
    (∃ model, step.getStr "model" = some model) ∨ ∃ capability, step.getStr "capability_id" = some capability
  closed : ∀ u v, Feeds steps u v → u ∈ nodeIds sources steps
  acyclic : ∀ v, ¬ TransGen (Feeds steps) v v
  routes : ∀ step ∈ steps, ∀ id, step.getStr "step" = some id → step.getStr "type" = some "route" →
    ∃ branches, Routes steps step id branches

structure Guarded (steps : List Value) : Prop where
  native : ∀ step ∈ steps, step.getStr "type" = some "route" → Native step
  unbranched : ∀ step ∈ steps, step.getStr "type" ≠ some "route" → Unbranched step

variable {definition : Value} {sources steps : List Value}

theorem stepIssues_eq_nil {step : Value} {id kind : String} :
    stepIssues step id kind = [] ↔ kind ∈ stepTypes ∧ (kind = "inference" →
      (∃ model, step.getStr "model" = some model) ∨ ∃ capability, step.getStr "capability_id" = some capability) := by
  rw [stepIssues, List.append_eq_nil_iff]
  refine and_congr ?_ ?_
  · split
    · next h => simpa using h
    · next h => simpa using h
  · cases step.getStr "model" <;> cases step.getStr "capability_id" <;> simp

theorem Shaped.wellformed_iff (h : Shaped definition sources steps) :
    Wellformed sources steps ↔ Proper sources steps ∧ Guarded steps := by
  have htarget : ∀ u v, Feeds steps u v → v ∈ stepIds steps := by
    rintro u v ⟨step, hm, hid, -⟩
    exact mem_stepIds.mpr ⟨step, hm, hid⟩
  have hacyclic := Cycles.acyclic_iff_acc htarget
  constructor
  · intro hw
    have hroute : ∀ step ∈ steps, ∀ id, step.getStr "step" = some id →
        (step.getStr "type" ≠ some "route" → Unbranched step) ∧
        (step.getStr "type" = some "route" → Native step ∧ ∃ branches, Routes steps step id branches) := by
      intro step hm id hid
      obtain ⟨id', kind, inputs, hb⟩ := h.blocks step hm
      obtain rfl := Option.some.inj (hid.symm.trans hb.id_eq)
      exact (validateRoute_eq_ok hid hb.id_ne).mp (hw.routes step hm)
    have hissues : ∀ step ∈ steps, ∃ kind, step.getStr "type" = some kind ∧ kind ∈ stepTypes ∧ (kind = "inference" →
        (∃ model, step.getStr "model" = some model) ∨ ∃ capability, step.getStr "capability_id" = some capability) := by
      intro step hm
      obtain ⟨id, kind, inputs, hb, hclean⟩ := hw.blocks step hm
      exact ⟨kind, hb.kind_eq, stepIssues_eq_nil.mp hclean⟩
    have hid : ∀ step ∈ steps, ∃ id, step.getStr "step" = some id := by
      intro step hm
      obtain ⟨id, kind, inputs, hb⟩ := h.blocks step hm
      exact ⟨id, hb.id_eq⟩
    refine ⟨⟨hw.distinct, fun step hm kind hkind => ?_, fun step hm hkind => ?_, hw.closed, hacyclic.mpr hw.acyclic,
      fun step hm id hid htype => ((hroute step hm id hid).2 htype).2⟩, fun step hm htype => ?_, fun step hm htype => ?_⟩
    · obtain ⟨kind', hkind', hknown, -⟩ := hissues step hm
      exact Option.some.inj (hkind.symm.trans hkind') ▸ hknown
    · obtain ⟨kind', hkind', -, hinference⟩ := hissues step hm
      exact hinference (Option.some.inj (hkind'.symm.trans hkind))
    · obtain ⟨id, hid⟩ := hid step hm
      exact ((hroute step hm id hid).2 htype).1
    · obtain ⟨id, hid⟩ := hid step hm
      exact (hroute step hm id hid).1 htype
  · rintro ⟨hp, hg⟩
    refine ⟨h.named, fun step hm => ?_, hp.distinct, hp.closed, fun step hm => ?_, hacyclic.mp hp.acyclic⟩
    · obtain ⟨id, kind, inputs, hb⟩ := h.blocks step hm
      refine ⟨id, kind, inputs, hb, stepIssues_eq_nil.mpr ⟨hp.known step hm kind hb.kind_eq, ?_⟩⟩
      rintro rfl
      exact hp.inference step hm hb.kind_eq
    · obtain ⟨id, kind, inputs, hb⟩ := h.blocks step hm
      exact (validateRoute_eq_ok hb.id_eq hb.id_ne).mpr ⟨hg.unbranched step hm,
        fun htype => ⟨hg.native step hm htype, hp.routes step hm id hb.id_eq htype⟩⟩

/-- The structural checks accept exactly the proper graphs whose routes decide by
themselves, and list every node once and after all its inputs. -/
theorem validatePipelineStructure_exact (definition : Value) (sources steps : List Value)
    (h : Shaped definition sources steps) :
    (Accepts (validatePipelineStructure definition) ↔ Proper sources steps ∧ Guarded steps) ∧
    ∀ order, validatePipelineStructure definition = .ok order →
      order.Perm (nodeIds sources steps) ∧
      ∀ before v rest, order = before ++ v :: rest → ∀ u, Feeds steps u v → u ∈ before := by
  constructor
  · rw [validatePipelineStructure_accepts, ← h.wellformed_iff]
    constructor
    · rintro ⟨sources', steps', hsources, hsteps, hw⟩
      obtain rfl := Option.some.inj (h.listedSources.symm.trans hsources)
      obtain rfl := Option.some.inj (h.listedSteps.symm.trans hsteps)
      exact hw
    · intro hw
      exact ⟨sources, steps, h.listedSources, h.listedSteps, hw⟩
  · intro order horder
    obtain ⟨sources', steps', scan, hsources, hsteps, hw, harranged, -⟩ := validatePipelineInternal_eq_ok horder
    obtain rfl := Option.some.inj (h.listedSources.symm.trans hsources)
    obtain rfl := Option.some.inj (h.listedSteps.symm.trans hsteps)
    exact ⟨(List.perm_ext_iff_of_nodup harranged.distinct hw.distinct).mpr harranged.mem_iff, harranged.after⟩

def mailSource : Value := .object [("id", .string "mail")]

def twiceFed : Value :=
  .object [("step", .string "store"), ("type", .string "sink"), ("input_from", .array [.string "mail", .string "mail"])]

def branchedFilter : Value :=
  .object [("step", .string "spam"), ("type", .string "filter"), ("input_from", .array [.string "mail"]),
    ("branches", .object [("kept", .array [.string "store"])])]

def pipelineOf (steps : List Value) : Value := .object [("sources", .array [mailSource]), ("pipeline", .array steps)]

theorem pipelineOf_shaped {steps : List Value} (h : ∀ step ∈ steps, ∃ id kind inputs, Block step id kind inputs) :
    Shaped (pipelineOf steps) [mailSource] steps where
  listedSources := rfl
  listedSteps := rfl
  named source hm := ⟨"mail", by rw [List.mem_singleton.mp hm]; rfl, by decide⟩
  blocks := h

theorem twiceFed_block : Block twiceFed "store" "sink" ["mail", "mail"] := ⟨rfl, by decide, rfl, by decide, rfl⟩

theorem branchedFilter_block : Block branchedFilter "spam" "filter" ["mail"] := ⟨rfl, by decide, rfl, by decide, rfl⟩

theorem validatePipelineStructure_exact_twice :
    validatePipelineStructure (pipelineOf [twiceFed]) = .ok ["mail", "store"] ∧
    (Accepts (validatePipelineStructure (pipelineOf [twiceFed])) ↔ Proper [mailSource] [twiceFed] ∧ Guarded [twiceFed]) :=
  ⟨by decide +kernel, (validatePipelineStructure_exact _ _ _ (pipelineOf_shaped fun step hm =>
    ⟨_, _, _, List.mem_singleton.mp hm ▸ twiceFed_block⟩)).1⟩

/-- Branches on a filter are refused, though the graph is proper. -/
theorem branched_filter_refused : ∃ definition sources steps, Shaped definition sources steps ∧ Proper sources steps ∧
    ¬ Accepts (validatePipelineStructure definition) := by
  refine ⟨pipelineOf [branchedFilter], [mailSource], [branchedFilter],
    pipelineOf_shaped fun step hm => ⟨_, _, _, List.mem_singleton.mp hm ▸ branchedFilter_block⟩, ?_, by decide +kernel⟩
  have hfeeds : ∀ u v, Feeds [branchedFilter] u v → u = "mail" ∧ v = "spam" := by
    rintro u v ⟨step, hm, hid, hu⟩
    obtain rfl := List.mem_singleton.mp hm
    exact ⟨by simpa using branchedFilter_block.consumes_iff.mp hu,
      (Option.some.inj (branchedFilter_block.id_eq.symm.trans hid)).symm⟩
  have hkind : ∀ step ∈ [branchedFilter], ∀ kind, step.getStr "type" = some kind → kind = "filter" := by
    intro step hm kind hkind
    obtain rfl := List.mem_singleton.mp hm
    exact (Option.some.inj (branchedFilter_block.kind_eq.symm.trans hkind)).symm
  refine ⟨by decide +kernel, fun step hm kind hk => ?_, fun step hm hk => ?_, fun u v hf => ?_, fun v hcycle => ?_,
    fun step hm id _ hk => ?_⟩
  · rw [hkind step hm kind hk]
    decide
  · exact absurd (hkind step hm _ hk) (by decide)
  · rw [(hfeeds u v hf).1]
    decide +kernel
  · obtain ⟨w, hfirst, -⟩ := (TransGen.head'_iff).mp hcycle
    obtain ⟨x, -, hlast⟩ := (TransGen.tail'_iff).mp hcycle
    exact absurd ((hfeeds _ _ hfirst).1.symm.trans (hfeeds _ _ hlast).2) (by decide)
  · exact absurd (hkind step hm _ hk) (by decide)

end Galadril.Registry.Pipeline
