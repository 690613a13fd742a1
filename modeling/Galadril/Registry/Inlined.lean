import Galadril.Lib.Mapping
import Galadril.Registry.Budgets
import Galadril.Registry.LinkedNames

namespace Galadril.Registry.Pipeline

open Json Lib Lib.Checked Identity Ontology Std

/-- The compiled steps are those of the composition. Each occurrence of a
pipeline has one renaming of its nodes, which takes the source that was
selected to the transfer and other nodes to steps of their own. -/
structure Inlined (definitions : Definitions) (root : Occurrence) (naming : List String → Renaming)
    (placed : List Placed) : Prop where
  listed : ∀ site block, (site, block) ∈ placed.map Placed.address ↔ ∃ o, Occurs definitions root site o ∧ o.Live block
  addresses : (placed.map Placed.address).Nodup
  names : (placed.map Placed.name).Nodup
  image : ∀ p ∈ placed, ∀ o, Occurs definitions root p.site o → ∀ step ∈ o.steps, step.getStr "step" = some p.block →
    Image (naming p.site) (o.origin p.block) step p.value
  unique : ∀ site o o', Occurs definitions root site o → Occurs definitions root site o' → o = o'
  authored : ∀ site o, Occurs definitions root site o → Authored o.sources o.steps
  rooted : root.selected = none ∧ ∀ i j, (naming [])[i]? = some j ↔ i ∈ nodeIds root.sources root.steps ∧ j = i
  entered : ∀ site id o, Occurs definitions root (site ++ [id]) o → ∃ s mapped, o.selected = some s ∧ s ∈ sourceIds o.sources ∧
    (naming site)[id]? = some mapped ∧ (naming (site ++ [id]))[s]? = some mapped ∧
    ∀ i, (naming (site ++ [id]))[i]?.isSome = true ↔ i = s ∨ o.Live i
  numbered : ((placed.filter fun p => p.site ≠ []).map Placed.name).Perm
    ((List.range' 1 (placed.countP fun p => p.site ≠ [])).map fun k => some (linkedName k))

variable {definitions : Definitions} {root o : Occurrence} {naming : List String → Renaming} {names : Renaming}
  {placed : List Placed}
  {p q : Placed} {n' : Nat}

theorem Occurs.selected {site : List String} {id : String} (h : Occurs definitions root (site ++ [id]) o) :
    o.selected.isSome = true := by
  induction site generalizing root with
  | nil =>
      obtain ⟨step, -, child, -, -, ht, ho⟩ := occurs_iff_within.mp h
      cases ho
      exact transferred_selected ht
  | cons first site ih =>
      obtain ⟨step, -, child, -, -, -, ho⟩ := occurs_iff_within.mp h
      exact ih ho

theorem Unfolded.name_eq (h : Unfolded definitions root names root.steps placed naming) (hp : p ∈ placed) :
    p.name = (naming p.site)[p.block]? := by
  obtain ⟨o, -, step, -, hid, -, himage⟩ := h.sound p hp
  exact himage.name_eq hid

theorem names_nodup (hnamed : Named root none 0 names 0) (hroot : root.selected = none)
    (hnumbered : Numbered root names root.steps 0 placed n') : (placed.map Placed.name).Nodup := by
  obtain ⟨ids, hsub, hmem, hheads⟩ := hnumbered.heads
  have hsteps := (List.nodup_append.mp hnamed.authored.graph.distinct).2.1
  have hids : ids.map (names[·]?) = ids.map some := by
    refine List.map_congr_left fun i hi => ((hnamed.root hroot).2 i i).mpr ⟨?_, rfl⟩
    exact List.mem_append_right _ (hsub.subset hi)
  have hperm : (placed.map Placed.name).Perm (ids.map some ++ (List.range' (0 + 1) (n' - 0)).map fun k => some (linkedName k)) := by
    calc (placed.map Placed.name).Perm
            (((placed.filter fun p => p.site = []) ++ placed.filter fun p => p.site ≠ []).map Placed.name) := by
          refine (List.Perm.map _ ?_).symm
          have hdivided := List.filter_append_perm (fun p : Placed => decide (p.site = [])) placed
          simpa only [decide_not] using hdivided
      _ = ids.map some ++ (placed.filter fun p => p.site ≠ []).map Placed.name := by rw [List.map_append, hheads, hids]
      _ |>.Perm _ := hnumbered.deep.append_left _
  rw [hperm.nodup_iff, List.nodup_append]
  refine ⟨(hsub.nodup hsteps).map (Option.some_injective _), List.Nodup.map (fun a b heq => ?_) List.nodup_range',
    fun x hx y hy heq => ?_⟩
  · exact linkedName_inj.mp (Option.some.inj heq)
  · obtain ⟨i, hi, rfl⟩ := List.mem_map.mp hx
    obtain ⟨k, -, rfl⟩ := List.mem_map.mp hy
    obtain ⟨step, hm, hid⟩ := mem_stepIds.mp (hsub.subset hi)
    have hreserved := hnamed.authored.unreserved step hm i hid
    rw [Option.some.inj heq, startsWith_linkedName] at hreserved
    cases hreserved

theorem Unfolded.inlined (h : Unfolded definitions root names root.steps placed naming) (hnamed : Named root none 0 names 0)
    (hroot : root.selected = none) (hnumbered : Numbered root names root.steps 0 placed n') :
      Inlined definitions root naming placed := by
  have hnames := names_nodup hnamed hroot hnumbered
  have hbelow : ∀ site o, Within definitions root root.steps site o ↔ Occurs definitions root site o :=
    fun site o => occurs_iff_within.symm
  have hcount : (placed.countP fun p => p.site ≠ []) = n' := by
    have hlength := hnumbered.deep.length_eq
    simp only [List.length_map, List.length_range', ← List.countP_eq_length_filter] at hlength
    omega
  have hauthored : ∀ site o, Occurs definitions root site o → Authored o.sources o.steps := by
    intro site o ho
    rcases List.eq_nil_or_concat' site with rfl | ⟨site, id, rfl⟩
    · cases ho
      exact hnamed.authored
    · obtain ⟨_, _, _, -, hn⟩ := h.entered site id o (occurs_iff_within.mp ho)
      exact hn.authored
  refine ⟨fun site block => ?_, ?_, hnames, fun p hp o ho step hm hid => ?_, fun site o o' ho ho' => ?_, hauthored,
    ⟨hroot, fun i j => ?_⟩, fun site id o ho => ?_, ?_⟩
  · rw [List.mem_map]
    constructor
    · rintro ⟨p, hp, haddress⟩
      obtain ⟨rfl, rfl⟩ := Prod.mk.inj haddress
      obtain ⟨o, hb, -, -, -, hl, -⟩ := h.sound p hp
      exact ⟨o, occurs_iff_within.mpr hb, hl⟩
    · rintro ⟨o, ho, hl⟩
      refine h.complete site o block (occurs_iff_within.mp ho) (fun hsite => ?_) hl
      subst hsite
      cases ho
      exact hl.1
  · have hmap : placed.map Placed.name = (placed.map Placed.address).map fun a => (naming a.1)[a.2]? := by
      rw [List.map_map]
      exact List.map_congr_left fun p hp => h.name_eq hp
    rw [hmap] at hnames
    exact hnames.of_map
  · obtain ⟨o', hb, step', hm', hid', -, himage⟩ := h.sound p hp
    obtain rfl := h.unique p.site o o' (occurs_iff_within.mp ho) hb
    rwa [(hauthored p.site o ho).graph.step_unique hm hm' hid hid']
  · exact h.unique site o o' (occurs_iff_within.mp ho) (occurs_iff_within.mp ho')
  · rw [h.here]
    exact (hnamed.root hroot).2 i j
  · obtain ⟨mapped, n, n', hmapped, hn⟩ := h.entered site id o (occurs_iff_within.mp ho)
    obtain ⟨s, hs⟩ := Option.isSome_iff_exists.mp ho.selected
    exact ⟨s, mapped, hs, (hn.entered s hs).1, hmapped, (hn.entered s hs).2.1, hn.domain s hs⟩
  · have hdeep := hnumbered.deep
    rw [hcount]
    simpa using hdeep

def rootOf (pipelineId revisionId : String) (definition : Value) : Occurrence := ⟨pipelineId, revisionId, definition, none⟩

variable {pipelineId revisionId : String} {definition compiled : Value}

theorem compile_unfolded (hkeyed : Keyed definitions definition)
    (h : compile pipelineId revisionId definition definitions = .ok compiled) :
    ∃ names n placed naming, Named (rootOf pipelineId revisionId definition) none 0 names 0 ∧
      Unfolded definitions (rootOf pipelineId revisionId definition) names
      (rootOf pipelineId revisionId definition).steps placed naming ∧
      Numbered (rootOf pipelineId revisionId definition) names (rootOf pipelineId revisionId definition).steps 0 placed n ∧
      compiled.getArray "pipeline" = some (placed.map Placed.value) ∧ ∀ key, key ≠ "pipeline" →
        compiled.get key = definition.get key := by
  simp only [compile, bind_eq_ok, context_eq_ok, pure_eq_ok] at h
  obtain ⟨expansion, happend, object, hobject, rfl⟩ := h
  obtain ⟨names, n, placed, hnamed, hemits, hsteps⟩ := append_expands _ _ _ _ _ _ _ hkeyed happend
  obtain rfl : n = 0 := (hnamed.root rfl).1
  obtain ⟨naming, hexpanded⟩ := hemits.unfolded (List.nodup_append.mp hnamed.authored.graph.distinct).2.1
  obtain rfl : definition = .object object := by
    cases definition <;> simp_all [Value.asObject]
  refine ⟨names, _, placed, naming, hnamed, hexpanded, hemits.numbered, ?_, fun key hkey => ?_⟩
  · rw [Value.getArray_eq_some, Value.get, Members.field_insert, if_pos rfl, hsteps, List.nil_append]
  · rw [Value.get, Members.field_insert, if_neg hkey.symm]
    rfl

/-- Composition is inlining: every live block of every occurrence gives one
compiled step, its image under the renaming of the occurrence. -/
theorem compile_inlines (hkeyed : Keyed definitions definition)
    (h : compile pipelineId revisionId definition definitions = .ok compiled) :
    ∃ naming placed, Inlined definitions (rootOf pipelineId revisionId definition) naming placed ∧
      compiled.getArray "pipeline" = some (placed.map Placed.value) ∧ ∀ key, key ≠ "pipeline" →
        compiled.get key = definition.get key := by
  obtain ⟨names, n, placed, naming, hnamed, hexpanded, hnumbered, hpipeline, hothers⟩ := compile_unfolded hkeyed h
  exact ⟨naming, placed, hexpanded.inlined hnamed rfl hnumbered, hpipeline, hothers⟩

theorem compile_inlines_repeated : ∃ compiled naming placed, compile "root" "bbbbbbbbbbbbbbbbbbbb"
    (archived [handover "first", handover "second"]) archive = .ok compiled ∧
      Inlined archive (rootOf "root" "bbbbbbbbbbbbbbbbbbbb" (archived [handover "first", handover "second"])) naming placed := by
  have hkeyed : Keyed archive (archived [handover "first", handover "second"]) := ⟨by decide, by decide⟩
  obtain ⟨compiled, h⟩ := isOk_iff.mp (show (compile "root" "bbbbbbbbbbbbbbbbbbbb" (archived [handover "first", handover "second"])
    archive).isOk = true by decide +kernel)
  obtain ⟨naming, placed, hinlined, -⟩ := compile_inlines hkeyed h
  exact ⟨compiled, naming, placed, h, hinlined⟩

/-- The blocks at which an event for a node of the root arrives. At a transfer
it continues with the blocks that the selected source feeds. -/
inductive Arrives (definitions : Definitions) (root : Occurrence) (start : String) : List String → String → Prop
  | here {id : String} : Reached root.steps start id → root.Live id → Arrives definitions root start [] id
  | enter {site : List String} {id block : String} {o : Occurrence} : Arrives definitions root start site id →
      Occurs definitions root (site ++ [id]) o → o.Live block → Arrives definitions root start (site ++ [id]) block

variable {site : List String} {start id block x y u : String} {step : Value}

theorem Image.scheduled_eq {names : Renaming} {origin : Option Value} {value : Value} (h : Image names origin step value) :
    scheduled value = scheduled step := by
  simp only [scheduled, Value.pointer, h.others "params" (by decide)]

theorem Image.consumes_iff {names : Renaming} {origin : Option Value} {value : Value} (h : Image names origin step value) :
    Consumes value y ↔ ∃ i, Consumes step i ∧ names[i]? = some y := by
  obtain ⟨items, items', hitems, hitems', hall⟩ := h.inputs
  simp only [Consumes, hitems, hitems', Option.some.injEq, exists_eq_left']
  constructor
  · intro hy
    obtain ⟨a, ha, i, j, rfl, hj, heq⟩ := Mapping.forall₂_mem_right hall hy
    obtain rfl := Value.string.inj heq
    exact ⟨i, ha, hj⟩
  · rintro ⟨i, hi, hy⟩
    obtain ⟨b, hb, i', j, heq, hj, rfl⟩ := Mapping.forall₂_mem_left hall hi
    obtain rfl := Value.string.inj heq
    obtain rfl := Option.some.inj (hy.symm.trans hj)
    exact hb

theorem Reached.trans {steps : List Value} {w : String} (h : Reached steps u w) (h' : Reached steps w x) : Reached steps u x := by
  induction h' with
  | start => exact h
  | step hm hscheduled hid hconsumes _ ih => exact .step hm hscheduled hid hconsumes ih

theorem Arrives.at_root (h : Arrives definitions root start [] id) : Reached root.steps start id := by
  generalize hsite : ([] : List String) = site at h
  cases h with
  | here hr _ => exact hr
  | enter _ _ _ => simp at hsite

theorem Arrives.at_transfer (h : Arrives definitions root start (site ++ [id]) block) : Arrives definitions root start site id := by
  generalize hsite : site ++ [id] = site' at h
  cases h with
  | here _ _ => simp at hsite
  | enter harrives _ _ =>
      obtain ⟨rfl, hlast⟩ := List.append_inj' hsite rfl
      obtain rfl := List.singleton_inj.mp hlast
      exact harrives

theorem Occurs.parent (h : Occurs definitions root (site ++ [id]) o) : ∃ o', Occurs definitions root site o' ∧ o'.Live id := by
  induction site generalizing root with
  | nil =>
      obtain ⟨step, -, child, -, hl, -, -⟩ := occurs_iff_within.mp h
      exact ⟨root, .here root, hl⟩
  | cons first site ih =>
      obtain ⟨step, hm, child, hid, hl, ht, ho⟩ := occurs_iff_within.mp h
      obtain ⟨o', ho', hl'⟩ := ih ho
      exact ⟨o', .enter hm hid hl ht ho', hl'⟩

/-- The transfer that leads to an occurrence. -/
theorem Occurs.through (h : Occurs definitions root (site ++ [id]) o) :
    ∃ o' step, Occurs definitions root site o' ∧ step ∈ o'.steps ∧
    step.getStr "step" = some id ∧ transferred definitions step = some o := by
  induction site generalizing root with
  | nil =>
      obtain ⟨step, hm, child, hid, -, ht, ho⟩ := occurs_iff_within.mp h
      cases ho
      exact ⟨root, step, .here root, hm, hid, ht⟩
  | cons first site ih =>
      obtain ⟨step, hm, child, hid, hl, ht, ho⟩ := occurs_iff_within.mp h
      obtain ⟨o', step', ho', hstep'⟩ := ih ho
      exact ⟨o', step', .enter hm hid hl ht ho', hstep'⟩

namespace Inlined

variable (h : Inlined definitions root naming placed)
include h

theorem placed_of_live (ho : Occurs definitions root site o) (hl : o.Live block) :
    ∃ p ∈ placed, p.site = site ∧ p.block = block := by
  obtain ⟨p, hp, haddress⟩ := List.mem_map.mp ((h.listed site block).mpr ⟨o, ho, hl⟩)
  obtain ⟨hsite, hblock⟩ := Prod.mk.inj haddress
  exact ⟨p, hp, hsite, hblock⟩

theorem occurs_of_placed (hp : p ∈ placed) : ∃ o step, Occurs definitions root p.site o ∧ o.Live p.block ∧ step ∈ o.steps ∧
    step.getStr "step" = some p.block ∧ Image (naming p.site) (o.origin p.block) step p.value := by
  obtain ⟨o, ho, hl⟩ := (h.listed p.site p.block).mp (List.mem_map_of_mem hp)
  obtain ⟨step, hm, hid⟩ := mem_stepIds.mp hl.1
  exact ⟨o, step, ho, hl, hm, hid, h.image p hp o ho step hm hid⟩

theorem name_eq (hp : p ∈ placed) : p.name = (naming p.site)[p.block]? := by
  obtain ⟨o, step, -, -, -, hid, himage⟩ := h.occurs_of_placed hp
  exact himage.name_eq hid

theorem name_inj (hp : p ∈ placed) (hq : q ∈ placed) (heq : p.name = q.name) : p = q :=
  List.inj_on_of_nodup_map h.names hp hq heq

theorem name_linked (hp : p ∈ placed) (hsite : p.site ≠ []) : ∃ k, p.name = some (linkedName k) := by
  have hmem : p.name ∈ (placed.filter fun p => p.site ≠ []).map Placed.name :=
    List.mem_map_of_mem (List.mem_filter.mpr ⟨hp, decide_eq_true hsite⟩)
  obtain ⟨k, -, hk⟩ := List.mem_map.mp (h.numbered.mem_iff.mp hmem)
  exact ⟨k, hk.symm⟩

theorem live_of_named (ho : Occurs definitions root site o) (hname : (naming site)[id]? = some y)
    (hid : id ∈ stepIds o.steps) : o.Live id := by
  rcases List.eq_nil_or_concat' site with rfl | ⟨site, last, rfl⟩
  · cases ho
    refine ⟨hid, fun s hs => ?_⟩
    rw [h.rooted.1] at hs
    cases hs
  · obtain ⟨s, mapped, -, hs, -, -, hdomain⟩ := h.entered site last o ho
    refine ((hdomain id).mp (by rw [hname]; rfl)).resolve_left fun heq => ?_
    exact (List.nodup_append.mp (h.authored _ o ho).graph.distinct).2.2 s hs id hid heq.symm

/-- What a node of an occurrence reaches there is reached in the composition. -/
theorem reached_of_local (ho : Occurs definitions root site o) (hx : (naming site)[u]? = some x) (hreached : Reached o.steps u id)
    (hy : (naming site)[id]? = some y) : Reached (placed.map Placed.value) x y := by
  induction hreached generalizing y with
  | start =>
      obtain rfl := Option.some.inj (hx.symm.trans hy)
      exact .start
  | step hm hscheduled hid hconsumes _ ih =>
      have hl := h.live_of_named ho hy (mem_stepIds.mpr ⟨_, hm, hid⟩)
      obtain ⟨p, hp, rfl, rfl⟩ := h.placed_of_live ho hl
      have himage := h.image p hp o ho _ hm hid
      obtain ⟨items, items', hitems, -, hall⟩ := himage.inputs
      obtain ⟨items'', hitems'', hmem⟩ := hconsumes
      obtain rfl := Option.some.inj (hitems.symm.trans hitems'')
      obtain ⟨b, hb, i, j, heq, hj, rfl⟩ := Mapping.forall₂_mem_left hall hmem
      obtain rfl := Value.string.inj heq
      refine .step (List.mem_map_of_mem hp) (himage.scheduled_eq.trans hscheduled) ((h.name_eq hp).trans hy)
        (himage.consumes_iff.mpr ?_) (ih hj)
      exact ⟨_, ⟨items, hitems, hmem⟩, hj⟩

theorem reached_of_arrives (hx : (naming [])[start]? = some x) (harrives : Arrives definitions root start site block)
    (hy : (naming site)[block]? = some y) : Reached (placed.map Placed.value) x y := by
  induction harrives generalizing y with
  | here hreached _ => exact h.reached_of_local (.here root) hx hreached hy
  | @enter site id block o _ ho hl ih =>
      obtain ⟨s, mapped, hs, -, hmapped, hentry, -⟩ := h.entered site id o ho
      have hbelow := h.reached_of_local ho hentry (hl.2 s hs) hy
      exact (ih hmapped).trans hbelow

theorem not_linked_of_root (hclear : ∀ id ∈ sourceIds root.sources, startsWith "__linked_" id = false)
    (hx : x ∈ nodeIds root.sources root.steps) (k : Nat) : x ≠ linkedName k := by
  rintro rfl
  rcases List.mem_append.mp hx with hsource | hstep
  · have hfree := hclear _ hsource
    rw [startsWith_linkedName] at hfree
    cases hfree
  · obtain ⟨step, hm, hid⟩ := mem_stepIds.mp hstep
    have hfree := (h.authored [] root (.here root)).unreserved step hm _ hid
    rw [startsWith_linkedName] at hfree
    cases hfree

theorem site_of_root_name (hclear : ∀ id ∈ sourceIds root.sources, startsWith "__linked_" id = false)
    (hx : x ∈ nodeIds root.sources root.steps) (hp : p ∈ placed) (hname : p.name = some x) : p.site = [] ∧ p.block = x := by
  have hsite : p.site = [] := by
    by_contra hne
    obtain ⟨k, hk⟩ := h.name_linked hp hne
    exact h.not_linked_of_root hclear hx k (Option.some.inj (hname.symm.trans hk))
  rw [h.name_eq hp, hsite] at hname
  exact ⟨hsite, (((h.rooted.2 p.block x).mp hname).2).symm⟩

theorem arrives_of_reached (hclear : ∀ id ∈ sourceIds root.sources, startsWith "__linked_" id = false)
    (hx : x ∈ nodeIds root.sources root.steps) (hreached : Reached (placed.map Placed.value) x y) :
    ∀ p ∈ placed, p.name = some y → Arrives definitions root x p.site p.block := by
  induction hreached with
  | start =>
      intro p hp hname
      obtain ⟨hsite, hblock⟩ := h.site_of_root_name hclear hx hp hname
      obtain ⟨o, _, ho, hl, -⟩ := h.occurs_of_placed hp
      rw [hsite] at ho ⊢
      rw [hblock] at hl ⊢
      cases ho
      exact .here .start hl
  | @step value name w hvalue hscheduled hid hconsumes hw ih =>
      intro q hq hqname
      obtain ⟨p, hp, rfl⟩ := List.mem_map.mp hvalue
      obtain rfl := h.name_inj hp hq (hid.trans hqname.symm)
      obtain ⟨o, step, ho, hl, hm, hid', himage⟩ := h.occurs_of_placed hp
      obtain ⟨i, hi, hnamed⟩ := himage.consumes_iff.mp hconsumes
      have hsched := himage.scheduled_eq.symm.trans hscheduled
      rcases List.eq_nil_or_concat' p.site with hsite | ⟨site, last, hsite⟩
      · rw [hsite] at ho hnamed ⊢
        cases ho
        obtain ⟨hnode, rfl⟩ := (h.rooted.2 i w).mp hnamed
        refine .here (.step hm hsched hid' hi ?_) hl
        rcases hw.inv with rfl | ⟨value, hv, -, hvid, -⟩
        · exact .start
        · obtain ⟨r, hr, rfl⟩ := List.mem_map.mp hv
          obtain ⟨hrsite, hrblock⟩ := h.site_of_root_name hclear hnode hr hvid
          have hprev := ih r hr hvid
          rw [hrsite, hrblock] at hprev
          exact hprev.at_root
      · rw [hsite] at ho hnamed ⊢
        refine .enter ?_ ho hl
        obtain ⟨s, mapped, hs, -, hmapped, hentry, hdomain⟩ := h.entered site last o ho
        -- the input is the selected source, which stands for the transfer, or a block that the source feeds
        rcases (hdomain i).mp (by rw [hnamed]; rfl) with rfl | hlive
        · obtain rfl := Option.some.inj (hentry.symm.trans hnamed)
          obtain ⟨o', ho', hl'⟩ := ho.parent
          obtain ⟨r, hr, hrsite, hrblock⟩ := h.placed_of_live ho' hl'
          have hprev := ih r hr (by rw [h.name_eq hr, hrsite, hrblock, hmapped])
          rwa [hrsite, hrblock] at hprev
        · obtain ⟨r, hr, hrsite, hrblock⟩ := h.placed_of_live ho hlive
          have hprev := ih r hr (by rw [h.name_eq hr, hrsite, hrblock, hnamed])
          rw [hrsite, hrblock] at hprev
          exact hprev.at_transfer

end Inlined

/-- Events get to the same blocks in a composition and in the flat form that
inlines it, unless a source of the root has a name of the kind the compiler
gives. -/
theorem compile_preserves_flow (hkeyed : Keyed definitions definition)
    (h : compile pipelineId revisionId definition definitions = .ok compiled)
    (hclear : ∀ id ∈ sourceIds (rootOf pipelineId revisionId definition).sources, startsWith "__linked_" id = false) :
    ∃ naming placed, Inlined definitions (rootOf pipelineId revisionId definition) naming placed ∧
      compiled.getArray "pipeline" = some (placed.map Placed.value) ∧
      ∀ p ∈ placed, ∃ name, p.name = some name ∧
        ∀ start ∈ nodeIds (rootOf pipelineId revisionId definition).sources (rootOf pipelineId revisionId definition).steps,
          Reached (placed.map Placed.value) start name ↔ Arrives definitions
          (rootOf pipelineId revisionId definition) start p.site p.block := by
  obtain ⟨names, n, placed, naming, hnamed, hunfolded, hnumbered, hpipeline, -⟩ := compile_unfolded hkeyed h
  have hinlined := hunfolded.inlined hnamed rfl hnumbered
  refine ⟨naming, placed, hinlined, hpipeline, fun p hp => ?_⟩
  obtain ⟨o, step, -, -, -, -, himage⟩ := hinlined.occurs_of_placed hp
  obtain ⟨_, name, -, -, hname⟩ := himage.identity
  refine ⟨name, hname, fun start hstart => ⟨fun hreached => ?_, fun harrives => ?_⟩⟩
  · exact hinlined.arrives_of_reached hclear hstart hreached p hp hname
  · refine hinlined.reached_of_arrives ?_ harrives ((hinlined.name_eq hp).symm.trans hname)
    exact (hinlined.rooted.2 start start).mpr ⟨hstart, rfl⟩

/-- What the second transfer continues with is reached from the input of the
root. -/
theorem compile_preserves_flow_repeated : ∃ placed : List Placed,
    ∃ p ∈ placed, p.address = (["second"], "store") ∧ ∃ name, p.name = some name ∧ Reached
    (placed.map Placed.value) "input" name := by
  have hkeyed : Keyed archive (archived [handover "first", handover "second"]) := ⟨by decide, by decide⟩
  obtain ⟨compiled, h⟩ := isOk_iff.mp (show (compile "root" "bbbbbbbbbbbbbbbbbbbb" (archived [handover "first", handover "second"])
    archive).isOk = true by decide +kernel)
  obtain ⟨naming, placed, hinlined, -, hflow⟩ := compile_preserves_flow hkeyed h (by decide)
  let root := rootOf "root" "bbbbbbbbbbbbbbbbbbbb" (archived [handover "first", handover "second"])
  let child : Occurrence := ⟨"archive", "aaaaaaaaaaaaaaaaaaaa", archived [deposit], some "input"⟩
  have hfed : ∀ step, scheduled (handover step) = false ∧ Consumes (handover step) "input" := fun step =>
    ⟨rfl, [.string "input"], rfl, List.mem_cons_self⟩
  have hstored : Reached child.steps "input" "store" := by
    refine .step (show deposit ∈ child.steps from List.mem_cons_self) rfl rfl ?_ .start
    exact ⟨[.string "input"], rfl, List.mem_cons_self⟩
  have hlive : child.Live "store" := by
    refine ⟨by decide, fun s hs => ?_⟩
    obtain rfl := Option.some.inj hs
    exact hstored
  have hsecond : root.Live "second" := ⟨by decide, fun s hs => by cases hs⟩
  have hstep : handover "second" ∈ root.steps := List.mem_cons_of_mem _ List.mem_cons_self
  have hoccurs : Occurs archive root ["second"] child := .enter hstep rfl hsecond (by rfl) (.here child)
  obtain ⟨p, hp, haddress⟩ := List.mem_map.mp ((hinlined.listed ["second"] "store").mpr ⟨child, hoccurs, hlive⟩)
  obtain ⟨name, hname, hreached⟩ := hflow p hp
  obtain ⟨hsite, hblock⟩ := Prod.mk.inj haddress
  refine ⟨placed, p, hp, haddress, name, hname, (hreached "input" (by decide)).mpr ?_⟩
  rw [hsite, hblock]
  exact @Arrives.enter archive root "input" [] "second" "store" child
    (.here (.step hstep (hfed "second").1 rfl (hfed "second").2 .start) hsecond) hoccurs hlive

end Galadril.Registry.Pipeline
