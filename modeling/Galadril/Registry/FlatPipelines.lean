import Galadril.Registry.Inlined
import Galadril.Registry.PipelineExact

namespace Galadril.Registry.Pipeline

open Json Lib Lib.Checked Identity Ontology Std

variable {names : Renaming} {origin : Option Value} {step value : Value} {items items' : List Value}

theorem strings_of_renamed (h : List.Forall₂ (Renamed names) items items') :
    ∃ targets : List String, items' = targets.map .string := by
  induction h with
  | nil => exact ⟨[], rfl⟩
  | cons hab _ ih =>
      obtain ⟨i, j, -, -, rfl⟩ := hab
      obtain ⟨targets, rfl⟩ := ih
      exact ⟨j :: targets, rfl⟩

/-- A compiled step is of a known kind, and a route just if it was one. -/
theorem Image.kind (h : Image names origin step value) {kind : String} (hkind : step.getStr "type" = some kind) :
    value.getStr "type" = some (if kind = "pipeline" then "forward" else kind) := by
  by_cases htype : kind = "pipeline"
  · subst htype
    rw [if_pos rfl, Value.getStr_eq_some]
    exact (h.transfer hkind).1
  · have hne : step.getStr "type" ≠ some "pipeline" := by
      rw [hkind]
      exact fun heq => htype (Option.some.inj heq)
    rw [if_neg htype, Value.getStr_eq_some, (h.settled hne).1, ← Value.getStr_eq_some, hkind]

theorem Image.block (h : Image names origin step value) {id kind : String} {inputs : List String} (hb : Block step id kind inputs)
    (hclean : stepIssues step id kind = []) {name : String} (hname : names[id]? = some name) (hne : name ≠ "") :
    ∃ kind' inputs', Block value name kind' inputs' ∧ stepIssues value name kind' = [] := by
  obtain ⟨items, items', hitems, hitems', hall⟩ := h.inputs
  obtain ⟨inputs', rfl⟩ := strings_of_renamed hall
  have hkind := h.kind hb.kind_eq
  obtain ⟨hknown, hinference⟩ := stepIssues_eq_nil.mp hclean
  refine ⟨_, inputs', ⟨(h.name_eq hb.id_eq).trans hname, hne, hkind, ?_, hitems'⟩, stepIssues_eq_nil.mpr ⟨?_, fun heq => ?_⟩⟩
  · split
    · decide
    · exact hb.kind_ne
  · split
    · decide
    · exact hknown
  · have hsame : kind = "inference" := by
      split at heq
      · exact absurd heq (by decide)
      · exact heq
    simpa only [Value.getStr, h.others "model" (by decide), h.others "capability_id" (by decide)] using hinference hsame

theorem Image.unbranched (h : Image names origin step value) (hunbranched : Unbranched step) : Unbranched value := by
  intro branches hbranches
  cases hb : (step.get "branches").bind Value.asObject with
  | none =>
      rw [h.branchless hb, ← get_branches, hb] at hbranches
      cases hbranches
  | some m =>
      obtain ⟨m', hm', hall⟩ := h.branches m hb
      obtain rfl := Value.object.inj (Option.some.inj (hm'.symm.trans hbranches))
      have hempty := hunbranched m (get_branches.mp hb)
      subst hempty
      exact List.forall₂_nil_left_iff.mp hall

theorem Image.native (h : Image names origin step value) (hnative : Native step) : Native value := by
  simpa only [Native, Value.getStr, h.others "routing" (by decide), h.others "capability_id" (by decide)] using hnative

theorem renamed_targets {targets : List String} (h : List.Forall₂ (Renamed names) (targets.map .string) items') :
    ∃ targets' : List String, items' = targets'.map .string ∧ targets'.map some = targets.map (names[·]?) := by
  induction targets generalizing items' with
  | nil =>
      cases h
      exact ⟨[], rfl, rfl⟩
  | cons t targets ih =>
      rw [List.map_cons] at h
      cases h with
      | cons hab hrest =>
          obtain ⟨i, j, heq, hj, rfl⟩ := hab
          obtain rfl := Value.string.inj heq
          obtain ⟨targets', rfl, hsome⟩ := ih hrest
          exact ⟨j :: targets', rfl, by rw [List.map_cons, List.map_cons, hsome, hj]⟩

theorem Branch.renamed {entry entry' : String × Value} {targets : List String} (h : Branch entry targets)
    (hrenamed : RenamedBranch names entry entry') (hdistinct : (targets.map (names[·]?)).Nodup) :
    ∃ targets', Branch entry' targets' ∧ targets'.map some = targets.map (names[·]?) := by
  obtain ⟨hlabel, items, items', hitems, hitems', hall⟩ := hrenamed
  obtain rfl := Value.array.inj (hitems.symm.trans h.listed)
  obtain ⟨targets', rfl, hsome⟩ := renamed_targets hall
  refine ⟨targets', ⟨hlabel ▸ h.labelled, hlabel ▸ h.short, hitems', ?_, ?_⟩, hsome⟩
  · rintro rfl
    exact h.nonempty (List.map_eq_nil_iff.mp hsome.symm)
  · rw [← hsome] at hdistinct
    exact hdistinct.of_map

theorem Occurrence.Live.awaiting {o : Occurrence} {u v : String} (h : o.Live u) (hawaits : Awaits o.steps u v) : o.Live v := by
  obtain ⟨child, hm, hid, hscheduled, hconsumes⟩ := hawaits
  exact ⟨mem_stepIds.mpr ⟨child, hm, hid⟩, fun s hs => .step hm hscheduled hid hconsumes (h.2 s hs)⟩

namespace Inlined

variable {definitions : Definitions} {root o : Occurrence} {naming : List String → Renaming} {placed : List Placed} {p : Placed}
  {site : List String} {i x y : String} {step : Value} {targets : List String}

def Apart (root : Occurrence) (placed : List Placed) : Prop := ∀ id ∈ sourceIds root.sources, id ∉ stepIds (placed.map Placed.value)

theorem mem_compiled {name : String} : name ∈ stepIds (placed.map Placed.value) ↔ ∃ p ∈ placed, p.name = some name := by
  rw [mem_stepIds]
  constructor
  · rintro ⟨value, hm, hid⟩
    obtain ⟨p, hp, rfl⟩ := List.mem_map.mp hm
    exact ⟨p, hp, hid⟩
  · rintro ⟨p, hp, hid⟩
    exact ⟨p.value, List.mem_map_of_mem hp, hid⟩

variable (h : Inlined definitions root naming placed)
include h

/-- Where the name of a node comes from: it is a source of the root, a compiled
step, or a source that stands for a transfer. -/
theorem named_cases (ho : Occurs definitions root site o) (hy : (naming site)[i]? = some y) :
    (site = [] ∧ i ∈ sourceIds root.sources ∧ y = i) ∨ (∃ p ∈ placed, p.site = site ∧ p.block = i ∧ p.name = some y) ∨
      ∃ site' last, site = site' ++ [last] ∧ o.selected = some i ∧ (naming site')[last]? = some y ∧
        ∃ p ∈ placed, p.site = site' ∧ p.block = last ∧ p.name = some y := by
  have hlive : o.Live i → ∃ p ∈ placed, p.site = site ∧ p.block = i ∧ p.name = some y := by
    intro hl
    obtain ⟨p, hp, hsite, hblock⟩ := h.placed_of_live ho hl
    exact ⟨p, hp, hsite, hblock, by rw [h.name_eq hp, hsite, hblock, hy]⟩
  rcases List.eq_nil_or_concat' site with rfl | ⟨site', last, rfl⟩
  · obtain ⟨hnode, rfl⟩ := (h.rooted.2 i y).mp hy
    rcases List.mem_append.mp hnode with hsource | hstep
    · exact .inl ⟨rfl, hsource, rfl⟩
    · cases ho
      exact .inr (.inl (hlive (h.live_of_named (.here root) hy hstep)))
  · obtain ⟨s, mapped, hs, -, hmapped, hentry, hdomain⟩ := h.entered site' last o ho
    rcases (hdomain i).mp (by rw [hy]; rfl) with rfl | hl
    · obtain rfl := Option.some.inj (hentry.symm.trans hy)
      obtain ⟨o', ho', hl'⟩ := ho.parent
      obtain ⟨p, hp, hsite, hblock⟩ := h.placed_of_live ho' hl'
      exact .inr (.inr ⟨site', last, rfl, hs, hmapped, p, hp, hsite, hblock, by rw [h.name_eq hp, hsite, hblock, hmapped]⟩)
    · exact .inr (.inl (hlive hl))

theorem name_ne_empty (hp : p ∈ placed) : ∃ name, p.name = some name ∧ name ≠ "" := by
  by_cases hsite : p.site = []
  · obtain ⟨o, step, ho, -, hm, hid, himage⟩ := h.occurs_of_placed hp
    rw [hsite] at ho himage
    cases ho
    obtain ⟨id, kind, inputs, hb, -⟩ := (h.authored [] root (.here root)).graph.blocks step hm
    obtain rfl := Option.some.inj (hid.symm.trans hb.id_eq)
    refine ⟨p.block, (himage.name_eq hid).trans ((h.rooted.2 _ _).mpr ⟨?_, rfl⟩), hb.id_ne⟩
    exact List.mem_append_right _ (mem_stepIds.mpr ⟨step, hm, hid⟩)
  · obtain ⟨k, hk⟩ := h.name_linked hp hsite
    refine ⟨linkedName k, hk, fun hempty => ?_⟩
    have hstart := startsWith_linkedName k
    rw [hempty] at hstart
    exact absurd hstart (by decide)

theorem compiled_block (hp : p ∈ placed) : ∃ id kind inputs, Block p.value id kind inputs ∧ stepIssues p.value id kind = [] := by
  obtain ⟨o, step, ho, -, hm, hid, himage⟩ := h.occurs_of_placed hp
  obtain ⟨id, kind, inputs, hb, hclean⟩ := (h.authored p.site o ho).graph.blocks step hm
  obtain rfl := Option.some.inj (hid.symm.trans hb.id_eq)
  obtain ⟨name, hname, hne⟩ := h.name_ne_empty hp
  obtain ⟨kind', inputs', hblock⟩ := himage.block hb hclean ((himage.name_eq hid).symm.trans hname) hne
  exact ⟨name, kind', inputs', hblock⟩

theorem compiled_distinct (hapart : Apart root placed) : (nodeIds root.sources (placed.map Placed.value)).Nodup := by
  have hroot := List.nodup_append.mp (h.authored [] root (.here root)).graph.distinct
  have hsteps : (stepIds (placed.map Placed.value)).map some = placed.map Placed.name := by
    have hall : ∀ xs ⊆ placed, (stepIds (xs.map Placed.value)).map some = xs.map Placed.name := by
      intro xs hxs
      induction xs with
      | nil => rfl
      | cons q xs ih =>
          obtain ⟨name, hname, -⟩ := h.name_ne_empty (hxs List.mem_cons_self)
          rw [List.map_cons, stepIds_cons hname, List.map_cons, List.map_cons, ih fun r hr =>
            hxs (List.mem_cons_of_mem _ hr), hname]
    exact hall placed fun r hr => hr
  refine List.nodup_append.mpr ⟨hroot.1, ?_, fun a ha b hb heq => hapart a ha (heq ▸ hb)⟩
  have hnames := h.names
  rw [← hsteps] at hnames
  exact hnames.of_map

theorem compiled_closed {u v : String} (hfeeds : Feeds (placed.map Placed.value) u v) :
    u ∈ nodeIds root.sources (placed.map Placed.value) := by
  obtain ⟨value, hm, -, hconsumes⟩ := hfeeds
  obtain ⟨p, hp, rfl⟩ := List.mem_map.mp hm
  obtain ⟨o, step, ho, -, -, -, himage⟩ := h.occurs_of_placed hp
  obtain ⟨i, -, hi⟩ := himage.consumes_iff.mp hconsumes
  rcases h.named_cases ho hi with ⟨-, hsource, rfl⟩ | ⟨q, hq, -, -, hname⟩ | ⟨_, _, -, -, -, q, hq, -, -, hname⟩
  · exact List.mem_append_left _ hsource
  · exact List.mem_append_right _ (mem_compiled.mpr ⟨q, hq, hname⟩)
  · exact List.mem_append_right _ (mem_compiled.mpr ⟨q, hq, hname⟩)

/-- Compiled steps wait for no more than finitely many others: within an
occurrence because its pipeline has no cycle, and outside because transfers nest. -/
theorem compiled_acc (hapart : Apart root placed) (ho : Occurs definitions root site o) (hy : (naming site)[i]? = some y) :
    Acc (Feeds (placed.map Placed.value)) y := by
  induction site using List.reverseRecOn generalizing o i y with
  | nil =>
      cases ho
      induction (h.authored [] root (.here root)).graph.acyclic i generalizing y with
      | intro i _ ih =>
          refine ⟨y, fun z hz => ?_⟩
          obtain ⟨value, hm, hid, hconsumes⟩ := hz
          obtain ⟨p, hp, rfl⟩ := List.mem_map.mp hm
          rcases h.named_cases (.here root) hy with ⟨-, hsource, rfl⟩ | ⟨q, hq, hsite, hblock, hname⟩ | ⟨_, _, hsite, -⟩
          · exact absurd (mem_compiled.mpr ⟨p, hp, hid⟩) (hapart _ hsource)
          · obtain rfl := h.name_inj hp hq (hid.trans hname.symm)
            obtain ⟨o, step, ho, -, hm, hid', himage⟩ := h.occurs_of_placed hp
            rw [hsite] at ho himage
            cases ho
            obtain ⟨j, hj, hnamed⟩ := himage.consumes_iff.mp hconsumes
            exact ih j ⟨step, hm, hblock ▸ hid', hj⟩ hnamed
          · simp at hsite
  | append_singleton site last ihsite =>
      induction (h.authored _ o ho).graph.acyclic i generalizing y with
      | intro i _ ih =>
          rcases h.named_cases ho hy with ⟨hsite, -⟩ | ⟨q, hq, hsite, hblock, hname⟩ | ⟨site', last', hsite, -, hmapped, -⟩
          · simp at hsite
          · refine ⟨y, fun z hz => ?_⟩
            obtain ⟨value, hm, hid, hconsumes⟩ := hz
            obtain ⟨p, hp, rfl⟩ := List.mem_map.mp hm
            obtain rfl := h.name_inj hp hq (hid.trans hname.symm)
            obtain ⟨o', step, ho', -, hm, hid', himage⟩ := h.occurs_of_placed hp
            rw [hsite] at ho' himage
            obtain rfl := h.unique _ o o' ho ho'
            obtain ⟨j, hj, hnamed⟩ := himage.consumes_iff.mp hconsumes
            exact ih j ⟨step, hm, hblock ▸ hid', hj⟩ hnamed
          · obtain ⟨rfl, hlast⟩ := List.append_inj' hsite rfl
            obtain rfl := List.singleton_inj.mp hlast
            obtain ⟨o', ho', -⟩ := ho.parent
            exact ihsite ho' hmapped

theorem compiled_acyclic (hapart : Apart root placed) (v : String) : Acc (Feeds (placed.map Placed.value)) v := by
  refine ⟨v, fun u hu => ?_⟩
  obtain ⟨value, hm, -, hconsumes⟩ := hu
  obtain ⟨p, hp, rfl⟩ := List.mem_map.mp hm
  obtain ⟨o, step, ho, -, -, -, himage⟩ := h.occurs_of_placed hp
  obtain ⟨i, -, hi⟩ := himage.consumes_iff.mp hconsumes
  exact h.compiled_acc hapart ho hi

/-- What waits for a route in the composition are the images of what waits for it
in its pipeline. -/
theorem awaits_iff (hapart : Apart root placed) (hp : p ∈ placed) (ho : Occurs definitions root p.site o) (hm : step ∈ o.steps)
    (hid : step.getStr "step" = some p.block) (htype : step.getStr "type" = some "route") (hx : p.name = some x) :
    Awaits (placed.map Placed.value) x y ↔ ∃ t, Awaits o.steps p.block t ∧ o.Live t ∧ (naming p.site)[t]? = some y := by
  obtain ⟨o', -, ho', hl, -⟩ := h.occurs_of_placed hp
  obtain rfl := h.unique _ o o' ho ho'
  constructor
  · rintro ⟨value, hv, hy, hscheduled, hconsumes⟩
    obtain ⟨q, hq, rfl⟩ := List.mem_map.mp hv
    obtain ⟨o'', step', ho'', hl'', hm', hid', himage⟩ := h.occurs_of_placed hq
    obtain ⟨j, hj, hnamed⟩ := himage.consumes_iff.mp hconsumes
    rcases h.named_cases ho'' hnamed with ⟨-, hsource, rfl⟩ | ⟨r, hr, hsite, hblock, hname⟩ | ⟨site', last,
      hsite', -, -, r, hr, hsite, hblock, hname⟩
    · exact absurd (mem_compiled.mpr ⟨p, hp, hx⟩) (hapart _ hsource)
    · obtain rfl := h.name_inj hp hr (hx.trans hname.symm)
      rw [← hsite] at ho''
      obtain rfl := h.unique _ _ _ ho ho''
      refine ⟨q.block, ⟨step', hm', hid', himage.scheduled_eq.symm.trans hscheduled, hblock ▸ hj⟩, hl'', ?_⟩
      rw [hsite, ← h.name_eq hq]
      exact hy
    -- a route is no transfer
    · obtain rfl := h.name_inj hp hr (hx.trans hname.symm)
      rw [hsite', ← hsite, ← hblock] at ho''
      obtain ⟨o₁, step₁, ho₁, hm₁, hid₁, ht⟩ := ho''.through
      obtain rfl := h.unique _ _ _ ho ho₁
      rw [(h.authored _ _ ho).graph.step_unique hm₁ hm hid₁ hid] at ht
      simp [transferred, htype] at ht
  · rintro ⟨t, ⟨child, hchild, hcid, hscheduled, hconsumes⟩, hlive, hnamed⟩
    obtain ⟨q, hq, hsite, hblock⟩ := h.placed_of_live ho hlive
    have himage := h.image q hq o (hsite ▸ ho) child hchild (hblock ▸ hcid)
    refine ⟨q.value, List.mem_map_of_mem hq, ?_, himage.scheduled_eq.trans hscheduled,
      himage.consumes_iff.mpr ⟨p.block, hconsumes, ?_⟩⟩
    · exact (h.name_eq hq).trans (by rw [hsite, hblock, hnamed])
    · rw [hsite, ← h.name_eq hp, hx]

theorem compiled_route (hapart : Apart root placed) (hp : p ∈ placed) :
    validateRoute (placed.map Placed.value) p.value = .ok () := by
  obtain ⟨o, step, ho, hl, hm, hid, himage⟩ := h.occurs_of_placed hp
  have hgraph := (h.authored p.site o ho).graph
  obtain ⟨id, kind, inputs, hb, -⟩ := hgraph.blocks step hm
  obtain rfl := Option.some.inj (hid.symm.trans hb.id_eq)
  obtain ⟨name, hname, hne⟩ := h.name_ne_empty hp
  obtain ⟨hunbranched, hroute⟩ := (validateRoute_eq_ok hid hb.id_ne).mp (hgraph.routes step hm)
  have hkind := himage.kind hb.kind_eq
  refine (validateRoute_eq_ok hname hne).mpr ⟨fun htype => himage.unbranched (hunbranched fun heq => htype ?_), fun htype => ?_⟩
  · obtain rfl := Option.some.inj (heq.symm.trans hb.kind_eq)
    rw [hkind]
    rfl
  · have hsame : step.getStr "type" = some "route" := by
      rw [hkind, Option.some.injEq] at htype
      split at htype
      · exact absurd htype (by decide)
      · rw [hb.kind_eq, htype]
    obtain ⟨hnative, branches, hroutes⟩ := hroute hsame
    obtain ⟨branches', hlisted, hall⟩ := himage.branches branches (get_branches.mpr hroutes.listed)
    have hawaits : ∀ {y}, Awaits (placed.map Placed.value) name y ↔
        ∃ t, Awaits o.steps p.block t ∧ o.Live t ∧ (naming p.site)[t]? = some y :=
      h.awaits_iff hapart hp ho hm hid hsame hname
    have htarget : ∀ entry ∈ branches, ∀ targets, Branch entry targets → ∀ t ∈ targets, Awaits o.steps p.block t ∧ o.Live t := by
      intro entry he targets hbranch t ht
      have ha := (hroutes.covers t).mp ⟨entry, he, targets, hbranch, ht⟩
      exact ⟨ha, hl.awaiting ha⟩
    have hdistinct : ∀ entry ∈ branches, ∀ targets, Branch entry targets → (targets.map ((naming p.site)[·]?)).Nodup := by
      intro entry he targets hbranch
      refine hbranch.distinct.map_on fun t ht t' ht' heq => ?_
      obtain ⟨q, hq, hsite, hblock⟩ := h.placed_of_live ho (htarget entry he targets hbranch t ht).2
      obtain ⟨q', hq', hsite', hblock'⟩ := h.placed_of_live ho (htarget entry he targets hbranch t' ht').2
      have hnames : q.name = q'.name := by rw [h.name_eq hq, h.name_eq hq', hsite, hsite', hblock, hblock', heq]
      rw [← hblock, ← hblock', h.name_inj hq hq' hnames]
    refine ⟨himage.native hnative, branches', hlisted, ?_, hall.length_eq ▸ hroutes.bounded, fun entry' he' => ?_, fun v => ?_⟩
    · rintro rfl
      exact hroutes.nonempty (List.forall₂_nil_right_iff.mp hall)
    · obtain ⟨entry, he, hrenamed⟩ := Mapping.forall₂_mem_right hall he'
      obtain ⟨targets, hbranch⟩ := hroutes.admissible entry he
      obtain ⟨targets', hbranch', -⟩ := hbranch.renamed hrenamed (hdistinct entry he targets hbranch)
      exact ⟨targets', hbranch'⟩
    · rw [hawaits]
      constructor
      · rintro ⟨entry', he', targets', hbranch', hv⟩
        obtain ⟨entry, he, hrenamed⟩ := Mapping.forall₂_mem_right hall he'
        obtain ⟨targets, hbranch⟩ := hroutes.admissible entry he
        obtain ⟨found, hfound, hsome⟩ := hbranch.renamed hrenamed (hdistinct entry he targets hbranch)
        obtain rfl := hfound.unique hbranch'
        obtain ⟨t, ht, hnamed⟩ := List.mem_map.mp (hsome ▸ List.mem_map_of_mem hv)
        exact ⟨t, (htarget entry he targets hbranch t ht).1, (htarget entry he targets hbranch t ht).2, hnamed⟩
      · rintro ⟨t, ha, -, hnamed⟩
        obtain ⟨entry, he, targets, hbranch, ht⟩ := (hroutes.covers t).mpr ha
        obtain ⟨entry', he', hrenamed⟩ := Mapping.forall₂_mem_left hall he
        obtain ⟨targets', hbranch', hsome⟩ := hbranch.renamed hrenamed (hdistinct entry he targets hbranch)
        refine ⟨entry', he', targets', hbranch', ?_⟩
        obtain ⟨v', hv', heq⟩ := List.mem_map.mp (hsome.symm ▸ List.mem_map_of_mem ht)
        obtain rfl := Option.some.inj (heq.trans hnamed)
        exact hv'

theorem wellformed_iff : Wellformed root.sources (placed.map Placed.value) ↔ Apart root placed := by
  constructor
  · intro hw id hsource hstep
    exact (List.nodup_append.mp hw.distinct).2.2 id hsource id hstep rfl
  · intro hapart
    refine ⟨(h.authored [] root (.here root)).graph.named, fun value hm => ?_, h.compiled_distinct hapart, fun u v =>
      h.compiled_closed,
      fun value hm => ?_, h.compiled_acyclic hapart⟩
    · obtain ⟨p, hp, rfl⟩ := List.mem_map.mp hm
      exact h.compiled_block hp
    · obtain ⟨p, hp, rfl⟩ := List.mem_map.mp hm
      exact h.compiled_route hapart hp

end Inlined

variable {definitions : Definitions} {pipelineId revisionId : String} {definition compiled : Value}

/-- A composition is a well-formed graph again, unless a source of the root has the
name of a compiled step, and only numbered names can be such. -/
theorem compiled_valid_iff (hkeyed : Keyed definitions definition)
    (h : compile pipelineId revisionId definition definitions = .ok compiled) :
    (Accepts (validatePipelineStructure compiled) ↔ ∀ id ∈ sourceIds (rootOf pipelineId revisionId definition).sources,
      id ∉ stepIds ((compiled.getArray "pipeline").getD [])) ∧
    ∀ id ∈ sourceIds (rootOf pipelineId revisionId definition).sources, id ∈ stepIds ((compiled.getArray "pipeline").getD []) →
      startsWith "__linked_" id = true := by
  obtain ⟨names, n, placed, naming, hnamed, hunfolded, hnumbered, hpipeline, hothers⟩ := compile_unfolded hkeyed h
  have hinlined := hunfolded.inlined hnamed rfl hnumbered
  have hroot := hinlined.authored [] _ (.here _)
  rw [hpipeline, Option.getD_some]
  constructor
  · have hsources : compiled.getArray "sources" = definition.getArray "sources" := by
      simp only [Value.getArray, hothers "sources" (by decide)]
    rw [validatePipelineStructure_accepts]
    refine Iff.trans ⟨?_, fun hw => ?_⟩ hinlined.wellformed_iff
    · rintro ⟨sources, steps, hs, ht, hw⟩
      obtain rfl := Option.some.inj (hpipeline.symm.trans ht)
      rw [hsources] at hs
      rwa [rootOf, Occurrence.sources, hs, Option.getD_some]
    · cases hs : definition.getArray "sources" with
      | none =>
          -- a composition without sources is refused before it is expanded
          simp only [compile, bind_eq_ok, append, context_eq_ok] at h
          obtain ⟨_, ⟨_, -, _, -, _, -, _, -, sources, hsome, -⟩, -⟩ := h
          rw [hs] at hsome
          cases hsome
      | some sources =>
          refine ⟨sources, placed.map Placed.value, hsources.trans hs, hpipeline, ?_⟩
          rwa [rootOf, Occurrence.sources, hs, Option.getD_some] at hw
  · intro id hsource hstep
    obtain ⟨p, hp, hname⟩ := Inlined.mem_compiled.mp hstep
    by_cases hsite : p.site = []
    · obtain ⟨o, step, ho, -, hm, hid, himage⟩ := hinlined.occurs_of_placed hp
      have hnamed' := (himage.name_eq hid).symm.trans hname
      rw [hsite] at ho hnamed'
      cases ho
      obtain ⟨-, rfl⟩ := (hinlined.rooted.2 _ _).mp hnamed'
      exact absurd rfl ((List.nodup_append.mp hroot.graph.distinct).2.2 _ hsource _ (mem_stepIds.mpr ⟨step, hm, hid⟩))
    · obtain ⟨k, hk⟩ := hinlined.name_linked hp hsite
      rw [← Option.some.inj (hk.symm.trans hname)]
      exact startsWith_linkedName k

def disguised : Value := .object
  [("sources", .array [.object [("step", .string "input"), ("id", .string "__linked_1"), ("type", .string "mail")]]),
  ("pipeline", .array [.object [("step", .string "first"), ("type", .string "pipeline"),
    ("input_from", .array [.string "__linked_1"]),
    ("pipeline_ref", .object [("pipeline_id", .string "archive"), ("revision_id", .string "aaaaaaaaaaaaaaaaaaaa"),
      ("input_source", .string "input")])]])]

theorem compiled_valid_iff_archived :
    (∃ compiled, compile "root" "bbbbbbbbbbbbbbbbbbbb" (archived [handover "first"]) archive = .ok compiled ∧
      Accepts (validatePipelineStructure compiled)) ∧
    ∃ compiled, compile "root" "bbbbbbbbbbbbbbbbbbbb" disguised archive = .ok compiled ∧ ¬ Accepts
    (validatePipelineStructure compiled) := by
  constructor
  · obtain ⟨compiled, h⟩ := isOk_iff.mp
      (show (compile "root" "bbbbbbbbbbbbbbbbbbbb" (archived [handover "first"]) archive).isOk = true
      by decide +kernel)
    obtain ⟨hiff, hreserved⟩ := compiled_valid_iff ⟨by decide, by decide⟩ h
    refine ⟨compiled, h, hiff.mpr fun id hid hstep => ?_⟩
    have hfree : ∀ id ∈ sourceIds (rootOf "root" "bbbbbbbbbbbbbbbbbbbb" (archived [handover "first"])).sources,
        startsWith "__linked_" id = false := by decide
    have hstart := hreserved id hid hstep
    rw [hfree id hid] at hstart
    cases hstart
  · have hrun : ((compile "root" "bbbbbbbbbbbbbbbbbbbb" disguised archive).toOption.any fun compiled =>
        stepIds ((compiled.getArray "pipeline").getD []) = ["first", "__linked_1"]) = true := by
      decide +kernel
    obtain ⟨compiled, hcompiled, hsteps⟩ := (Option.any_eq_true _ _).mp hrun
    have h : compile "root" "bbbbbbbbbbbbbbbbbbbb" disguised archive = .ok compiled := by
      cases hc : compile "root" "bbbbbbbbbbbbbbbbbbbb" disguised archive with
      | error e => simp [hc, Except.toOption] at hcompiled
      | ok c => simpa [hc, Except.toOption] using hcompiled
    refine ⟨compiled, h, fun haccepts => ?_⟩
    have hapart := (compiled_valid_iff ⟨by decide, by decide⟩ h).1.mp haccepts
    rw [of_decide_eq_true hsteps] at hapart
    exact hapart "__linked_1" (by decide) (by decide)

end Galadril.Registry.Pipeline
