import Galadril.Registry.Inlining

namespace Galadril.Registry.Pipeline

open Json Lib Lib.Checked Identity Ontology Std

def linkedName (n : Nat) : String := s!"__linked_{n}"

theorem sourceIds_cons {source : Value} {id : String} (hid : source.getStr "id" = some id) (sources : List Value) :
    sourceIds (source :: sources) = id :: sourceIds sources := by
  rw [sourceIds, List.filterMap_cons, hid]
  rfl

theorem stepIds_cons {step : Value} {id : String} (hid : step.getStr "step" = some id) (steps : List Value) :
    stepIds (step :: steps) = id :: stepIds steps := by
  rw [stepIds, List.filterMap_cons, hid]
  rfl

theorem foldlM_nameSource_root {sources : List Value} {names names' : Renaming}
    (h : sources.foldlM (nameSource none) names = .ok names') (i : String) :
    names'[i]? = if i ∈ sourceIds sources then some i else names[i]? := by
  induction sources generalizing names with
  | nil =>
      cases h
      simp [sourceIds]
  | cons source sources ih =>
      simp only [List.foldlM_cons, bind_eq_ok, nameSource, context_eq_ok, pure_eq_ok] at h
      obtain ⟨_, ⟨id, hid, rfl⟩, hrest⟩ := h
      rw [ih hrest, ExtTreeMap.getElem?_insert, sourceIds_cons hid]
      by_cases hi : i = id
      · subst hi
        simp
      · simp [hi, Ne.symm hi]

theorem foldlM_nameSource_entry {sources : List Value} {names names' : Renaming} {selected transfer : String}
    (h : sources.foldlM (nameSource (some (selected, transfer))) names = .ok names') (i : String) :
    names'[i]? = if i = selected ∧ selected ∈ sourceIds sources then some transfer else names[i]? := by
  induction sources generalizing names with
  | nil =>
      cases h
      simp [sourceIds]
  | cons source sources ih =>
      simp only [List.foldlM_cons, bind_eq_ok, nameSource, context_eq_ok, pure_eq_ok] at h
      obtain ⟨_, ⟨id, hid, rfl⟩, hrest⟩ := h
      rw [ih hrest, sourceIds_cons hid]
      by_cases hs : id = selected
      · subst hs
        by_cases hi : i = id
        · subst hi
          simp
        · simp [hi, Ne.symm hi, ExtTreeMap.getElem?_insert]
      · simp [hs, Ne.symm hs]

theorem foldlM_nameStep_root {steps : List Value} {acc acc' : Renaming × Nat}
    (h : steps.foldlM (nameStep none) acc = .ok acc') :
    acc'.2 = acc.2 ∧ ∀ i, acc'.1[i]? = if i ∈ stepIds steps then some i else acc.1[i]? := by
  induction steps generalizing acc with
  | nil =>
      cases h
      simp [stepIds]
  | cons step steps ih =>
      simp only [List.foldlM_cons, bind_eq_ok, nameStep, context_eq_ok, pure_eq_ok] at h
      obtain ⟨_, ⟨id, hid, rfl⟩, hrest⟩ := h
      obtain ⟨hn, hnames⟩ := ih hrest
      refine ⟨hn, fun i => ?_⟩
      rw [hnames, ExtTreeMap.getElem?_insert, stepIds_cons hid]
      by_cases hi : i = id
      · subst hi
        simp
      · simp [hi, Ne.symm hi]

/-- Linked blocks are numbered in the order in which they are listed. -/
theorem foldlM_nameStep_linked {steps : List Value} {reachable : List String} {acc acc' : Renaming × Nat}
    (hnd : (stepIds steps).Nodup) (h : steps.foldlM (nameStep (some reachable)) acc = .ok acc') :
    acc'.2 = acc.2 + ((stepIds steps).filter (· ∈ reachable)).length ∧
    (∀ i, i ∉ (stepIds steps).filter (· ∈ reachable) → acc'.1[i]? = acc.1[i]?) ∧
    ((stepIds steps).filter (· ∈ reachable)).map (acc'.1[·]?) =
      (List.range' (acc.2 + 1) ((stepIds steps).filter (· ∈ reachable)).length).map fun k => some (linkedName k) := by
  induction steps generalizing acc with
  | nil =>
      cases h
      simp [stepIds]
  | cons step steps ih =>
      simp only [List.foldlM_cons, bind_eq_ok, nameStep, context_eq_ok] at h
      obtain ⟨next, ⟨id, hid, hnext⟩, hrest⟩ := h
      have hids := stepIds_cons hid steps
      rw [hids, List.nodup_cons] at hnd
      rw [hids]
      by_cases hr : id ∈ reachable
      · rw [if_pos (by simpa using hr)] at hnext
        obtain rfl := Except.ok.inj hnext
        obtain ⟨hn, hout, hin⟩ := ih hnd.2 hrest
        have habsent : id ∉ (stepIds steps).filter (· ∈ reachable) := fun hm => hnd.1 (List.mem_filter.mp hm).1
        rw [List.filter_cons_of_pos (by simpa using hr), List.length_cons]
        refine ⟨by rw [hn]; ring, fun i hi => ?_, ?_⟩
        · rw [List.mem_cons, not_or] at hi
          rw [hout i hi.2, ExtTreeMap.getElem?_insert]
          simp [Ne.symm hi.1]
        · rw [List.map_cons, hin, hout id habsent, List.range'_succ, List.map_cons]
          simp [linkedName]
      · rw [if_neg (by simpa using hr)] at hnext
        obtain rfl := Except.ok.inj hnext
        rw [List.filter_cons_of_neg (by simpa using hr)]
        exact ih hnd.2 hrest

/-- How an occurrence names its nodes. A root keeps every name; below a
transfer the selected source takes the name of the transfer and the blocks that
it feeds get fresh names. -/
structure Named (o : Occurrence) (entry : Option String) (n : Nat) (names : Renaming) (n' : Nat) : Prop where
  authored : Authored o.sources o.steps
  root : o.selected = none → n' = n ∧ ∀ i j, names[i]? = some j ↔ i ∈ nodeIds o.sources o.steps ∧ j = i
  entered : ∀ s, o.selected = some s → s ∈ sourceIds o.sources ∧ names[s]? = entry ∧ entry.isSome = true
  domain : ∀ s, o.selected = some s → ∀ i, names[i]?.isSome = true ↔ i = s ∨ o.Live i
  single : ∀ s, o.selected = some s → ∀ step ∈ o.steps, ∀ id, step.getStr "step" = some id → o.Live id →
    ∃ u, step.getArray "input_from" = some [.string u] ∧ Reached o.steps s u
  fresh : ∀ s, o.selected = some s → ∃ ids : List String, ids.Nodup ∧ (∀ i, i ∈ ids ↔ o.Live i) ∧ n' = n + ids.length ∧
    ids.map (names[·]?) = (List.range' (n + 1) ids.length).map fun k => some (linkedName k)

def Occurrence.origin (o : Occurrence) (block : String) : Option Value :=
  o.selected.map fun _ => originValue o.pipelineId o.revisionId block

/-- A compiled step with the place it comes from and the renaming of its
occurrence. -/
structure Placed where
  site : List String
  block : String
  names : Renaming
  value : Value

def Placed.under (id : String) (p : Placed) : Placed := { p with site := id :: p.site }

inductive Emits (definitions : Definitions) :
    Occurrence → Renaming → List Value → Nat → List Placed → Nat → Prop
  | nil (o : Occurrence) (names : Renaming) (n : Nat) : Emits definitions o names [] n [] n
  | skip {o names step rest n placed n' id} : step.getStr "step" = some id → ¬ o.Live id →
      Emits definitions o names rest n placed n' → Emits definitions o names (step :: rest) n placed n'
  | block {o names step rest n placed n' id value} : step ∈ o.steps → step.getStr "step" = some id → o.Live id →
      step.getStr "type" ≠ some "pipeline" → Image names (o.origin id) step value →
      Emits definitions o names rest n placed n' →
      Emits definitions o names (step :: rest) n (⟨[], id, names, value⟩ :: placed) n'
  | transfer {o names step rest n n₀ n₁ n' id value mapped child names' below placed} : step ∈ o.steps →
      step.getStr "step" = some id → o.Live id → transferred definitions step = some child →
      Image names (o.origin id) step value → names[id]? = some mapped → Named child (some mapped) n names' n₀ →
      Emits definitions child names' child.steps n₀ below n₁ → Emits definitions o names rest n₁ placed n' →
      Emits definitions o names (step :: rest) n
        (⟨[], id, names, value⟩ :: (below.map (Placed.under id) ++ placed)) n'

variable {definitions : Definitions}

def emit (definitions : Definitions) (depth : Nat) (pipelineId revisionId : String) (entry : Option (String × String))
    (linked : Option (List String)) (names : Renaming) (expansion : Expansion) (step : Value) :
    Except String Expansion := do
  let id ← context (step.getStr "step") "Step identifier missing"
  if linked.all (·.contains id) then
    let (mapped, object) ← renameStep names (entry.map fun _ => originValue pipelineId revisionId id) id step
    if step.getStr "type" = some "pipeline" then
      let value ← context (Members.field object "pipeline_ref") "Reference missing"
      let reference ← context (parseReference value) "invalid pipeline reference document"
      let object := Members.insert "type" (.string "forward") (Members.swapRemove "pipeline_ref" object)
      let child ← context (definitions.lookup reference.key) "Referenced pipeline revision unavailable"
      append definitions depth reference.pipelineId reference.revisionId child
        (some (reference.inputSource, mapped)) { expansion with steps := expansion.steps ++ [.object object] }
    else return { expansion with steps := expansion.steps ++ [.object object] }
  else return expansion

theorem append_eq_ok {depth : Nat} {pipelineId revisionId : String} {definition : Value}
    {entry : Option (String × String)} {expansion expansion' : Expansion}
    (h : append definitions (depth + 1) pipelineId revisionId definition entry expansion = .ok expansion') :
    ∃ found order sources steps linked names names' nextId start final, references definition = .ok found ∧
      validatePipelineStructure definition = .ok order ∧ definition.getArray "sources" = some sources ∧
      definition.getArray "pipeline" = some steps ∧
      (entry.mapM fun e => linkedBlocks sources steps order e.1) = .ok linked ∧
      sources.foldlM (nameSource entry) ∅ = .ok names ∧
      steps.foldlM (nameStep linked) (names, expansion.nextId) = .ok (names', nextId) ∧
      start.steps = expansion.steps ∧ start.nextId = nextId ∧
      steps.foldlM (emit definitions depth pipelineId revisionId entry linked names') start = .ok final ∧
      expansion'.steps = final.steps ∧ expansion'.nextId = final.nextId := by
  rw [append] at h
  simp only [bind_eq_ok, context_eq_ok, pure_eq_ok] at h
  obtain ⟨_, -, found, hfound, _, -, order, horder, sources, hsources, steps, hsteps, _, -, linked, hlinked, names, hnames,
    ⟨names', nextId⟩, hnamed, final, hfold, rfl⟩ := h
  let start : Expansion := ⟨pipelineId :: expansion.active, expansion.steps,
    expansion.blocks + sources.length + steps.length, expansion.transfers + found.length, nextId⟩
  exact ⟨found, order, sources, steps, linked, names, names', nextId, start, final, hfound, horder, hsources, hsteps,
    hlinked, hnames, hnamed, rfl, rfl, hfold, rfl, rfl⟩

def Keyed (definitions : Definitions) (definition : Value) : Prop :=
  definition.keyed = true ∧ ∀ entry ∈ definitions, entry.2.keyed = true

variable {o : Occurrence} {sources steps : List Value} {order : List String} {names names' : Renaming} {n n' : Nat}

theorem named_root (hsources : o.sources = sources) (hsteps : o.steps = steps) (hroot : o.selected = none)
    (hauthored : Authored sources steps) (hnames : sources.foldlM (nameSource none) ∅ = .ok names)
    (hnamed : steps.foldlM (nameStep none) (names, n) = .ok (names', n')) : Named o none n names' n' := by
  subst hsources hsteps
  obtain ⟨hn, hall⟩ := foldlM_nameStep_root hnamed
  have habsent : ∀ s, o.selected ≠ some s := fun s hs => by rw [hroot] at hs; cases hs
  refine ⟨hauthored, fun _ => ⟨hn, fun i j => ?_⟩, fun s hs => absurd hs (habsent s), fun s hs => absurd hs (habsent s),
    fun s hs => absurd hs (habsent s), fun s hs => absurd hs (habsent s)⟩
  rw [hall, foldlM_nameSource_root hnames, nodeIds, List.mem_append]
  by_cases hstep : i ∈ stepIds o.steps
  · simp [hstep, eq_comm]
  · by_cases hsource : i ∈ sourceIds o.sources
    · simp [hstep, hsource, eq_comm]
    · simp [hstep, hsource]

theorem Occurrence.live_iff {selected : String} (hselected : o.selected = some selected) {id : String} :
    o.Live id ↔ id ∈ stepIds o.steps ∧ Reached o.steps selected id := by
  refine and_congr_right fun _ => ⟨fun h => h selected hselected, fun h s hs => ?_⟩
  obtain rfl := Option.some.inj (hs.symm.trans hselected)
  exact h

/-- Below a transfer the blocks that the selected source feeds get fresh names. -/
theorem named_entry {selected transfer : String} {reachable : List String} (hsources : o.sources = sources)
    (hsteps : o.steps = steps)
    (hselected : o.selected = some selected) (hauthored : Authored sources steps) (harranged : Arranged sources steps order)
    (hlinked : linkedBlocks sources steps order selected = .ok reachable)
    (hnames : sources.foldlM (nameSource (some (selected, transfer))) ∅ = .ok names)
    (hnamed : steps.foldlM (nameStep (some reachable)) (names, n) = .ok (names', n')) : Named o (some transfer) n names' n' := by
  subst hsources hsteps
  obtain ⟨hmem, hreach, hsingle⟩ := linkedBlocks_linked hauthored.graph harranged hlinked
  have hnodes := List.nodup_append.mp hauthored.graph.distinct
  obtain ⟨hn, hout, hin⟩ := foldlM_nameStep_linked hnodes.2.1 hnamed
  have hfirst := foldlM_nameSource_entry hnames
  have hapart : ∀ id ∈ stepIds o.steps, id ≠ selected := fun id hid heq => hnodes.2.2 selected hmem id hid heq.symm
  let ids := (stepIds o.steps).filter (· ∈ reachable)
  have hids : ∀ i, i ∈ ids ↔ o.Live i := by
    intro i
    rw [Occurrence.live_iff hselected, List.mem_filter, decide_eq_true_eq, hreach]
  have hnone : o.selected ≠ none := by simp [hselected]
  have hselectedOut : selected ∉ ids := fun hs => hapart selected (List.mem_filter.mp hs).1 rfl
  refine ⟨hauthored, fun hroot => absurd hroot hnone, fun s hs => ?_, fun s hs i => ?_,
    fun s hs step hm id hid hlive => ?_, fun s hs => ?_⟩
  all_goals obtain rfl := Option.some.inj (hs.symm.trans hselected)
  · refine ⟨hmem, ?_, rfl⟩
    rw [hout _ hselectedOut, hfirst, if_pos ⟨rfl, hmem⟩]
  · by_cases hi : i ∈ ids
    · obtain ⟨k, -, hk⟩ := List.mem_map.mp (hin ▸ List.mem_map_of_mem hi)
      simp [← hk, (hids i).mp hi]
    · rw [hout i hi, hfirst]
      have hnot : ¬ o.Live i := fun hl => hi ((hids i).mpr hl)
      by_cases his : i = s <;> simp [his, hmem, hnot]
  · have hstep := ((Occurrence.live_iff hselected).mp hlive)
    exact hsingle step hm id hstep.2 (hapart id hstep.1) hid
  · exact ⟨ids, hnodes.2.1.filter _, hids, hn, hin⟩

section Expansion

def Expands (definitions : Definitions) (depth : Nat) : Prop :=
  ∀ (pipelineId revisionId : String) (definition : Value) (entry : Option (String × String)) (expansion expansion' : Expansion),
    Keyed definitions definition → append definitions depth pipelineId revisionId definition entry expansion = .ok expansion' →
      ∃ names n placed, Named ⟨pipelineId, revisionId, definition, entry.map Prod.fst⟩ (entry.map Prod.snd)
        expansion.nextId names n ∧
        Emits definitions ⟨pipelineId, revisionId, definition, entry.map Prod.fst⟩ names
          (Occurrence.steps ⟨pipelineId, revisionId, definition, entry.map Prod.fst⟩) n placed expansion'.nextId ∧
        expansion'.steps = expansion.steps ++ placed.map Placed.value

variable {definitions : Definitions} {depth : Nat} {pipelineId revisionId : String} {definition : Value}
  {entry : Option (String × String)} {names : Renaming} {linked : Option (List String)} {steps : List Value}

theorem foldlM_emit (ih : Expands definitions depth) (hkeyed : Keyed definitions definition)
    {o : Occurrence} (ho : o = ⟨pipelineId, revisionId, definition, entry.map Prod.fst⟩)
    (hlive : ∀ id ∈ stepIds o.steps, linked.all (·.contains id) = true ↔ o.Live id) {rest : List Value} (hrest : rest ⊆ o.steps)
    {start final : Expansion} (h : rest.foldlM (emit definitions depth pipelineId revisionId entry linked names)
      start = .ok final) :
    ∃ placed, Emits definitions o names rest start.nextId placed final.nextId ∧
      final.steps = start.steps ++ placed.map Placed.value := by
  have horigin : ∀ id, (entry.map fun _ => originValue pipelineId revisionId id) = o.origin id := by
    intro id
    rw [ho, Occurrence.origin, Option.map_map]
    rfl
  have hsteps : ∀ step ∈ o.steps, step.keyed = true := by
    intro step hm
    rw [ho, Occurrence.steps] at hm
    cases hp : definition.getArray "pipeline" with
    | none => simp [hp] at hm
    | some items =>
        rw [hp, Option.getD_some] at hm
        exact Value.keyed_of_mem (Value.keyed_get hkeyed.1 (Value.getArray_eq_some.mp hp)) hm
  induction rest generalizing start with
  | nil =>
      cases h
      exact ⟨[], .nil o names _, by simp⟩
  | cons step rest ihrest =>
      rw [List.foldlM_cons, bind_eq_ok] at h
      obtain ⟨next, hstep, hfold⟩ := h
      have hmem : step ∈ o.steps := hrest List.mem_cons_self
      have hlater := @ihrest (fun x hx => hrest (List.mem_cons_of_mem _ hx)) next hfold
      simp only [emit, bind_eq_ok, context_eq_ok] at hstep
      obtain ⟨id, hid, hstep⟩ := hstep
      have hids : id ∈ stepIds o.steps := mem_stepIds.mpr ⟨step, hmem, hid⟩
      by_cases hlinked : linked.all (·.contains id) = true
      · rw [if_pos hlinked, horigin] at hstep
        have hl := (hlive id hids).mp hlinked
        simp only [bind_eq_ok] at hstep
        obtain ⟨⟨mapped, object⟩, hrenamed, hstep⟩ := hstep
        obtain ⟨hmapped, hren⟩ := renameStep_eq_ok hid hrenamed
        by_cases htype : step.getStr "type" = some "pipeline"
        · rw [if_pos htype] at hstep
          simp only [bind_eq_ok, context_eq_ok] at hstep
          obtain ⟨value, hvalue, reference, hparse, child, hchild, happend⟩ := hstep
          have href : step.get "pipeline_ref" = some value := by
            rw [← hren.others "pipeline_ref" (by decide)]
            exact hvalue
          have htransferred : transferred definitions step =
              some ⟨reference.pipelineId, reference.revisionId, child, some reference.inputSource⟩ := by
            simp [transferred, htype, href, hparse, hchild]
          obtain ⟨first, rest', hdefinitions, -⟩ := List.lookup_eq_some_iff.mp hchild
          have hchildKeyed : child.keyed = true := hkeyed.2 (reference.key, child) (by rw [hdefinitions]; simp)
          obtain ⟨names', n₀, below, hnamed, hbelow, hout⟩ := ih _ _ _ _ _ _ ⟨hchildKeyed, hkeyed.2⟩ happend
          obtain ⟨placed, hemits, hfinal⟩ := hlater
          refine ⟨_, .transfer hmem hid hl htransferred (hren.image_transfer (hsteps step hmem) htype hvalue) hmapped
            hnamed hbelow hemits, ?_⟩
          rw [hfinal, hout]
          simp [Placed.under, Function.comp_def]
        · rw [if_neg htype] at hstep
          obtain rfl := Except.ok.inj hstep
          obtain ⟨placed, hemits, hfinal⟩ := hlater
          exact ⟨_, .block hmem hid hl htype (hren.image htype) hemits, by rw [hfinal]; simp⟩
      · rw [if_neg hlinked] at hstep
        obtain rfl := Except.ok.inj hstep
        obtain ⟨placed, hemits, hfinal⟩ := hlater
        exact ⟨placed, .skip hid (fun hl => hlinked ((hlive id hids).mpr hl)) hemits, hfinal⟩

theorem append_expands (depth : Nat) : Expands definitions depth := by
  induction depth with
  | zero =>
      intro pipelineId revisionId definition entry expansion expansion' _ h
      cases h
  | succ depth ih =>
      intro pipelineId revisionId definition entry expansion expansion' hkeyed h
      obtain ⟨found, order, sources, steps, linked, names, names', nextId, start, final, hfound, horder, hsources, hsteps,
        hlinked, hnames, hnamed, hstart, hnext, hfold, hsteps', hnext'⟩ := append_eq_ok h
      obtain ⟨hauthored, harranged⟩ := references_authored hsources hsteps hfound horder
      have hosources : Occurrence.sources ⟨pipelineId, revisionId, definition, entry.map Prod.fst⟩ = sources := by
        simp [Occurrence.sources, hsources]
      have hosteps : Occurrence.steps ⟨pipelineId, revisionId, definition, entry.map Prod.fst⟩ = steps := by
        simp [Occurrence.steps, hsteps]
      have hcall : Named ⟨pipelineId, revisionId, definition, entry.map Prod.fst⟩ (entry.map Prod.snd)
        expansion.nextId names' nextId ∧
          ∀ id ∈ stepIds steps, linked.all (·.contains id) = true ↔
            Occurrence.Live ⟨pipelineId, revisionId, definition, entry.map Prod.fst⟩ id := by
        cases entry with
        | none =>
            obtain rfl : linked = none := by
              cases hlinked
              rfl
            refine ⟨named_root hosources hosteps rfl hauthored hnames hnamed, fun id hid => iff_of_true rfl ⟨?_, fun s hs => ?_⟩⟩
            · rwa [hosteps]
            · cases hs
        | some e =>
            obtain ⟨selected, transfer⟩ := e
            obtain ⟨reachable, hreachable, rfl⟩ : ∃ reachable, linkedBlocks sources steps order selected = .ok reachable ∧
                linked = some reachable := by
              change (linkedBlocks sources steps order selected).map some = .ok linked at hlinked
              rw [map_eq_ok] at hlinked
              obtain ⟨reachable, hreachable, heq⟩ := hlinked
              exact ⟨reachable, hreachable, heq.symm⟩
            refine ⟨named_entry hosources hosteps rfl hauthored harranged hreachable hnames hnamed, fun id hid => ?_⟩
            obtain ⟨-, hreach, -⟩ := linkedBlocks_linked hauthored.graph harranged hreachable
            rw [Occurrence.live_iff rfl, hosteps, Option.all_some, List.contains_iff_mem, hreach]
            exact (and_iff_right hid).symm
      obtain ⟨placed, hemits, hout⟩ :=
        foldlM_emit ih hkeyed rfl (by rw [hosteps]; exact hcall.2) (by rw [hosteps]; exact fun x hx => hx) hfold
      refine ⟨names', nextId, placed, hcall.1, ?_, ?_⟩
      · rw [hosteps, hnext', ← hnext]
        exact hemits
      · rw [hsteps', hout, hstart]

end Expansion

end Galadril.Registry.Pipeline
