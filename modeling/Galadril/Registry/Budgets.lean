import Galadril.Lib.Enumerations
import Galadril.Lib.Checked
import Galadril.Registry.Expansions

namespace Galadril.Registry.Pipeline

open Json Lib Lib.Checked Lib.Enumerations Lib.Fuel Identity Ontology Std

variable {m : Type → Type} [Monad m] [MonadLiftT (Except String) m]

abbrev AppendCall (m : Type → Type) : Type :=
  String → String → Value → Option (String × String) → Expansion → m Expansion

def appendStep (definitions : Definitions) (call : AppendCall m) (pipelineId revisionId : String)
    (entry : Option (String × String)) (linked : Option (List String)) (names : Renaming) (expansion : Expansion)
    (step : Value) : m Expansion := do
  let id ← context (step.getStr "step") "Step identifier missing"
  if linked.all (·.contains id) then
    let (mapped, object) ← renameStep names (entry.map fun _ => originValue pipelineId revisionId id) id step
    if step.getStr "type" = some "pipeline" then
      let value ← context (Members.field object "pipeline_ref") "Reference missing"
      let reference ← context (parseReference value) "invalid pipeline reference document"
      let object := Members.insert "type" (.string "forward") (Members.swapRemove "pipeline_ref" object)
      let child ← context (definitions.lookup reference.key) "Referenced pipeline revision unavailable"
      call reference.pipelineId reference.revisionId child
        (some (reference.inputSource, mapped)) { expansion with steps := expansion.steps ++ [.object object] }
    else return { expansion with steps := expansion.steps ++ [.object object] }
  else return expansion

/-- One call of the expansion. What it calls for a transfer is a parameter. -/
def appendBody (definitions : Definitions) (call : AppendCall m) : AppendCall m :=
  fun pipelineId revisionId definition entry expansion => do
    ensure (!expansion.active.contains pipelineId) "Cross-pipeline cycle detected"
    let found ← references definition
    let transfers := expansion.transfers + found.length
    ensure (transfers ≤ maxTransfers) "Composition exceeds three pipeline transfers"
    let order ← validatePipelineStructure definition
    let sources ← context (definition.getArray "sources") "Pipeline sources missing"
    let steps ← context (definition.getArray "pipeline") "Pipeline steps missing"
    let blocks := expansion.blocks + sources.length + steps.length
    ensure (blocks ≤ maxBlocks) "Expanded composition exceeds 256 blocks"
    let linked ← (entry.mapM fun e => linkedBlocks sources steps order e.1 : Except String (Option (List String)))
    let names ← (sources.foldlM (nameSource entry) ∅ : Except String Renaming)
    let (names, nextId) ← (steps.foldlM (nameStep linked) (names, expansion.nextId) : Except String (Renaming × Nat))
    let expansion := { expansion with active := pipelineId :: expansion.active, transfers, blocks, nextId }
    let expansion ← steps.foldlM (appendStep definitions call pipelineId revisionId entry linked names) expansion
    return { expansion with active := expansion.active.erase pipelineId }

theorem append_succ (definitions : Definitions) (depth : Nat) :
    append definitions (depth + 1) = appendBody definitions (append definitions depth) := by
  funext pipelineId revisionId definition entry expansion
  rw [append]
  rfl

variable {definitions : Definitions} {call : AppendCall (Except String)} {pipelineId revisionId : String}
  {definition : Value} {entry : Option (String × String)} {expansion expansion' : Expansion}

def occurrence (pipelineId revisionId : String) (definition : Value) (entry : Option (String × String)) : Occurrence :=
  ⟨pipelineId, revisionId, definition, entry.map Prod.fst⟩

def Occurrence.references (o : Occurrence) : List PipelineReference :=
  (Pipeline.references o.definition).toOption.getD []

def Occurrence.blocks (o : Occurrence) : Nat := o.sources.length + o.steps.length

def Expansion.open (expansion : Expansion) (o : Occurrence) (nextId : Nat) : Expansion where
  active := o.pipelineId :: expansion.active
  steps := expansion.steps
  blocks := expansion.blocks + o.blocks
  transfers := expansion.transfers + o.references.length
  nextId := nextId

def Expansion.close (expansion : Expansion) (o : Occurrence) : Expansion :=
  { expansion with active := expansion.active.erase o.pipelineId }

theorem live_iff {o : Occurrence} {order : List String} {linked : Option (List String)} {names : Option (String × String)}
    (hselected : o.selected = names.map Prod.fst) (hauthored : Authored o.sources o.steps)
    (harranged : Arranged o.sources o.steps order)
    (hlinked : (names.mapM fun e => linkedBlocks o.sources o.steps order e.1) = .ok linked) {id : String}
    (hid : id ∈ stepIds o.steps) : linked.all (·.contains id) = true ↔ o.Live id := by
  rw [Occurrence.Live, hselected]
  cases names with
  | none =>
      obtain rfl : none = linked := by simpa using hlinked
      simp [hid]
  | some e =>
      simp only [Option.mapM_some, Functor.map, map_eq_ok] at hlinked
      obtain ⟨reachable, hreach, rfl⟩ := hlinked
      have hmem := (linkedBlocks_linked hauthored.graph harranged hreach).2.1 id
      simp [hid, hmem]

theorem appendBody_eq_ok (h : appendBody definitions call pipelineId revisionId definition entry expansion = .ok expansion') :
    let o := occurrence pipelineId revisionId definition entry
    ∃ found order linked names nextId final, pipelineId ∉ expansion.active ∧ references definition = .ok found ∧
      expansion.transfers + o.references.length ≤ maxTransfers ∧ expansion.blocks + o.blocks ≤ maxBlocks ∧
      Authored o.sources o.steps ∧ Arranged o.sources o.steps order ∧
      (entry.mapM fun e => linkedBlocks o.sources o.steps order e.1) = .ok linked ∧
      o.steps.foldlM (appendStep definitions call pipelineId revisionId entry linked names) (expansion.open o nextId) =
        .ok final ∧ expansion' = final.close o := by
  simp only [appendBody, monadLift_self, bind_eq_ok, ensure_eq_ok, context_eq_ok, pure_eq_ok, decide_eq_true_eq] at h
  obtain ⟨_, hactive, found, hfound, _, htransfers, order, horder, sources, hsources, steps, hsteps, _, hblocks, linked,
    hlinked, names, -, ⟨names', nextId⟩, -, final, hfold, rfl⟩ := h
  intro o
  have hs : o.sources = sources := by simp [o, occurrence, Occurrence.sources, hsources]
  have ht : o.steps = steps := by simp [o, occurrence, Occurrence.steps, hsteps]
  have hr : o.references = found := by simp [o, occurrence, Occurrence.references, hfound, Except.toOption]
  have hb : o.blocks = sources.length + steps.length := by rw [Occurrence.blocks, hs, ht]
  obtain ⟨hauthored, harranged⟩ := references_authored hsources hsteps hfound horder
  refine ⟨found, order, linked, names', nextId, final, by simpa using hactive, hfound, hr ▸ htransfers, by omega,
    hs ▸ ht ▸ hauthored, hs ▸ ht ▸ harranged, hs ▸ ht ▸ hlinked, ?_, rfl⟩
  have hopen : expansion.open o nextId = ⟨pipelineId :: expansion.active, expansion.steps,
      expansion.blocks + sources.length + steps.length, expansion.transfers + found.length, nextId⟩ := by
    rw [Expansion.open, hr, hb, Nat.add_assoc]
    rfl
  rw [hopen, ht]
  exact hfold

/-- A step without its occurrence: it is left out, copied, or continued by the
pipeline that it transfers to. -/
theorem appendStep_eq_ok {linked : Option (List String)} {names : Renaming} {step : Value}
    (h : appendStep definitions call pipelineId revisionId entry linked names expansion step = .ok expansion') :
    ∃ id, step.getStr "step" = some id ∧
      (linked.all (·.contains id) = false ∧ expansion' = expansion ∨
      linked.all (·.contains id) = true ∧ step.getStr "type" ≠ some "pipeline" ∧
        (∃ value, expansion' = { expansion with steps := expansion.steps ++ [value] }) ∨
      linked.all (·.contains id) = true ∧ step.getStr "type" = some "pipeline" ∧
        ∃ pipelineId revisionId child input value, transferred definitions step =
            some (occurrence pipelineId revisionId child (some input)) ∧
          call pipelineId revisionId child (some input) { expansion with steps := expansion.steps ++ [value] } =
            .ok expansion') := by
  simp only [appendStep, monadLift_self, bind_eq_ok, context_eq_ok] at h
  obtain ⟨id, hid, h⟩ := h
  refine ⟨id, hid, ?_⟩
  split at h
  next hl =>
    simp only [bind_eq_ok] at h
    obtain ⟨⟨mapped, object⟩, hrename, h⟩ := h
    obtain ⟨-, hrenamed⟩ := renameStep_eq_ok hid hrename
    split at h
    next htype =>
      simp only [bind_eq_ok, context_eq_ok] at h
      obtain ⟨value, hvalue, reference, href, child, hchild, h⟩ := h
      refine .inr (.inr ⟨hl, htype, reference.pipelineId, reference.revisionId, child, (reference.inputSource, mapped),
        _, ?_, h⟩)
      have hget : step.get "pipeline_ref" = some value := by rw [← hrenamed.others "pipeline_ref" (by decide), hvalue]
      simp [transferred, htype, hget, href, hchild, occurrence]
    next htype =>
      rw [pure_eq_ok] at h
      exact .inr (.inl ⟨hl, htype, _, h.symm⟩)
  next hl =>
    rw [pure_eq_ok] at h
    exact .inl ⟨by simpa using hl, h.symm⟩

inductive Nested (definitions : Definitions) : Occurrence → List Occurrence → Prop
  | here (o : Occurrence) : Nested definitions o [o]
  | enter {o child : Occurrence} {step : Value} {id : String} {chain : List Occurrence} : step ∈ o.steps →
      step.getStr "step" = some id → o.Live id → transferred definitions step = some child →
      Nested definitions child chain → Nested definitions o (o :: chain)

def Below (definitions : Definitions) (o : Occurrence) (steps : List Value) (site : List String) (o' : Occurrence) : Prop :=
  ∃ step ∈ steps, ∃ id child rest, site = id :: rest ∧ step.getStr "step" = some id ∧ o.Live id ∧
    transferred definitions step = some child ∧ Occurs definitions child rest o'

def Charged (P : List String → Occurrence → Prop) (before after : Expansion) : Prop :=
  ∃ entries, Enumerates P entries ∧ after.blocks = before.blocks + total Occurrence.blocks entries ∧
    after.transfers = before.transfers + total (fun o => o.references.length) entries

/-- No pipeline is used twice on the way down, nor above it. -/
def Separate (active : List String) (chain : List Occurrence) : Prop :=
  (chain.map Occurrence.pipelineId).Nodup ∧ ∀ o ∈ chain, o.pipelineId ∉ active

structure Expanded (definitions : Definitions) (o : Occurrence) (before after : Expansion) : Prop where
  charged : Charged (Occurs definitions o) before after
  active : after.active = before.active
  separate : ∀ chain, Nested definitions o chain → Separate before.active chain
  blocks : after.blocks ≤ maxBlocks
  transfers : after.transfers ≤ maxTransfers

structure ExpandedSteps (definitions : Definitions) (o : Occurrence) (steps : List Value) (before after : Expansion) :
    Prop where
  charged : Charged (Below definitions o steps) before after
  active : after.active = before.active
  separate : ∀ step ∈ steps, ∀ id child, step.getStr "step" = some id → o.Live id →
    transferred definitions step = some child → ∀ chain, Nested definitions child chain → Separate before.active chain
  blocks : before.blocks ≤ maxBlocks → after.blocks ≤ maxBlocks
  transfers : before.transfers ≤ maxTransfers → after.transfers ≤ maxTransfers

variable {o : Occurrence} {before middle after : Expansion}

theorem charged_none {P : List String → Occurrence → Prop} (hP : ∀ site o, ¬ P site o)
    (hblocks : after.blocks = before.blocks) (htransfers : after.transfers = before.transfers) : Charged P before after :=
  ⟨[], enumerates_nil.congr fun site o => ⟨False.elim, hP site o⟩, hblocks, htransfers⟩

theorem Charged.trans {P Q : List String → Occurrence → Prop} (h : Charged P before middle) (h' : Charged Q middle after)
    (hdisjoint : ∀ site a b, P site a → ¬ Q site b) : Charged (fun site o => P site o ∨ Q site o) before after := by
  obtain ⟨entries, hentries, hblocks, htransfers⟩ := h
  obtain ⟨others, hothers, hblocks', htransfers'⟩ := h'
  refine ⟨entries ++ others, hentries.append hothers hdisjoint, ?_, ?_⟩
  · rw [hblocks', hblocks, total_append, Nat.add_assoc]
  · rw [htransfers', htransfers, total_append, Nat.add_assoc]

theorem Charged.congr {P Q : List String → Occurrence → Prop} (h : Charged P before after)
    (hPQ : ∀ site o, P site o ↔ Q site o) : Charged Q before after := by
  obtain ⟨entries, hentries, hcharged⟩ := h
  exact ⟨entries, hentries.congr hPQ, hcharged⟩

/-- Everything that occurs below a transfer is addressed through it. -/
theorem Charged.under {P : List String → Occurrence → Prop} (h : Charged P before after) (id : String) :
    Charged (fun site o => ∃ rest, site = id :: rest ∧ P rest o) before after := by
  obtain ⟨entries, hentries, hblocks, htransfers⟩ := h
  refine ⟨entries.map fun p => (id :: p.1, p.2), hentries.readdress (fun a b hab => (List.cons.inj hab).2), ?_, ?_⟩
  · rw [hblocks, total_readdress]
  · rw [htransfers, total_readdress]

theorem below_cons {step : Value} {steps : List Value} {id : String} (hid : step.getStr "step" = some id)
    (site : List String) (o' : Occurrence) : Below definitions o (step :: steps) site o' ↔
      (∃ rest, site = id :: rest ∧ o.Live id ∧ ∃ child, transferred definitions step = some child ∧
        Occurs definitions child rest o') ∨ Below definitions o steps site o' := by
  constructor
  · rintro ⟨step', hm, id', child, rest, rfl, hid', hlive, hchild, hoccurs⟩
    rcases List.mem_cons.mp hm with rfl | hm
    · obtain rfl := Option.some.inj (hid.symm.trans hid')
      exact .inl ⟨rest, rfl, hlive, child, hchild, hoccurs⟩
    · exact .inr ⟨step', hm, id', child, rest, rfl, hid', hlive, hchild, hoccurs⟩
  · rintro (⟨rest, rfl, hlive, child, hchild, hoccurs⟩ | ⟨step', hm, hbelow⟩)
    · exact ⟨step, List.mem_cons_self, id, child, rest, rfl, hid, hlive, hchild, hoccurs⟩
    · exact ⟨step', List.mem_cons_of_mem _ hm, hbelow⟩

theorem occurs_iff (site : List String) (o' : Occurrence) :
    Occurs definitions o site o' ↔ (site = [] ∧ o' = o) ∨ Below definitions o o.steps site o' := by
  constructor
  · intro h
    cases h with
    | here => exact .inl ⟨rfl, rfl⟩
    | enter hm hid hlive hchild hoccurs => exact .inr ⟨_, hm, _, _, _, rfl, hid, hlive, hchild, hoccurs⟩
  · rintro (⟨rfl, rfl⟩ | ⟨step, hm, id, child, rest, rfl, hid, hlive, hchild, hoccurs⟩)
    · exact .here o'
    · exact .enter hm hid hlive hchild hoccurs

theorem Below.head {steps : List Value} {id : String} {rest : List String} {o' : Occurrence}
    (h : Below definitions o steps (id :: rest) o') : id ∈ stepIds steps := by
  obtain ⟨step, hm, id', child, rest', heq, hid, -⟩ := h
  obtain ⟨rfl, -⟩ := List.cons.inj heq
  exact mem_stepIds.mpr ⟨step, hm, hid⟩

theorem ExpandedSteps.cons {step : Value} {steps : List Value} {id : String} (hid : step.getStr "step" = some id)
    (hnew : id ∉ stepIds steps) (h : ExpandedSteps definitions o steps middle after)
    (hactive : middle.active = before.active)
    (hbelow : Charged (fun site o' => ∃ rest, site = id :: rest ∧ o.Live id ∧ ∃ child,
      transferred definitions step = some child ∧ Occurs definitions child rest o') before middle)
    (hseparate : o.Live id → ∀ child, transferred definitions step = some child → ∀ chain,
      Nested definitions child chain → Separate before.active chain)
    (hblocks : before.blocks ≤ maxBlocks → middle.blocks ≤ maxBlocks)
    (htransfers : before.transfers ≤ maxTransfers → middle.transfers ≤ maxTransfers) :
    ExpandedSteps definitions o (step :: steps) before after := by
  refine ⟨?_, h.active.trans hactive, fun step' hm id' child hid' hlive hchild chain hchain => ?_,
    fun hb => h.blocks (hblocks hb), fun ht => h.transfers (htransfers ht)⟩
  · refine (hbelow.trans h.charged ?_).congr fun site o' => (below_cons hid site o').symm
    rintro site a b ⟨rest, rfl, -⟩ hbelow'
    exact hnew hbelow'.head
  · rcases List.mem_cons.mp hm with rfl | hm
    · obtain rfl := Option.some.inj (hid.symm.trans hid')
      exact hseparate hlive child hchild chain hchain
    · rw [← hactive]
      exact h.separate step' hm id' child hid' hlive hchild chain hchain

/-- The loop over the steps, given what the calls for its transfers do. -/
theorem foldlM_appendStep {call : AppendCall (Except String)} {pipelineId revisionId : String}
    {entry : Option (String × String)} {linked : Option (List String)} {names : Renaming}
    (hcall : ∀ pipelineId revisionId child entry before after, call pipelineId revisionId child entry before = .ok after →
      Expanded definitions (occurrence pipelineId revisionId child entry) before after)
    (hlive : ∀ id ∈ stepIds o.steps, linked.all (·.contains id) = true ↔ o.Live id) {steps : List Value}
    (hsteps : ∀ step ∈ steps, step ∈ o.steps) (hnd : (stepIds steps).Nodup)
    (h : steps.foldlM (appendStep definitions call pipelineId revisionId entry linked names) before = .ok after) :
    ExpandedSteps definitions o steps before after := by
  induction steps generalizing before with
  | nil =>
      cases h
      refine ⟨charged_none ?_ rfl rfl, rfl, fun step hm => ?_, fun hb => hb, fun ht => ht⟩
      · rintro site o' ⟨step, hm, -⟩
        cases hm
      · cases hm
  | cons step steps ih =>
      rw [List.foldlM_cons, bind_eq_ok] at h
      obtain ⟨middle, hstep, hrest⟩ := h
      obtain ⟨id, hid, hcases⟩ := appendStep_eq_ok hstep
      rw [stepIds_cons hid, List.nodup_cons] at hnd
      have hrest := ih (fun step hm => hsteps step (List.mem_cons_of_mem _ hm)) hnd.2 hrest
      have hlive := hlive id (mem_stepIds.mpr ⟨step, hsteps step List.mem_cons_self, hid⟩)
      rcases hcases with ⟨hskip, rfl⟩ | ⟨hl, htype, value, rfl⟩ | ⟨hl, htype, p, r, child, input, value, hchild, happend⟩
      · have hdead : ¬ o.Live id := by
          rw [← hlive, hskip]
          exact Bool.false_ne_true
        refine hrest.cons hid hnd.1 rfl (charged_none ?_ rfl rfl) (fun hl => absurd hl hdead) (fun hb => hb) (fun ht => ht)
        rintro site o' ⟨rest, -, hl, -⟩
        exact hdead hl
      · have hstays : transferred definitions step = none := by simp [transferred, htype]
        refine hrest.cons hid hnd.1 rfl (charged_none ?_ rfl rfl) (fun _ child hchild => ?_) (fun hb => hb) (fun ht => ht)
        · rintro site o' ⟨rest, -, -, child, hchild, -⟩
          simp [hstays] at hchild
        · simp [hstays] at hchild
      · have hexpanded := hcall p r child (some input) _ _ happend
        refine hrest.cons hid hnd.1 hexpanded.active ?_ (fun _ child' hchild' chain hchain => ?_)
          (fun _ => hexpanded.blocks) (fun _ => hexpanded.transfers)
        · have hcharged : Charged (Occurs definitions (occurrence p r child (some input))) before middle := hexpanded.charged
          refine (hcharged.under id).congr fun site o' => ?_
          simp [hchild, hlive.mp hl]
        · obtain rfl := Option.some.inj (hchild.symm.trans hchild')
          exact hexpanded.separate chain hchain

/-- Each occurrence is charged once, against both budgets, and no pipeline is
nested in itself. -/
theorem append_expanded {depth : Nat} {pipelineId revisionId : String} {definition : Value}
    {entry : Option (String × String)} (h : append definitions depth pipelineId revisionId definition entry before = .ok after) :
    Expanded definitions (occurrence pipelineId revisionId definition entry) before after := by
  induction depth generalizing pipelineId revisionId definition entry before after with
  | zero => cases h
  | succ depth ih =>
      rw [append_succ] at h
      obtain ⟨found, order, linked, names, nextId, final, hactive, -, htransfers, hblocks, hauthored, harranged, hlinked,
        hfold, rfl⟩ := appendBody_eq_ok h
      generalize ho : occurrence pipelineId revisionId definition entry = o at *
      have hid : o.pipelineId = pipelineId := by rw [← ho, occurrence]
      have hsteps := foldlM_appendStep (o := o) (fun _ _ _ _ _ _ hcall => ih hcall)
        (fun id hid => live_iff (by rw [← ho, occurrence]) hauthored harranged hlinked hid) (fun _ hm => hm)
        (List.nodup_append.mp hauthored.graph.distinct).2.1 hfold
      refine ⟨?_, ?_, fun chain hchain => ?_, hsteps.blocks hblocks, hsteps.transfers htransfers⟩
      · obtain ⟨entries, hentries, hb, ht⟩ := hsteps.charged
        refine ⟨([], o) :: entries, (hentries.cons ?_).congr fun site o' => (occurs_iff site o').symm, ?_, ?_⟩
        · rintro o' ⟨_, _, _, _, _, heq, -⟩
          cases heq
        · rw [total_cons, ← Nat.add_assoc]
          exact hb
        · rw [total_cons, ← Nat.add_assoc]
          exact ht
      · rw [Expansion.close, hsteps.active]
        exact List.erase_cons_head _ _
      · cases hchain with
        | here =>
            refine ⟨List.nodup_singleton _, fun o' hm => ?_⟩
            rw [List.mem_singleton.mp hm, hid]
            exact hactive
        | @enter _ child step id chain hm hid' hlive hchild hchain =>
            -- What is nested below avoids this pipeline and those above it.
            obtain ⟨hnd, havoid⟩ := hsteps.separate step hm id child hid' hlive hchild chain hchain
            refine ⟨?_, fun o' hm => ?_⟩
            · rw [List.map_cons, List.nodup_cons]
              refine ⟨fun hin => ?_, hnd⟩
              obtain ⟨o', hm', heq⟩ := List.mem_map.mp hin
              exact havoid o' hm' (heq ▸ List.mem_cons_self)
            · rcases List.mem_cons.mp hm with rfl | hm
              · rw [hid]
                exact hactive
              · exact fun hin => havoid o' hm (List.mem_cons_of_mem _ hin)

/-- The source's recursion, with fuel for its calls. -/
def appendWithin (definitions : Definitions) : Nat → AppendCall (Fueled String)
  | 0 => fun _ _ _ _ _ => ExceptT.mk none
  | fuel + 1 => appendBody definitions (appendWithin definitions fuel)

/-- A transfer block adds its reference, any other block none. -/
theorem nodeReference_eq_ok {steps : List Value} {found found' : List PipelineReference} {node : Value}
    (h : nodeReference steps found node = .ok found') :
    (node.getStr "type" = some "pipeline" ∧ found.length + 1 ≤ maxTransfers ∧
      ∃ id reference, transferReference steps id node = .ok reference ∧ found' = found ++ [reference]) ∨
    (node.getStr "type" ≠ some "pipeline" ∧ found' = found) := by
  simp only [nodeReference, bind_eq_ok] at h
  obtain ⟨id, -, _, -, h⟩ := h
  split at h
  next htype =>
    simp only [bind_eq_ok, ensure_eq_ok, decide_eq_true_eq, pure_eq_ok] at h
    obtain ⟨reference, href, _, hmax, rfl⟩ := h
    exact .inl ⟨htype, hmax, id, reference, href, rfl⟩
  next htype =>
    simp only [bind_eq_ok, pure_eq_ok] at h
    obtain ⟨_, -, rfl⟩ := h
    exact .inr ⟨htype, rfl⟩

theorem foldlM_nodeReference_length {steps nodes : List Value} {found found' : List PipelineReference}
    (h : nodes.foldlM (nodeReference steps) found = .ok found') :
    found'.length = found.length + nodes.countP fun node => node.getStr "type" = some "pipeline" := by
  induction nodes generalizing found with
  | nil =>
      cases h
      rfl
  | cons node nodes ih =>
      rw [List.foldlM_cons, bind_eq_ok] at h
      obtain ⟨next, hnode, hrest⟩ := h
      rw [ih hrest, List.countP_cons]
      obtain ⟨htype, -, id, reference, -, rfl⟩ | ⟨htype, rfl⟩ := nodeReference_eq_ok hnode
      · simp [htype]
        omega
      · simp [htype]

theorem references_pos {definition step : Value} {steps : List Value} {found : List PipelineReference}
    (h : references definition = .ok found) (hsteps : definition.getArray "pipeline" = some steps) (hm : step ∈ steps)
    (htype : step.getStr "type" = some "pipeline") : 0 < found.length := by
  simp only [references, bind_eq_ok, context_eq_ok] at h
  obtain ⟨sources, -, _, hsteps', _, -, hfold⟩ := h
  obtain rfl := Option.some.inj (hsteps'.symm.trans hsteps)
  rw [foldlM_nodeReference_length hfold]
  have : 0 < (sources ++ _).countP fun node => node.getStr "type" = some "pipeline" :=
    List.countP_pos_iff.mpr ⟨step, List.mem_append_right _ hm, by simpa using htype⟩
  omega

/-- One step, when the fuel is enough for the call that it makes. -/
theorem appendStep_settles {call : AppendCall (Fueled String)} {depth : Nat} {pipelineId revisionId : String}
    {entry : Option (String × String)} {linked : Option (List String)} {names : Renaming} {expansion : Expansion}
    {step : Value} (hcall : step.getStr "type" = some "pipeline" → ∀ pipelineId revisionId child entry steps,
      Settles (call pipelineId revisionId child entry { expansion with steps := steps })
        (append definitions depth pipelineId revisionId child entry { expansion with steps := steps })) :
    Settles (appendStep definitions call pipelineId revisionId entry linked names expansion step)
      (appendStep definitions (append definitions depth) pipelineId revisionId entry linked names expansion step) := by
  refine (settles_lift _).bind fun id _ => ?_
  split
  · refine (settles_lift _).bind fun renamed _ => ?_
    by_cases htype : step.getStr "type" = some "pipeline"
    · simp only [if_pos htype]
      exact (settles_lift _).bind fun value _ => (settles_lift _).bind fun reference _ => (settles_lift _).bind fun child _ =>
        hcall htype _ _ _ _ _
    · simp only [if_neg htype]
      exact settles_pure _
  · exact settles_pure _

/-- A step never gives transfers back. -/
theorem appendStep_transfers {depth : Nat} {pipelineId revisionId : String} {entry : Option (String × String)}
    {linked : Option (List String)} {names : Renaming} {expansion expansion' : Expansion} {step : Value}
    (h : appendStep definitions (append definitions depth) pipelineId revisionId entry linked names expansion step =
      .ok expansion') :
    expansion.transfers ≤ expansion'.transfers ∧
      (expansion.transfers ≤ maxTransfers → expansion'.transfers ≤ maxTransfers) := by
  obtain ⟨id, -, ⟨-, rfl⟩ | ⟨-, -, value, rfl⟩ | ⟨-, -, p, r, child, input, value, -, happend⟩⟩ := appendStep_eq_ok h
  · exact ⟨Nat.le_refl _, fun ht => ht⟩
  · exact ⟨Nat.le_refl _, fun ht => ht⟩
  · have hexpanded := append_expanded happend
    obtain ⟨entries, -, -, htransfers⟩ := hexpanded.charged
    exact ⟨by simp [htransfers], fun _ => hexpanded.transfers⟩

/-- Charging before descending bounds the recursion: every call below has fewer
transfers left, so the fuel outlasts them. -/
theorem appendWithin_settles {fuel depth : Nat} {pipelineId revisionId : String} {definition : Value}
    {entry : Option (String × String)} {expansion : Expansion} (hbudget : expansion.transfers ≤ maxTransfers)
    (hfuel : maxTransfers < expansion.transfers + fuel) (hdepth : maxTransfers < expansion.transfers + depth) :
    Settles (appendWithin definitions fuel pipelineId revisionId definition entry expansion)
      (append definitions depth pipelineId revisionId definition entry expansion) := by
  induction fuel generalizing depth pipelineId revisionId definition entry expansion with
  | zero => omega
  | succ fuel ih =>
      obtain ⟨depth, rfl⟩ : ∃ d, depth = d + 1 := ⟨depth - 1, by omega⟩
      rw [append_succ, appendWithin]
      refine (settles_lift _).bind fun _ _ => (settles_lift _).bind fun found hfound => (settles_lift _).bind fun _ hmax =>
        (settles_lift _).bind fun order _ => (settles_lift _).bind fun sources _ => (settles_lift _).bind fun steps hsteps =>
        (settles_lift _).bind fun _ _ => (settles_lift _).bind fun linked _ => (settles_lift _).bind fun names _ =>
        (settles_lift _).bind fun named _ => Settles.bind ?_ fun _ _ => settles_pure _
      rw [ensure_eq_ok, decide_eq_true_eq] at hmax
      rw [context_eq_ok] at hsteps
      refine Settles.foldlM (P := fun b => expansion.transfers + found.length ≤ b.transfers ∧ b.transfers ≤ maxTransfers)
        (fun b hb step hm => ⟨appendStep_settles fun htype p r child entry items => ?_, fun b' hb' => ?_⟩)
        ⟨Nat.le_refl _, hmax⟩
      · have hpos := references_pos hfound hsteps hm htype
        exact ih hb.2 (by simp only; omega) (by simp only; omega)
      · have hgrow := appendStep_transfers hb'
        exact ⟨by omega, hgrow.2 hb.2⟩

structure CompiledPipeline where
  definition : Value
  blocks : Nat
  transfers : Nat

def compiledPipeline (definition : Value) (expansion : Expansion) : Except String CompiledPipeline := do
  let object ← context definition.asObject "Invalid pipeline"
  return ⟨.object (Members.insert "pipeline" (.array expansion.steps) object), expansion.blocks, expansion.transfers⟩

def compileWithStats (pipelineId revisionId : String) (definition : Value) (definitions : Definitions) :
    Except String CompiledPipeline := do
  let expansion ← append definitions (maxTransfers + 1) pipelineId revisionId definition none ⟨[], [], 0, 0, 0⟩
  compiledPipeline definition expansion

/-- The source's computation, whose recursion has no bound of its own. -/
def compileWithin (fuel : Nat) (pipelineId revisionId : String) (definition : Value) (definitions : Definitions) :
    Fueled String CompiledPipeline := do
  let expansion ← appendWithin definitions fuel pipelineId revisionId definition none ⟨[], [], 0, 0, 0⟩
  compiledPipeline definition expansion

theorem compile_eq (pipelineId revisionId : String) (definition : Value) (definitions : Definitions) :
    compile pipelineId revisionId definition definitions =
      (compileWithStats pipelineId revisionId definition definitions).map CompiledPipeline.definition := by
  rw [compile, compileWithStats]
  cases append definitions (maxTransfers + 1) pipelineId revisionId definition none ⟨[], [], 0, 0, 0⟩ with
  | error e => rfl
  | ok expansion =>
      simp only [ok_bind, compiledPipeline]
      cases context definition.asObject "Invalid pipeline" <;> rfl

/-- Compilation ends, charges every expanded occurrence once within both
budgets, and never nests a pipeline in itself. -/
theorem compileWithStats_accounts (pipelineId revisionId : String) (definition : Value) (definitions : Definitions) :
    (∀ fuel, maxTransfers < fuel → (compileWithin fuel pipelineId revisionId definition definitions).run =
      some (compileWithStats pipelineId revisionId definition definitions)) ∧
    ∀ compiled, compileWithStats pipelineId revisionId definition definitions = .ok compiled →
      (∃ entries : List (List String × Occurrence),
        Enumerates (Occurs definitions ⟨pipelineId, revisionId, definition, none⟩) entries ∧
        compiled.blocks = total (fun o => o.sources.length + o.steps.length) entries ∧
        compiled.transfers = total (fun o => o.references.length) entries) ∧
      compiled.blocks ≤ 256 ∧ compiled.transfers ≤ 3 ∧
      ∀ chain, Nested definitions ⟨pipelineId, revisionId, definition, none⟩ chain →
        (chain.map Occurrence.pipelineId).Nodup := by
  constructor
  · intro fuel hfuel
    refine (appendWithin_settles (Nat.zero_le _) ?_ ?_).bind fun _ _ => settles_lift _
    · simpa using hfuel
    · simp
  · intro compiled h
    simp only [compileWithStats, compiledPipeline, bind_eq_ok, pure_eq_ok] at h
    obtain ⟨expansion, happend, _, -, rfl⟩ := h
    have hexpanded := append_expanded happend
    obtain ⟨entries, hentries, hblocks, htransfers⟩ := hexpanded.charged
    refine ⟨⟨entries, hentries, ?_, ?_⟩, hexpanded.blocks, hexpanded.transfers, fun chain hchain =>
      (hexpanded.separate chain hchain).1⟩
    · rw [hblocks, Nat.zero_add]
      rfl
    · simpa using htransfers

def entrance : Value := .object [("id", .string "input"), ("type", .string "mail")]

def deposit : Value :=
  .object [("step", .string "store"), ("type", .string "sink"), ("input_from", .array [.string "input"])]

def handover (step : String) : Value :=
  .object [("step", .string step), ("type", .string "pipeline"), ("input_from", .array [.string "input"]),
    ("pipeline_ref", .object [("pipeline_id", .string "archive"), ("revision_id", .string "aaaaaaaaaaaaaaaaaaaa"),
      ("input_source", .string "input")])]

def archived (steps : List Value) : Value := .object [("sources", .array [entrance]), ("pipeline", .array steps)]

def archive : Definitions := [(("archive", "aaaaaaaaaaaaaaaaaaaa"), archived [deposit])]

/-- Two transfers into one pipeline charge it twice. -/
theorem compileWithStats_accounts_repeated :
    (compileWithin 4 "root" "bbbbbbbbbbbbbbbbbbbb" (archived [handover "first", handover "second"]) archive).run =
      some (compileWithStats "root" "bbbbbbbbbbbbbbbbbbbb" (archived [handover "first", handover "second"]) archive) ∧
    ∃ (compiled : CompiledPipeline) (entries : List (List String × Occurrence)),
      compiled.blocks = 7 ∧ compiled.transfers = 2 ∧
      Enumerates (Occurs archive ⟨"root", "bbbbbbbbbbbbbbbbbbbb", archived [handover "first", handover "second"], none⟩)
        entries ∧ compiled.blocks = total (fun o => o.sources.length + o.steps.length) entries := by
  obtain ⟨hends, haccounts⟩ := compileWithStats_accounts "root" "bbbbbbbbbbbbbbbbbbbb"
    (archived [handover "first", handover "second"]) archive
  have hrun : ((compileWithStats "root" "bbbbbbbbbbbbbbbbbbbb" (archived [handover "first", handover "second"])
      archive).toOption.any fun c => c.blocks = 7 ∧ c.transfers = 2) = true := by
    decide +kernel
  obtain ⟨compiled, hcompiled, hcounts⟩ := (Option.any_eq_true _ _).mp hrun
  have hok : compileWithStats "root" "bbbbbbbbbbbbbbbbbbbb" (archived [handover "first", handover "second"]) archive =
      .ok compiled := by
    cases h : compileWithStats "root" "bbbbbbbbbbbbbbbbbbbb" (archived [handover "first", handover "second"]) archive with
    | error e => simp [h, Except.toOption] at hcompiled
    | ok c => simpa [h, Except.toOption] using hcompiled
  obtain ⟨⟨entries, hentries, hblocks, -⟩, -⟩ := haccounts compiled hok
  rw [decide_eq_true_eq] at hcounts
  exact ⟨hends 4 (by decide), compiled, entries, hcounts.1, hcounts.2, hentries, hblocks⟩

end Galadril.Registry.Pipeline
