import Galadril.Registry.Lookups
import Galadril.Registry.Requests

namespace Galadril.Registry

open Json Lib.Checked Lib.Revisions Lib.Programs Identity Ontology Pipeline Std

def loadDependency (requireOntologies : Bool) (reference : PipelineReference) : Op (Value × List PipelineReference) := do
  let snapshot ← Prog.pinned reference.revisionId
  whenever requireOntologies (validatePipelineOntologyDependencies snapshot.state reference.pipelineId)
  let child ← require .domain (liveAt snapshot.state reference.pipelineId) "Referenced pipeline unavailable"
  let more ← reported .composition (references child.definition)
  return (child.definition, more)

/-- The loop of the loader. What it took from the store is kept in order; the
reference that is taken next is the first. -/
structure Worklist where
  pending : List PipelineReference
  definitions : Definitions
  loads : List ReferenceKey

def Worklist.start (found : List PipelineReference) : Worklist := ⟨found.reverse, [], []⟩

def Worklist.round (s : Branchline) (requireOntologies : Bool) (w : Worklist) :
    Worklist × Option (Except Failure Definitions) :=
  match w.pending with
  | [] => (w, some (.ok w.definitions))
  | reference :: pending =>
      if (w.definitions.lookup reference.key).isSome then ({ w with pending := pending }, none)
      else if w.definitions.length < maxTransfers then
        let loads := w.loads ++ [reference.key]
        match (loadDependency requireOntologies reference).query backend s with
        | .error e => (⟨pending, w.definitions, loads⟩, some (.error e))
        | .ok (child, more) => (⟨more.reverse ++ pending, (reference.key, child) :: w.definitions, loads⟩, none)
      else (w, some (.error ⟨.domain, "Composition exceeds three pipeline transfers"⟩))

def Worklist.rounds (s : Branchline) (requireOntologies : Bool) :
    Nat → Worklist → Option (Worklist × Except Failure Definitions)
  | 0, _ => none
  | fuel + 1, w =>
      match w.round s requireOntologies with
      | (w, some outcome) => some (w, outcome)
      | (w, none) => rounds s requireOntologies fuel w

def Worklist.measure (w : Worklist) : Nat := w.pending.length + 3 * (maxTransfers - w.definitions.length)

def pinnedDefinition (s : Branchline) (k : ReferenceKey) : Option Value :=
  (s.find k.2).bind fun snapshot => (liveAt snapshot.state k.1).map (·.definition)

def pinnedDefinitions (s : Branchline) : Definitions :=
  s.all.flatMap fun snapshot => (snapshot.state.pipelines.toList.filter fun p => p.2.deletedAtMs.isNone).map fun p =>
    ((p.1, snapshot.revisionId), p.2.definition)

theorem lookup_of_unique {l : Definitions} {k : ReferenceKey} {v : Value} (hmem : (k, v) ∈ l)
    (hunique : ∀ v', (k, v') ∈ l → v' = v) : l.lookup k = some v := by
  cases h : l.lookup k with
  | none => simpa using List.lookup_eq_none_iff.mp h (k, v) hmem
  | some v' =>
      obtain ⟨l₁, l₂, rfl, -⟩ := List.lookup_eq_some_iff.mp h
      rw [hunique v' (List.mem_append_right _ List.mem_cons_self)]

theorem mem_pinnedDefinitions {s : Branchline} {k : ReferenceKey} {v : Value} :
    (k, v) ∈ pinnedDefinitions s ↔ pinnedDefinition s k = some v := by
  obtain ⟨id, revision⟩ := k
  simp only [pinnedDefinitions, pinnedDefinition, List.mem_flatMap, List.mem_map, List.mem_filter, Prod.mk.injEq,
    Option.bind_eq_some_iff, Option.map_eq_some_iff, liveAt, Option.filter_eq_some_iff, Store.find_eq_some, Prod.exists]
  constructor
  · rintro ⟨snapshot, hm, id', record, ⟨hrecord, hlive⟩, ⟨rfl, rfl⟩, rfl⟩
    exact ⟨snapshot, ⟨hm, rfl⟩, record, ⟨Keyed.mem_toList.mp hrecord, hlive⟩, rfl⟩
  · rintro ⟨snapshot, ⟨hm, rfl⟩, record, ⟨hrecord, hlive⟩, rfl⟩
    exact ⟨snapshot, hm, id, record, ⟨Keyed.mem_toList.mpr hrecord, hlive⟩, ⟨rfl, rfl⟩, rfl⟩

/-- The map of everything the store pins. -/
theorem pinnedDefinitions_lookup (s : Branchline) (k : ReferenceKey) :
    (pinnedDefinitions s).lookup k = pinnedDefinition s k := by
  cases h : pinnedDefinition s k with
  | none =>
      cases hl : (pinnedDefinitions s).lookup k with
      | none => rfl
      | some v =>
          obtain ⟨l₁, l₂, heq, -⟩ := List.lookup_eq_some_iff.mp hl
          have hm : (k, v) ∈ pinnedDefinitions s := heq ▸ List.mem_append_right _ List.mem_cons_self
          rw [mem_pinnedDefinitions, h] at hm
          cases hm
  | some v =>
      refine lookup_of_unique (mem_pinnedDefinitions.mpr h) fun v' hm => ?_
      rw [mem_pinnedDefinitions, h] at hm
      exact (Option.some.inj hm).symm

variable {s : Branchline} {strict : Bool} {found : List PipelineReference} {w : Worklist}

def Worklist.Has (w : Worklist) (r : PipelineReference) : Prop := (w.definitions.lookup r.key).isSome = true ∨ r ∈ w.pending

/-- Every load is kept, once, and nothing that a kept definition refers to is
forgotten. -/
structure Worklist.Sound (s : Branchline) (found : List PipelineReference) (w : Worklist) : Prop where
  loads : w.loads = (w.definitions.map Prod.fst).reverse
  distinct : w.loads.Nodup
  bounded : w.definitions.length ≤ maxTransfers
  pinned : ∀ k v, w.definitions.lookup k = some v → pinnedDefinition s k = some v
  roots : ∀ r ∈ found, w.Has r
  closed : ∀ k v more, w.definitions.lookup k = some v → references v = .ok more → ∀ r ∈ more, w.Has r

def Worklist.outcome (s : Branchline) (strict : Bool) (w : Worklist) : Except Failure Definitions :=
  (loadDefinitions strict (maxTransfers - w.definitions.length) w.pending w.definitions).query backend s

theorem references_length_le {definition : Value} (h : references definition = .ok found) : found.length ≤ maxTransfers := by
  simp only [references, bind_eq_ok, context_eq_ok] at h
  obtain ⟨sources, -, steps, -, _, -, hfold⟩ := h
  refine foldlM_invariant (P := fun found => found.length ≤ maxTransfers) (Nat.zero_le _) (fun b hb node _ c hc => ?_) hfold
  obtain ⟨-, hmax, id, reference, -, rfl⟩ | ⟨-, rfl⟩ := nodeReference_eq_ok hc
  · simpa using hmax
  · exact hb

theorem sound_start (found : List PipelineReference) : (Worklist.start found).Sound s found where
  loads := rfl
  distinct := List.nodup_nil
  bounded := Nat.zero_le _
  pinned k v h := by cases h
  roots r hr := .inr (List.mem_reverse.mpr hr)
  closed k v more h := by cases h

theorem Worklist.Sound.length (h : w.Sound s found) : w.loads.length = w.definitions.length := by
  rw [h.loads, List.length_reverse, List.length_map]

theorem lookup_none {l : Definitions} {k : ReferenceKey} (h : ¬ (l.lookup k).isSome = true) : k ∉ l.map Prod.fst := by
  intro hm
  obtain ⟨⟨k', v⟩, hentry, rfl⟩ := List.mem_map.mp hm
  rw [Bool.not_eq_true, Option.isSome_eq_false_iff, Option.isNone_iff_eq_none] at h
  simpa using List.lookup_eq_none_iff.mp h (k', v) hentry

theorem Worklist.Sound.fresh (h : w.Sound s found) {reference : PipelineReference}
    (hnew : ¬ (w.definitions.lookup reference.key).isSome = true) : (w.loads ++ [reference.key]).Nodup := by
  rw [List.nodup_append]
  refine ⟨h.distinct, List.nodup_singleton _, ?_⟩
  rintro a ha b hb rfl
  rw [List.mem_singleton.mp hb, h.loads, List.mem_reverse] at ha
  exact lookup_none hnew ha

theorem loadDependency_pinned {reference : PipelineReference} {child : Value} {more : List PipelineReference}
    (h : (loadDependency strict reference).query backend s = .ok (child, more)) :
    pinnedDefinition s reference.key = some child ∧ references child = .ok more := by
  simp only [loadDependency, Prog.query_bind, bind_eq_ok, Prog.query_pinned, context_eq_ok, query_require, query_reported,
    Prog.query_pure, Except.ok.injEq, Prod.mk.injEq] at h
  obtain ⟨snapshot, hfind, _, -, record, hrecord, found, hfound, rfl, rfl⟩ := h
  refine ⟨?_, hfound⟩
  rw [pinnedDefinition, PipelineReference.key, hfind]
  simp [hrecord]

section Loader

variable {budget : Nat} {reference : PipelineReference} {pending : List PipelineReference} {definitions : Definitions}

theorem loadDefinitions_nil : loadDefinitions strict budget [] definitions = pure definitions := by
  unfold loadDefinitions
  rfl

theorem loadDefinitions_loaded (h : (definitions.lookup reference.key).isSome = true) :
    loadDefinitions strict budget (reference :: pending) definitions = loadDefinitions strict budget pending definitions := by
  conv => lhs; unfold loadDefinitions
  conv => rhs; unfold loadDefinitions
  rw [List.dropWhile_cons, if_pos h]

theorem loadDefinitions_full (h : ¬ (definitions.lookup reference.key).isSome = true) :
    loadDefinitions strict 0 (reference :: pending) definitions =
      reported .domain (.error "Composition exceeds three pipeline transfers") := by
  unfold loadDefinitions
  rw [List.dropWhile_cons, if_neg h]

theorem loadDefinitions_load (h : ¬ (definitions.lookup reference.key).isSome = true) :
    (loadDefinitions strict (budget + 1) (reference :: pending) definitions).query backend s =
      (loadDependency strict reference).query backend s >>= fun loaded =>
        (loadDefinitions strict budget (loaded.2.reverse ++ pending) ((reference.key, loaded.1) :: definitions)).query
          backend s := by
  have hload : loadDefinitions strict (budget + 1) (reference :: pending) definitions =
      loadDependency strict reference >>= fun loaded =>
        loadDefinitions strict budget (loaded.2.reverse ++ pending) ((reference.key, loaded.1) :: definitions) := by
    conv => lhs; unfold loadDefinitions
    rw [List.dropWhile_cons, if_neg h]
    simp only [loadDependency, bind_assoc, pure_bind]
  rw [hload, Prog.query_bind]

end Loader

theorem Worklist.Sound.skip (h : w.Sound s found) {reference : PipelineReference} {pending : List PipelineReference}
    (hpending : w.pending = reference :: pending) (hloaded : (w.definitions.lookup reference.key).isSome = true) :
    (⟨pending, w.definitions, w.loads⟩ : Worklist).Sound s found := by
  have hkeep : ∀ r, w.Has r → (⟨pending, w.definitions, w.loads⟩ : Worklist).Has r := by
    rintro r (hr | hr)
    · exact .inl hr
    · rw [hpending] at hr
      rcases List.mem_cons.mp hr with rfl | hr
      · exact .inl hloaded
      · exact .inr hr
  exact ⟨h.loads, h.distinct, h.bounded, h.pinned, fun r hr => hkeep r (h.roots r hr),
    fun k v more hk hmore r hr => hkeep r (h.closed k v more hk hmore r hr)⟩

theorem Worklist.Sound.load (h : w.Sound s found) {reference : PipelineReference} {pending more : List PipelineReference}
    {child : Value} (hpending : w.pending = reference :: pending)
    (hnew : ¬ (w.definitions.lookup reference.key).isSome = true) (hroom : w.definitions.length < maxTransfers)
    (hpinned : pinnedDefinition s reference.key = some child) (hmore : references child = .ok more) :
    (⟨more.reverse ++ pending, (reference.key, child) :: w.definitions, w.loads ++ [reference.key]⟩ : Worklist).Sound s
      found := by
  have hlookup : ∀ k, ((reference.key, child) :: w.definitions).lookup k =
      if k = reference.key then some child else w.definitions.lookup k := by
    intro k
    rw [List.lookup_cons]
    by_cases hk : k = reference.key
    · simp [hk]
    · rw [if_neg hk, beq_false_of_ne hk]
  have hkeep : ∀ r, w.Has r → (⟨more.reverse ++ pending, (reference.key, child) :: w.definitions,
      w.loads ++ [reference.key]⟩ : Worklist).Has r := by
    intro r hr
    by_cases hk : r.key = reference.key
    · exact .inl (by simp only [hlookup, hk, if_true, Option.isSome_some])
    · rcases hr with hr | hr
      · exact .inl (by simp only [hlookup, hk, if_false, hr])
      · rw [hpending] at hr
        rcases List.mem_cons.mp hr with rfl | hr
        · exact absurd rfl hk
        · exact .inr (List.mem_append_right _ hr)
  refine ⟨by simp [h.loads], h.fresh hnew, hroom, fun k v hk => ?_, fun r hr => hkeep r (h.roots r hr),
    fun k v more' hk hmore' r hr => ?_⟩
  · simp only [hlookup] at hk
    split at hk
    next heq =>
      obtain rfl := Option.some.inj hk
      exact heq ▸ hpinned
    next => exact h.pinned k v hk
  · simp only [hlookup] at hk
    split at hk
    · obtain rfl := Option.some.inj hk
      obtain rfl := Except.ok.inj (hmore.symm.trans hmore')
      exact .inr (List.mem_append_left _ (List.mem_reverse.mpr hr))
    · exact hkeep r (h.closed k v more' hk hmore' r hr)

/-- A round skips a reference, loads one, or ends the loop. -/
theorem Worklist.Sound.round (h : w.Sound s found) (strict : Bool) :
    (∃ w', w.round s strict = (w', none) ∧ w'.Sound s found ∧ w'.measure < w.measure ∧
      w'.outcome s strict = w.outcome s strict) ∨
    ∃ w', w.round s strict = (w', some (w.outcome s strict)) ∧ w'.loads.Nodup ∧ w'.loads.length ≤ maxTransfers ∧
      ∀ definitions, w.outcome s strict = .ok definitions → definitions = w.definitions ∧ w.pending = [] := by
  have hlength := h.length
  unfold Worklist.round Worklist.outcome
  split
  next hpending =>
    right
    rw [hpending, loadDefinitions_nil, Prog.query_pure]
    exact ⟨w, rfl, h.distinct, hlength ▸ h.bounded, fun definitions hd => ⟨(Except.ok.inj hd).symm, rfl⟩⟩
  next reference pending hpending =>
    rw [hpending]
    split
    next hloaded =>
      left
      refine ⟨_, rfl, h.skip hpending hloaded, ?_, ?_⟩
      · simp [Worklist.measure, hpending]
      · rw [loadDefinitions_loaded hloaded]
    next hnew =>
      split
      next hroom =>
        obtain ⟨budget, hbudget⟩ : ∃ n, maxTransfers - w.definitions.length = n + 1 :=
          ⟨maxTransfers - w.definitions.length - 1, by omega⟩
        rw [hbudget, loadDefinitions_load hnew]
        split
        next e hload =>
          right
          rw [hload]
          refine ⟨_, rfl, h.fresh hnew, ?_, fun definitions hd => by cases hd⟩
          rw [List.length_append, List.length_singleton, hlength]
          exact hroom
        next child more hload =>
          left
          obtain ⟨hpinned, hmore⟩ := loadDependency_pinned hload
          refine ⟨_, rfl, h.load hpending hnew hroom hpinned hmore, ?_, ?_⟩
          · have hle := references_length_le hmore
            simp only [Worklist.measure, hpending, List.length_append, List.length_reverse, List.length_cons]
            simp only [maxTransfers] at *
            omega
          · rw [hload, ok_bind, List.length_cons, show maxTransfers - (w.definitions.length + 1) = budget by omega]
      next hfull =>
        right
        rw [show maxTransfers - w.definitions.length = 0 by omega, loadDefinitions_full hnew]
        exact ⟨w, rfl, h.distinct, hlength ▸ h.bounded, fun definitions hd => by cases hd⟩

/-- The loop ends within its measure, and nothing it kept refers outside. -/
theorem Worklist.Sound.rounds (h : w.Sound s found) (strict : Bool) :
    ∃ w', (∀ fuel, w.measure < fuel → w.rounds s strict fuel = some (w', w.outcome s strict)) ∧
      w'.loads.Nodup ∧ w'.loads.length ≤ maxTransfers ∧
      ∀ definitions, w.outcome s strict = .ok definitions →
        ∃ w' : Worklist, w'.Sound s found ∧ w'.definitions = definitions ∧ w'.pending = [] := by
  generalize hn : w.measure = n
  induction n using Nat.strong_induction_on generalizing w with
  | _ n ih =>
      rcases h.round strict with ⟨w', hround, hsound, hless, houtcome⟩ | ⟨w', hround, hnd, hle, hdone⟩
      · obtain ⟨last, hruns, hnd, hle, hdone⟩ := ih w'.measure (hn ▸ hless) hsound rfl
        refine ⟨last, fun fuel hfuel => ?_, hnd, hle, houtcome ▸ hdone⟩
        obtain ⟨fuel, rfl⟩ : ∃ k, fuel = k + 1 := ⟨fuel - 1, by omega⟩
        rw [Worklist.rounds, hround, ← houtcome]
        exact hruns fuel (by omega)
      · refine ⟨w', fun fuel hfuel => ?_, hnd, hle, fun definitions hd => ?_⟩
        · obtain ⟨fuel, rfl⟩ : ∃ k, fuel = k + 1 := ⟨fuel - 1, by omega⟩
          rw [Worklist.rounds, hround]
        · obtain ⟨rfl, hempty⟩ := hdone definitions hd
          exact ⟨w, h, rfl, hempty⟩

/-- The loader ends, takes each dependency from the store at most once and at
most three, and what it kept serves the compiler as the whole store would. -/
theorem compileComposition_exact (s : Branchline) (pipelineId revisionId : String) (definition : Value)
    (requireOntologies : Bool) (found : List PipelineReference) (hfound : references definition = .ok found) :
    ∃ (last : Worklist) (outcome : Except Failure Definitions),
      (∀ fuel, 12 < fuel → (Worklist.start found).rounds s requireOntologies fuel = some (last, outcome)) ∧
      last.loads.Nodup ∧ last.loads.length ≤ 3 ∧
      (compileComposition pipelineId revisionId definition requireOntologies).query backend s =
        (outcome >>= fun definitions =>
          (compile pipelineId revisionId definition definitions).mapError fun text => ⟨.composition, text⟩) ∧
      ∀ definitions, outcome = .ok definitions →
        compile pipelineId revisionId definition definitions ≠ .error "Referenced pipeline revision unavailable" ∧
        compile pipelineId revisionId definition definitions =
          compile pipelineId revisionId definition (pinnedDefinitions s) := by
  obtain ⟨last, hruns, hnd, hle, hdone⟩ := (sound_start found : (Worklist.start found).Sound s found).rounds
    requireOntologies
  refine ⟨last, _, fun fuel hfuel => hruns fuel ?_, hnd, hle, ?_, fun definitions hd => ?_⟩
  · have hlength := references_length_le hfound
    simp only [Worklist.measure, Worklist.start, List.length_reverse, List.length_nil]
    simp only [maxTransfers] at *
    omega
  · rw [compileComposition, Prog.query_bind, hfound]
    change (loadDefinitions requireOntologies maxTransfers found.reverse [] >>= _).query backend s = _
    rw [Prog.query_bind]
    rfl
  · obtain ⟨w, hw, rfl, hempty⟩ := hdone definitions hd
    let keys : ReferenceKey → Prop := fun k => (w.definitions.lookup k).isSome = true
    have hhas : ∀ r, w.Has r → keys r.key := by
      rintro r (hr | hr)
      · exact hr
      · rw [hempty] at hr
        cases hr
    have hcomplete : Complete w.definitions keys := ⟨fun k hk => hk, fun k definition more _ hk hmore r hr =>
      hhas r (hw.closed k definition more hk hmore r hr)⟩
    have hagree : ∀ k, keys k → (pinnedDefinitions s).lookup k = w.definitions.lookup k := by
      intro k hk
      obtain ⟨v, hv⟩ := Option.isSome_iff_exists.mp hk
      rw [pinnedDefinitions_lookup, hv, hw.pinned k v hv]
    have hexpand : Finds (append (pinnedDefinitions s) (maxTransfers + 1) pipelineId revisionId definition none ⟨[], [], 0, 0, 0⟩)
        (append w.definitions (maxTransfers + 1) pipelineId revisionId definition none ⟨[], [], 0, 0, 0⟩) :=
      append_finds hcomplete hagree fun more hmore r hr =>
        hhas r (hw.roots r (Except.ok.inj (hfound.symm.trans hmore) ▸ hr))
    have hcompile : Finds (compile pipelineId revisionId definition (pinnedDefinitions s))
        (compile pipelineId revisionId definition w.definitions) :=
      hexpand.bind fun expansion _ => finds_same (errs_bind.mpr ⟨errs_context.mpr fun _ => by decide, fun _ _ => errs_pure _⟩)
    obtain ⟨hsame, herrs⟩ := hcompile
    exact ⟨fun herror => herrs _ herror rfl, hsame.symm⟩

def circular : Branchline :=
  Store.init "aaaaaaaaaaaaaaaaaaaa" { pipelines := (∅ : Keyed PipelineRecord).insert "archive" {
    authoring := {}
    previousRevisionId := none
    pipelineId := "archive"
    name := "archive"
    ownerId := "owner"
    publishedRevisionId := none
    definition := archived [handover "again"]
    authorId := "author"
    message := "message"
    createdAtMs := 0
    updatedAtMs := 0
    deletedAtMs := none } }

/-- Two transfers into a circle ask for its pipeline once. -/
theorem compileComposition_exact_circular :
    ∃ (found : List PipelineReference) (last : Worklist) (outcome : Except Failure Definitions),
      references (archived [handover "first", handover "second"]) = .ok found ∧
      (Worklist.start found).rounds circular false 13 = some (last, outcome) ∧ last.loads.Nodup ∧ last.loads.length ≤ 3 := by
  have haccepts : Accepts (references (archived [handover "first", handover "second"])) := by
    decide +kernel
  obtain ⟨found, hfound⟩ := haccepts
  obtain ⟨last, outcome, hruns, hnd, hle, -⟩ := compileComposition_exact circular "root" "bbbbbbbbbbbbbbbbbbbb"
    (archived [handover "first", handover "second"]) false found hfound
  exact ⟨found, last, outcome, hfound, hruns 13 (by decide), hnd, hle⟩

end Galadril.Registry
