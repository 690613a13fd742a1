import Galadril.Json.Insertion
import Galadril.Registry.DefinitionMerge

namespace Galadril.Registry.Pipeline

open Json Lib.Checked Ontology

structure SelfIndexed (key : String) (m : Members) : Prop where
  distinct : (Members.keys m).Nodup
  carried : ∀ p ∈ m, p.2.get key = some (.string p.1)

theorem field_eq_none {m : Members} {key : String} : Members.field m key = none ↔ key ∉ Members.keys m := by
  rw [← Members.field_isSome, Bool.not_eq_true, Option.isSome_eq_false_iff, Option.isNone_iff_eq_none]

theorem mem_of_field {m : Members} {k : String} {v : Value} (h : Members.field m k = some v) : (k, v) ∈ m := by
  induction m with
  | nil => cases h
  | cons p m ih =>
      obtain ⟨l, w⟩ := p
      rw [Members.field] at h
      split at h
      · next hl =>
          obtain rfl := Option.some.inj h
          exact hl ▸ List.mem_cons_self
      · exact List.mem_cons_of_mem _ (ih h)

theorem selfIndexed_nil (key : String) : SelfIndexed key [] := ⟨List.nodup_nil, fun _ h => by cases h⟩

theorem indexNode_selfIndexed {key : String} {indexed indexed' : Members} {node : Value}
    (hi : SelfIndexed key indexed) (h : indexNode key indexed node = .ok indexed') : SelfIndexed key indexed' := by
  simp only [indexNode, bind_eq_ok, context_eq_ok, ensure_eq_ok, pure_eq_ok, Option.isNone_iff_eq_none] at h
  obtain ⟨id, hid, _, habsent, rfl⟩ := h
  rw [Members.insert_absent habsent]
  refine ⟨?_, fun p hp => ?_⟩
  · rw [Members.keys, List.map_append, List.map_singleton]
    rw [List.nodup_append]
    refine ⟨hi.distinct, List.nodup_singleton _, fun a ha b hb he => field_eq_none.mp habsent ?_⟩
    obtain rfl : b = id := List.mem_singleton.mp hb
    exact he ▸ ha
  · rcases List.mem_append.mp hp with hp | hp
    · exact hi.carried p hp
    · obtain rfl := List.mem_singleton.mp hp
      exact Value.getStr_eq_some.mp hid

theorem index_selfIndexed {key : String} {nodes : List Value} {indexed indexed' : Members}
    (hi : SelfIndexed key indexed) (h : nodes.foldlM (indexNode key) indexed = .ok indexed') : SelfIndexed key indexed' := by
  induction nodes generalizing indexed with
  | nil =>
      obtain rfl := Except.ok.inj h
      exact hi
  | cons node nodes ih =>
      rw [List.foldlM_cons, bind_eq_ok] at h
      obtain ⟨next, hnext, hrest⟩ := h
      exact ih (indexNode_selfIndexed hi hnext) hrest

/-- Blocks that carry their identity are found again under it. -/
theorem index_listed {key : String} (indexed rest : Members) (h : SelfIndexed key (indexed ++ rest)) :
    (rest.map (·.2)).foldlM (indexNode key) indexed = .ok (indexed ++ rest) := by
  induction rest generalizing indexed with
  | nil => simp [pure, Except.pure]
  | cons p rest ih =>
      have hid : p.2.getStr key = some p.1 := Value.getStr_eq_some.mpr (h.carried p (by simp))
      have habsent : Members.field indexed p.1 = none := by
        have hnd := h.distinct
        rw [Members.keys, List.map_append, List.map_cons] at hnd
        rw [field_eq_none]
        intro hm
        exact (List.nodup_append.mp hnd).2.2 _ hm _ List.mem_cons_self rfl
      have hnode : indexNode key indexed p.2 = .ok (indexed ++ [p]) := by
        simp [indexNode, hid, habsent, Members.insert_absent habsent, ok_bind, pure, Except.pure]
      rw [List.map_cons, List.foldlM_cons, hnode, ok_bind, ih (indexed ++ [p]) (by simpa using h)]
      simp

structure IdentityKeyed (document : Value) (members sources steps : Members) : Prop where
  object : document = .object members
  hsources : Members.field members "sources" = some (.object sources)
  hsteps : Members.field members "pipeline" = some (.object steps)
  sourceIds : SelfIndexed "id" sources
  stepIds : SelfIndexed "step" steps

theorem normalize_identityKeyed {definition document : Value} (h : normalize definition = .ok document) :
    ∃ members sources steps, IdentityKeyed document members sources steps := by
  simp only [normalize, bind_eq_ok, context_eq_ok, pure_eq_ok, List.foldlM_cons, List.foldlM_nil, indexCollection] at h
  obtain ⟨object, -, _, ⟨_, ⟨nodes, -, sources, hsources, rfl⟩, _, ⟨nodes', -, steps, hsteps, rfl⟩, rfl⟩, rfl⟩ := h
  refine ⟨_, sources, steps, rfl, by simp, by simp, ?_, ?_⟩
  · exact index_selfIndexed (selfIndexed_nil _) hsources
  · exact index_selfIndexed (selfIndexed_nil _) hsteps

def listed (members sources steps : Members) : Members :=
  Members.insert "pipeline" (.array (steps.map (·.2))) (Members.insert "sources" (.array (sources.map (·.2))) members)

theorem IdentityKeyed.list {document : Value} {members sources steps : Members}
    (h : IdentityKeyed document members sources steps) :
    (["sources", "pipeline"].foldlM listCollection members) = .ok (listed members sources steps) := by
  simp [List.foldlM_cons, listCollection, h.hsources, h.hsteps, Value.asObject, ok_bind, listed, pure, Except.pure]

theorem IdentityKeyed.normalize_listed {document : Value} {members sources steps : Members}
    (h : IdentityKeyed document members sources steps) :
    normalize (.object (listed members sources steps)) = .ok document := by
  have hkeys : "pipeline" ∈ Members.keys members := by
    rw [← Members.field_isSome, h.hsteps]
    rfl
  have hrestored : Members.insert "pipeline" (.object steps) (Members.insert "sources" (.object sources)
      (listed members sources steps)) = members := by
    have hcomm : Members.insert "pipeline" (.array (steps.map (·.2)))
        (Members.insert "sources" (.array (sources.map (·.2))) members) =
        Members.insert "sources" (.array (sources.map (·.2)))
          (Members.insert "pipeline" (.array (steps.map (·.2))) members) :=
      Members.insert_comm (by decide) hkeys _ _
    rw [listed, hcomm, Members.insert_insert, Members.insert_comm (by decide) (by simp [← Members.field_isSome]),
      Members.insert_insert, Members.insert_field h.hsteps, Members.insert_field h.hsources]
  have hsources := index_listed [] sources (by simpa using h.sourceIds)
  have hsteps := index_listed [] steps (by simpa using h.stepIds)
  rw [List.nil_append] at hsources hsteps
  simp only [normalize, bind_eq_ok, context_eq_ok, pure_eq_ok, List.foldlM_cons, List.foldlM_nil, indexCollection]
  refine ⟨listed members sources steps, rfl, _, ⟨_, ⟨sources.map (·.2), ?_, sources, hsources, rfl⟩, _,
    ⟨steps.map (·.2), ?_, steps, hsteps, rfl⟩, rfl⟩, ?_⟩
  · simp [listed, Value.asArray]
  · simp [listed, Value.asArray]
  · rw [hrestored, h.object]

variable {resolutions : Resolutions} {path : List String} {base target source : Option Value}

/-- An identity that both sides carry survives the merge of a block. -/
theorem combine_carries {key id : String} (ht : ∀ v, target = some v → v.get key = some (.string id))
    (hs : ∀ v, source = some v → v.get key = some (.string id)) {v : Value}
    (hv : combine resolutions path base target source = some v) : v.get key = some (.string id) := by
  by_cases hkept : Same target source ∨ Same source base
  · rw [combine_kept hkept] at hv
    exact ht v hv
  by_cases htaken : Same target base
  · rw [combine_taken hkept htaken] at hv
    exact hs v hv
  by_cases hclash : Clashes base target source
  · rw [combine_clash hclash, chosen] at hv
    split at hv
    · exact hs v hv
    · exact ht v hv
  · obtain ⟨⟨l, rfl⟩, ⟨r, rfl⟩, hb⟩ := not_not.mp fun hn =>
      hclash ⟨fun h => hkept (.inl h), fun h => hkept (.inr h), htaken, hn⟩
    rw [combine_object hkept htaken hb] at hv
    obtain rfl := Option.some.inj hv
    have hl : Members.field l key = some (.string id) := ht _ rfl
    have hr : Members.field r key = some (.string id) := hs _ rfl
    rw [Value.get, field_combined, hl, hr, combine_kept (.inl (.refl _))]

theorem SelfIndexed.field {key : String} {m : Members} (h : SelfIndexed key m) {k : String} {v : Value}
    (hv : Members.field m k = some v) : v.get key = some (.string k) := h.carried (k, v) (mem_of_field hv)

theorem keys_collect_sublist (ks : List String) (f : String → Option Value) :
    (Members.keys (Members.collect ks f)).Sublist ks := by
  induction ks with
  | nil => exact List.Sublist.slnil
  | cons k ks ih =>
      rw [Members.collect, List.filterMap_cons]
      cases f k with
      | none => exact ih.cons k
      | some v => exact ih.cons_cons k

/-- The merge of two collections of blocks is one again. -/
theorem combine_selfIndexed {key : String} {bs ts ss : Members} (ht : SelfIndexed key ts) (hs : SelfIndexed key ss) :
    ∃ ms, combine resolutions path (some (.object bs)) (some (.object ts)) (some (.object ss)) = some (.object ms) ∧
      SelfIndexed key ms := by
  by_cases hkept : Same (some (.object ts)) (some (.object ss)) ∨ Same (some (.object ss)) (some (.object bs))
  · exact ⟨ts, combine_kept hkept, ht⟩
  by_cases htaken : Same (some (.object ts)) (some (.object bs))
  · exact ⟨ss, combine_taken hkept htaken, hs⟩
  · refine ⟨_, combine_object hkept htaken rfl, ?_, fun p hp => ?_⟩
    · have hsub : (Members.keys (Members.collect (Members.unionKeys [ts, ss, ancestorOf (some (.object bs))]) fun key =>
          combine resolutions (path ++ [key]) (Members.field (ancestorOf (some (.object bs))) key)
            (Members.field ts key) (Members.field ss key))).Sublist
          (Members.unionKeys [ts, ss, ancestorOf (some (.object bs))]) := keys_collect_sublist _ _
      exact hsub.nodup ((Members.sorted_unionKeys _).imp fun h => h.ne)
    · obtain ⟨k, -, hmerged⟩ := List.mem_filterMap.mp hp
      obtain ⟨v, hv, rfl⟩ := Option.map_eq_some_iff.mp hmerged
      exact combine_carries (fun w hw => ht.field hw) (fun w hw => hs.field hw) hv

theorem IdentityKeyed.combine {b t s : Value} {bm bs bp tm ts tp sm ss sp : Members} (hb : IdentityKeyed b bm bs bp)
    (ht : IdentityKeyed t tm ts tp) (hs : IdentityKeyed s sm ss sp) :
    ∃ m members sources steps, Pipeline.combine resolutions [] (some b) (some t) (some s) = some m ∧
      IdentityKeyed m members sources steps := by
  obtain ⟨rfl, hbs, hbp, -, -⟩ := hb
  have ht' := ht
  have hs' := hs
  obtain ⟨rfl, hts, htp, hti, htj⟩ := ht'
  obtain ⟨rfl, hss, hsp, hsi, hsj⟩ := hs'
  by_cases hkept : Same (some (.object tm)) (some (.object sm)) ∨ Same (some (.object sm)) (some (.object bm))
  · exact ⟨_, tm, ts, tp, combine_kept hkept, ht⟩
  by_cases htaken : Same (some (.object tm)) (some (.object bm))
  · exact ⟨_, sm, ss, sp, combine_taken hkept htaken, hs⟩
  · obtain ⟨ms, hms, hmi⟩ : ∃ ms, Pipeline.combine resolutions ([] ++ ["sources"]) (some (.object bs)) (some (.object ts))
        (some (.object ss)) = some (.object ms) ∧ SelfIndexed "id" ms := combine_selfIndexed hti hsi
    obtain ⟨mp, hmp, hmj⟩ : ∃ mp, Pipeline.combine resolutions ([] ++ ["pipeline"]) (some (.object bp)) (some (.object tp))
        (some (.object sp)) = some (.object mp) ∧ SelfIndexed "step" mp := combine_selfIndexed htj hsj
    refine ⟨_, _, ms, mp, combine_object hkept htaken rfl, rfl, ?_, ?_, hmi, hmj⟩
    · rw [field_combined, show Members.field (ancestorOf (some (.object bm))) "sources" = some (.object bs) from hbs, hts,
        hss, hms]
    · rw [field_combined, show Members.field (ancestorOf (some (.object bm))) "pipeline" = some (.object bp) from hbp, htp,
        hsp, hmp]

section Separation

variable {base target source b t s : Value} {resolutions : Resolutions}

/-- What a successful merge computes, in terms of the documents keyed by block
identity. -/
theorem mergeDefinitions_spec (hb : normalize base = .ok b) (ht : normalize target = .ok t)
    (hs : normalize source = .ok s) :
    ∃ m definition, combine resolutions [] (some b) (some t) (some s) = some m ∧ normalize definition = .ok m ∧
      mergeDefinitions base target source resolutions = (do
        ensure (resolutions.size ≤ 256) "pipeline resolution limit exceeded"
        let _ ← mergeDefinitionValue resolutions "" (some b) (some t) (some s) 0
        return ⟨definition, unresolved resolutions [] (some b) (some t) (some s)⟩) := by
  obtain ⟨bm, bs, bp, hb'⟩ := normalize_identityKeyed hb
  obtain ⟨tm, ts, tp, ht'⟩ := normalize_identityKeyed ht
  obtain ⟨sm, ss, sp, hs'⟩ := normalize_identityKeyed hs
  obtain ⟨m, members, sources, steps, hm, hkeyed⟩ := hb'.combine ht' hs'
  refine ⟨m, .object (listed members sources steps), hm, hkeyed.normalize_listed, ?_⟩
  simp only [mergeDefinitions, hb, ht, hs, ok_bind]
  refine congrArg _ (funext fun _ => ?_)
  cases hvalue : mergeDefinitionValue resolutions "" (some b) (some t) (some s) 0 with
  | error e => rfl
  | ok result =>
      have heq : result = (combine resolutions [] (some b) (some t) (some s),
          unresolved resolutions [] (some b) (some t) (some s)) := mergeDefinitionValue_eq hvalue
      subst heq
      simp only [ok_bind, hm, context_some]
      rw [hkeyed.object]
      simp only [Value.asObject, context_some, ok_bind, hkeyed.list]

def sideOf (target source : Option Value) : MergeChoice → Option Value
  | .target => target
  | .source => source

/-- How a merge under resolutions relates to the merge without any: over the
three documents keyed by block identity and the two merged ones, keyed again. -/
structure Separates (b t s : Value) (resolutions : Resolutions) (plain resolved : MergePreview) (m₀ m : Value)
    (places : List (List String)) : Prop where
  keyed_plain : normalize plain.definition = .ok m₀
  keyed_resolved : normalize resolved.definition = .ok m
  places_eq : plain.conflicts = places.map fun p =>
    ⟨pointerOf p, descend (some b) p, descend (some t) p, descend (some s) p⟩
  distinct : (plain.conflicts.map (·.path)).Nodup
  remaining : resolved.conflicts = plain.conflicts.filter fun c => resolutions[c.path]?.isNone
  settled : ∀ p ∈ places, ∀ choice, resolutions[pointerOf p]? = some choice →
    descend (some m) p = sideOf (descend (some t) p) (descend (some s) p) choice
  independent : ∀ p, (∀ q ∈ places, ¬ q <+: p ∧ ¬ p <+: q) → descend (some m) p = descend (some m₀) p
  law : ∀ p, (∀ q ∈ places, ¬ q <+: p) →
    MergedAt (descend (some b) p) (descend (some t) p) (descend (some s) p) (descend (some m) p)

theorem unresolved_empty {path : List String} {base target source : Option Value} :
    unresolved ∅ path base target source = (clashes base target source).map (conflictAt path base target source) := by
  rw [unresolved, List.filter_eq_self]
  intro c _
  simp

theorem mergeDefinitions_accepts (hb : normalize base = .ok b) (ht : normalize target = .ok t)
    (hs : normalize source = .ok s) (hdepth : t.depth ≤ 32 ∨ s.depth ≤ 32) (hsize : resolutions.size ≤ 256) :
    ∃ m definition, combine resolutions [] (some b) (some t) (some s) = some m ∧ normalize definition = .ok m ∧
      mergeDefinitions base target source resolutions =
        .ok ⟨definition, unresolved resolutions [] (some b) (some t) (some s)⟩ := by
  obtain ⟨m, definition, hm, hdefinition, hmerge⟩ := mergeDefinitions_spec hb ht hs
  refine ⟨m, definition, hm, hdefinition, ?_⟩
  have hshallow : min (height (some t)) (height (some s)) + 0 ≤ 32 := by
    simp only [height, Option.map_some, Option.getD_some]
    omega
  obtain ⟨result, hresult⟩ : Accepts (mergeDefinitionValue resolutions (pointerOf []) (some b) (some t) (some s) 0) :=
    mergeDefinitionValue_accepts hshallow
  rw [pointerOf_nil] at hresult
  rw [hmerge, hresult]
  simp [ensure, hsize, ok_bind, pure, Except.pure]

theorem normalize_error {definition : Value} {e : String} (h : normalize definition = .error e) :
    e = "pipeline definition not object" ∨ e = "pipeline collection missing" ∨ e = "pipeline block identity missing" ∨
      e = "duplicate pipeline block" := by
  have hnodes : ∀ (key : String) (nodes : List Value) (indexed : Members),
      nodes.foldlM (indexNode key) indexed = .error e →
        e = "pipeline block identity missing" ∨ e = "duplicate pipeline block" := by
    intro key nodes
    induction nodes with
    | nil =>
        intro indexed h
        cases h
    | cons node nodes ih =>
        intro indexed h
        rw [List.foldlM_cons, bind_eq_error] at h
        rcases h with h | ⟨next, -, h⟩
        · simp only [indexNode, bind_eq_error, context_eq_error, ensure_eq_error] at h
          rcases h with ⟨-, rfl⟩ | ⟨_, -, ⟨-, rfl⟩ | ⟨_, -, h⟩⟩
          · exact .inl rfl
          · exact .inr rfl
          · cases h
        · exact ih next h
  have hcollection : ∀ (object : Members) (entry : String × String), indexCollection object entry = .error e →
      e = "pipeline collection missing" ∨ e = "pipeline block identity missing" ∨ e = "duplicate pipeline block" := by
    intro object entry h
    simp only [indexCollection, bind_eq_error, context_eq_error] at h
    rcases h with ⟨-, rfl⟩ | ⟨nodes, -, h | ⟨_, -, h⟩⟩
    · exact .inl rfl
    · exact .inr (hnodes _ _ _ h)
    · cases h
  simp only [normalize, bind_eq_error, context_eq_error, List.foldlM_cons, List.foldlM_nil] at h
  rcases h with ⟨-, rfl⟩ | ⟨object, -, (h | ⟨_, -, h | ⟨_, -, h⟩⟩) | ⟨_, -, h⟩⟩
  · exact .inl rfl
  · exact .inr (hcollection _ _ h)
  · exact .inr (hcollection _ _ h)
  · cases h
  · cases h

theorem mergeDefinitions_error {e : String} (h : mergeDefinitions base target source resolutions = .error e) :
    (∃ definition, normalize definition = .error e) ∨ e = "pipeline resolution limit exceeded" ∨
      e = "pipeline merge depth exceeded" := by
  cases hb : normalize base with
  | error e' =>
      rw [mergeDefinitions, hb] at h
      cases h
      exact .inl ⟨base, hb⟩
  | ok b =>
  cases ht : normalize target with
  | error e' =>
      rw [mergeDefinitions, hb, ok_bind, ht] at h
      cases h
      exact .inl ⟨target, ht⟩
  | ok t =>
  cases hs : normalize source with
  | error e' =>
      rw [mergeDefinitions, hb, ok_bind, ht, ok_bind, hs] at h
      cases h
      exact .inl ⟨source, hs⟩
  | ok s =>
  obtain ⟨m, definition, -, -, hmerge⟩ := mergeDefinitions_spec hb ht hs
  rw [hmerge, bind_eq_error] at h
  rcases h with h | ⟨_, -, h⟩
  · exact .inr (.inl (ensure_eq_error.mp h).2.symm)
  · rw [bind_eq_error] at h
    rcases h with h | ⟨_, -, h⟩
    · rw [← pointerOf_nil] at h
      exact .inr (.inr (mergeDefinitionValue_error h))
    · cases h

/-- Merging definitions is independent of conflict resolution: within the depth
limit both merges succeed, resolutions remove exactly the conflicts they name
and put the chosen side in their place, everything else is a three-way merge
that they do not touch, and the merged definition always has its collections. -/
theorem mergeDefinitions_separates (base target source : Value) (resolutions : Resolutions) :
    (∀ b t s, normalize base = .ok b → normalize target = .ok t → normalize source = .ok s →
      (t.depth ≤ 32 ∨ s.depth ≤ 32) → resolutions.size ≤ 256 →
      ∃ plain resolved m₀ m places, mergeDefinitions base target source ∅ = .ok plain ∧
        mergeDefinitions base target source resolutions = .ok resolved ∧
        Separates b t s resolutions plain resolved m₀ m places) ∧
    mergeDefinitions base target source resolutions ≠ .error "pipeline merge removed definition" ∧
    mergeDefinitions base target source resolutions ≠ .error "pipeline merge collection missing" := by
  refine ⟨fun b t s hb ht hs hdepth hsize => ?_, ?_⟩
  · have hempty : (∅ : Resolutions).size ≤ 256 := Nat.zero_le 256
    obtain ⟨m₀, plain, hm₀, hplain, hmerge₀⟩ := mergeDefinitions_accepts hb ht hs hdepth hempty
    obtain ⟨m, resolved, hm, hresolved, hmerge⟩ := mergeDefinitions_accepts hb ht hs hdepth hsize
    refine ⟨_, _, m₀, m, clashes (some b) (some t) (some s), hmerge₀, hmerge, hplain, hresolved, unresolved_empty, ?_, ?_,
      fun p hp choice hchoice => ?_, fun p hp => ?_, fun p hp => ?_⟩
    · rw [unresolved_empty, List.map_map]
      exact nodup_clashes.map fun p q he => pointerOf_inj he
    · rw [unresolved_empty, unresolved]
    · rw [← hm, combine_at_clash hp, List.nil_append, chosen, hchoice]
      cases choice <;> rfl
    · rw [← hm, ← hm₀]
      exact combine_independent hp
    · rw [← hm]
      exact combine_mergedAt hp
  · refine ⟨fun h => ?_, fun h => ?_⟩
    all_goals
      rcases mergeDefinitions_error h with ⟨definition, hn⟩ | he | he
      · have := normalize_error hn
        simp at this
      all_goals simp at he

def labelled (text : String) : Value := .object [("pipeline", .array []),
  ("sources", .array [.object [("id", .string "mail"), ("in/out", .string text)]])]

def labelledKeyed (text : String) : Value := .object [("pipeline", .object []),
  ("sources", .object [("mail", .object [("id", .string "mail"), ("in/out", .string text)])])]

theorem normalize_labelled (text : String) : normalize (labelled text) = .ok (labelledKeyed text) := by
  simp [normalize, labelled, labelledKeyed, indexCollection, indexNode, Value.asObject, Value.asArray, Members.insert,
    Value.getStr, Value.get, Members.field, Value.asStr, ok_bind, context, ensure, pure, Except.pure]

def sourceChosen : Resolutions := (∅ : Resolutions).insert "/sources/mail/in~1out" .source

theorem sourceChosen_size : sourceChosen.size ≤ 256 := by
  have h : sourceChosen.size ≤ (∅ : Resolutions).size + 1 := Std.ExtTreeMap.size_insert_le
  rw [Std.ExtTreeMap.size_empty] at h
  omega

theorem mergeDefinitions_separates_mail : ∃ plain resolved m₀ m places,
    mergeDefinitions (labelled "a") (labelled "b") (labelled "c") ∅ = .ok plain ∧
    mergeDefinitions (labelled "a") (labelled "b") (labelled "c") sourceChosen = .ok resolved ∧
    Separates (labelledKeyed "a") (labelledKeyed "b") (labelledKeyed "c") sourceChosen plain resolved m₀ m places := by
  have hdepth : (labelledKeyed "b").depth ≤ 32 := by decide
  exact (mergeDefinitions_separates (labelled "a") (labelled "b") (labelled "c") sourceChosen).1 _ _ _
    (normalize_labelled "a") (normalize_labelled "b") (normalize_labelled "c") (.inl hdepth) sourceChosen_size

end Separation

end Galadril.Registry.Pipeline
