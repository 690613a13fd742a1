import Galadril.Json.Keyed
import Galadril.Json.Patch
import Galadril.Lib.Mapping
import Galadril.Registry.RepeatedMerges

namespace Galadril.Registry.Pipeline

open Json Lib.Checked Lib.Mapping Ontology

/-- One edit of a definition, addressed by block identity. -/
structure DefinitionChange where
  path : String
  before : Option Value
  after : Option Value

def collectChanges (path : String) (before after : Option Value) (depth : Nat) : Except String (List DefinitionChange) :=
  if depth > 32 then .error "pipeline comparison depth exceeded"
  else if before == after then .ok []
  else
    match before, after with
    | some (.object left), some (.object right) => do
        let changes ← (Members.unionKeys [left, right]).mapM fun key =>
          collectChanges (childPointer path key) (Members.field left key) (Members.field right key) (depth + 1)
        return changes.flatten
    | before, after => .ok [⟨path, before, after⟩]
termination_by optDepth before
decreasing_by exact optDepth_field_lt left key

def compareDefinitions (before after : Value) : Except String (List DefinitionChange) := do
  let before ← normalize before
  let after ← normalize after
  collectChanges "" (some before) (some after) 0

def unescape : List Char → List Char
  | '~' :: '1' :: rest => '/' :: unescape rest
  | '~' :: '0' :: rest => '~' :: unescape rest
  | c :: rest => c :: unescape rest
  | [] => []

def pointerKeys (path : String) : List String :=
  ((path.toList.splitOn '/').drop 1).map fun token => String.ofList (unescape token)

def applyDefinitionChanges (document : Option Value) (changes : List DefinitionChange) : Option Value :=
  changes.foldl (fun document change => update document (pointerKeys change.path) change.after) document

theorem unescape_escape (key : List Char) : unescape (key.flatMap pointerEscape) = key := by
  induction key with
  | nil => rfl
  | cons c key ih =>
      rw [List.flatMap_cons]
      rcases pointerEscape_cases c with ⟨rfl, he⟩ | ⟨rfl, he⟩ | ⟨hne, -, he⟩
      · rw [he]
        exact congrArg _ ih
      · rw [he]
        exact congrArg _ ih
      · rw [he, List.singleton_append, unescape, ih]
        all_goals simp_all

theorem splitOn_tokens (before : List Char) (h : '/' ∉ before) (path : List String) :
    (before ++ path.flatMap fun key => '/' :: token key).splitOn '/' = before :: path.map token := by
  induction path generalizing before with
  | nil => rw [List.flatMap_nil, List.append_nil, List.splitOn_eq_singleton h, List.map_nil]
  | cons key path ih =>
      rw [List.flatMap_cons, List.cons_append, List.splitOn_append_cons_self_of_not_mem h, ih (token key) (slash_notMem_token key),
        List.map_cons]

/-- The keys of a location are read back from its pointer. -/
theorem pointerKeys_pointerOf (path : List String) : pointerKeys (pointerOf path) = path := by
  have hsplit := splitOn_tokens [] List.not_mem_nil path
  rw [List.nil_append] at hsplit
  rw [pointerKeys, pointerOf_toList, hsplit, List.drop_succ_cons, List.drop_zero, List.map_map]
  refine (List.map_congr_left fun key _ => ?_).trans (List.map_id path)
  simp only [Function.comp_apply, token, unescape_escape, String.ofList_toList, id_eq]

def differences (before after : Option Value) : List (List String × Option Value × Option Value) :=
  if before == after then []
  else
    match before, after with
    | some (.object left), some (.object right) =>
        (Members.unionKeys [left, right]).flatMap fun key =>
          (differences (Members.field left key) (Members.field right key)).map fun d => (key :: d.1, d.2)
    | before, after => [([], before, after)]
termination_by optDepth before
decreasing_by exact optDepth_field_lt left key

def changeAt (path : List String) (d : List String × Option Value × Option Value) : DefinitionChange :=
  ⟨pointerOf (path ++ d.1), d.2.1, d.2.2⟩

theorem differences_same {before after : Option Value} (h : Same before after) : differences before after = [] := by
  rw [differences.eq_def, if_pos (option_beq_iff.mpr h)]

theorem differences_object {left right : Members} (h : ¬ Same (some (.object left)) (some (.object right))) :
    differences (some (.object left)) (some (.object right)) = (Members.unionKeys [left, right]).flatMap fun key =>
      (differences (Members.field left key) (Members.field right key)).map fun d => (key :: d.1, d.2) := by
  rw [differences.eq_def, if_neg (mt option_beq_iff.mp h)]

theorem differences_other {before after : Option Value} (h : ¬ Same before after)
    (hno : ∀ left right, before = some (.object left) → after = some (.object right) → False) :
    differences before after = [([], before, after)] := by
  rw [differences.eq_def, if_neg (mt option_beq_iff.mp h)]
  split
  · next left right => exact (hno left right rfl rfl).elim
  · rfl

theorem difference_induction {motive : Option Value → Option Value → Prop}
    (same : ∀ before after, Same before after → motive before after)
    (object : ∀ left right, ¬ Same (some (.object left)) (some (.object right)) →
      (∀ key, motive (Members.field left key) (Members.field right key)) → motive (some (.object left)) (some (.object right)))
    (other : ∀ before after, ¬ Same before after →
      (∀ left right, before = some (.object left) → after = some (.object right) → False) → motive before after)
    (before after : Option Value) : motive before after := by
  induction before, after using differences.induct with
  | case1 before after h => exact same _ _ (option_beq_iff.mp h)
  | case2 left right h ih => exact object _ _ (mt option_beq_iff.mpr h) ih
  | case3 before after hno h => exact other _ _ (mt option_beq_iff.mpr h) hno

theorem collectChanges_same {before after : Option Value} (h : Same before after) {depth : Nat} (hdepth : depth ≤ 32)
    (path : String) :
    collectChanges path before after depth = .ok [] := by
  rw [collectChanges.eq_def, if_neg (Nat.not_lt.mpr hdepth), if_pos (option_beq_iff.mpr h)]

theorem collectChanges_object {left right : Members} (h : ¬ Same (some (.object left)) (some (.object right))) {depth : Nat}
    (hdepth : depth ≤ 32) (path : List String) :
    collectChanges (pointerOf path) (some (.object left)) (some (.object right)) depth =
      ((Members.unionKeys [left, right]).mapM fun key => collectChanges (pointerOf (path ++ [key])) (Members.field left key)
        (Members.field right key) (depth + 1)).map List.flatten := by
  rw [collectChanges.eq_def, if_neg (Nat.not_lt.mpr hdepth), if_neg (mt option_beq_iff.mp h)]
  simp only [pointerOf_append]
  rfl

theorem collectChanges_other {before after : Option Value} (h : ¬ Same before after)
    (hno : ∀ left right, before = some (.object left) → after = some (.object right) → False) {depth : Nat} (hdepth : depth ≤ 32)
    (path : String) : collectChanges path before after depth = .ok [⟨path, before, after⟩] := by
  rw [collectChanges.eq_def, if_neg (Nat.not_lt.mpr hdepth), if_neg (mt option_beq_iff.mp h)]
  split
  · next left right => exact (hno left right rfl rfl).elim
  · rfl

theorem depth_of_collect {path : String} {before after : Option Value} {depth : Nat} {changes : List DefinitionChange}
    (h : collectChanges path before after depth = .ok changes) : depth ≤ 32 := by
  by_contra hdepth
  rw [collectChanges.eq_def, if_pos (Nat.lt_of_not_le hdepth)] at h
  cases h

/-- A comparison that succeeds yields the differences. -/
theorem collectChanges_eq {path : List String} {before after : Option Value} {depth : Nat} {changes : List DefinitionChange}
    (h : collectChanges (pointerOf path) before after depth = .ok changes) :
    changes = (differences before after).map (changeAt path) := by
  have hdepth := depth_of_collect h
  induction before, after using difference_induction generalizing path depth changes with
  | same before after hsame =>
      rw [collectChanges_same hsame hdepth] at h
      cases h
      rw [differences_same hsame, List.map_nil]
  | object left right hne ih =>
      rw [collectChanges_object hne hdepth, map_eq_ok] at h
      obtain ⟨results, hresults, rfl⟩ := h
      rw [differences_object hne, List.map_flatMap, mapM_eq_map hresults fun key _ y hy => ih key hy (depth_of_collect hy),
        ← List.flatMap_def]
      refine List.flatMap_congr fun key _ => ?_
      rw [List.map_map]
      refine List.map_congr_left fun d _ => ?_
      simp [changeAt]
  | other before after hne hno =>
      rw [collectChanges_other hne hno hdepth] at h
      cases h
      rw [differences_other hne hno]
      simp [changeAt]

/-- Documents of at most 32 levels of objects can be compared. -/
theorem collectChanges_accepts {path : List String} {before after : Option Value} {depth : Nat} (hdepth : depth ≤ 32)
    (h : depth + min (optDepth before) (optDepth after) ≤ 33) : Accepts (collectChanges (pointerOf path) before after depth) := by
  induction before, after using difference_induction generalizing path depth with
  | same before after hsame => exact ⟨_, collectChanges_same hsame hdepth _⟩
  | object left right hne ih =>
      rw [collectChanges_object hne hdepth]
      have hall : Accepts ((Members.unionKeys [left, right]).mapM fun key => collectChanges (pointerOf (path ++ [key]))
          (Members.field left key) (Members.field right key) (depth + 1)) := by
        refine accepts_mapM.mpr fun key _ => ih key ?_ ?_
        · have hleft : 2 ≤ optDepth (some (.object left)) := by simp [optDepth, Value.depth]
          have hright : 2 ≤ optDepth (some (.object right)) := by simp [optDepth, Value.depth]
          omega
        · have hleft := optDepth_field_lt left key
          have hright := optDepth_field_lt right key
          omega
      obtain ⟨results, hresults⟩ := hall
      exact ⟨results.flatten, by rw [hresults]; rfl⟩
  | other before after hne hno => exact ⟨_, collectChanges_other hne hno hdepth _⟩

theorem mem_keys_of_not_same {left right : Members} {key : String}
    (h : ¬ Same (Members.field left key) (Members.field right key)) : key ∈ Members.unionKeys [left, right] := by
  rw [Members.mem_unionKeys]
  by_contra hnone
  simp only [List.mem_cons, List.not_mem_nil, or_false, exists_eq_or_imp, exists_eq_left, not_or, Bool.not_eq_true,
    Option.isSome_eq_false_iff, Option.isNone_iff_eq_none] at hnone
  rw [hnone.1, hnone.2] at h
  exact h (Same.refl _)

theorem differences_eq_nil (before after : Option Value) : differences before after = [] ↔ Same before after := by
  refine ⟨fun h => ?_, differences_same⟩
  induction before, after using difference_induction with
  | same before after hsame => exact hsame
  | object left right hne ih =>
      rw [differences_object hne, List.flatMap_eq_nil_iff] at h
      refine same_object.mpr ⟨left, rfl, fun key => ?_⟩
      by_contra hkey
      exact hkey (ih key (List.map_eq_nil_iff.mp (h key (mem_keys_of_not_same hkey))))
  | other before after hne hno =>
      rw [differences_other hne hno] at h
      cases h

theorem differences_nodup (before after : Option Value) : ((differences before after).map Prod.fst).Nodup := by
  induction before, after using difference_induction with
  | same before after hsame => simp [differences_same hsame]
  | object left right hne ih =>
      rw [differences_object hne, List.map_flatMap]
      refine List.nodup_flatMap.mpr ⟨fun key _ => ?_, ?_⟩
      · rw [List.map_map]
        have hbelow := (ih key).map (f := List.cons key) fun _ _ h => (List.cons.inj h).2
        rwa [List.map_map] at hbelow
      · refine (Members.sorted_unionKeys [left, right]).imp fun {k l} hlt => ?_
        rw [Function.onFun, List.disjoint_left]
        intro path hk hl
        simp only [List.map_map, List.mem_map, Function.comp_apply] at hk hl
        obtain ⟨_, -, rfl⟩ := hk
        obtain ⟨_, -, hpath⟩ := hl
        exact absurd (List.cons.inj hpath).1.symm hlt.ne
  | other before after hne hno => simp [differences_other hne hno]

theorem patch_differences (before after : Option Value) :
    Same (patch before ((differences before after).map fun d => (d.1, d.2.2))) after := by
  induction before, after using difference_induction with
  | same before after hsame => simpa [differences_same hsame] using hsame
  | object left right hne ih =>
      have hedits : (differences (some (.object left)) (some (.object right))).map (fun d => (d.1, d.2.2)) =
          (Members.unionKeys [left, right]).flatMap fun key =>
            ((differences (Members.field left key) (Members.field right key)).map fun d => (d.1, d.2.2)).map (Edit.below key) := by
        rw [differences_object hne, List.map_flatMap]
        simp only [List.map_map]
        rfl
      have hnodup : (Members.unionKeys [left, right]).Nodup := (Members.sorted_unionKeys _).imp fun h => h.ne
      obtain ⟨members, hmembers, hfield⟩ := patch_object
        (fun key => (differences (Members.field left key) (Members.field right key)).map fun d => (d.1, d.2.2)) hnodup left
      rw [hedits, hmembers]
      refine same_object.mpr ⟨members, rfl, fun key => ?_⟩
      rw [hfield]
      split
      · exact ih key
      · next hkey => exact by_contra fun h => hkey (mem_keys_of_not_same h)
  | other before after hne hno =>
      rw [differences_other hne hno]
      exact Same.refl _

theorem applyDefinitionChanges_differences (document : Option Value) (ds : List (List String × Option Value × Option Value)) :
    applyDefinitionChanges document (ds.map (changeAt [])) = patch document (ds.map fun d => (d.1, d.2.2)) := by
  rw [applyDefinitionChanges, patch, List.foldl_map, List.foldl_map]
  simp only [changeAt, List.nil_append, pointerKeys_pointerOf]

/-- Blocks in another order are keyed alike. -/
theorem index_perm {key : String} {nodes others : List Value} (hperm : nodes.Perm others) {indexed : Members}
    (h : nodes.foldlM (indexNode key) [] = .ok indexed) :
    ∃ indexed', others.foldlM (indexNode key) [] = .ok indexed' ∧ indexed.Perm indexed' := by
  have hself := index_selfIndexed (selfIndexed_nil key) h
  have hvalues := index_values h
  rw [List.map_nil, List.nil_append] at hvalues
  have hmap : indexed = nodes.map fun v => ((v.getStr key).getD "", v) := by
    rw [← hvalues, List.map_map]
    refine ((List.map_congr_left fun p hp => ?_).trans (List.map_id indexed)).symm
    simp [Value.getStr_eq_some.mpr (hself.carried p hp)]
  have hindexed : indexed.Perm (others.map fun v => ((v.getStr key).getD "", v)) := hmap ▸ hperm.map _
  have hself' : SelfIndexed key ([] ++ others.map fun v => ((v.getStr key).getD "", v)) :=
    ⟨(hindexed.map Prod.fst).nodup_iff.mp hself.distinct, fun p hp => hself.carried p (hindexed.mem_iff.mpr hp)⟩
  have hlisted := index_listed [] _ hself'
  rw [List.map_map] at hlisted
  have hothers : others.map (Prod.snd ∘ fun v => ((v.getStr key).getD "", v)) = others := List.map_id others
  rw [hothers] at hlisted
  exact ⟨_, hlisted, hindexed⟩

def withBlocks (object : Members) (sources steps : List Value) : Value :=
  .object (Members.insert "pipeline" (.array steps) (Members.insert "sources" (.array sources) object))

theorem normalize_withBlocks {object : Members} {sources steps : List Value} {document : Value} :
    normalize (withBlocks object sources steps) = .ok document ↔ ∃ indexed indexed',
      sources.foldlM (indexNode "id") [] = .ok indexed ∧ steps.foldlM (indexNode "step") [] = .ok indexed' ∧
        document = .object (Members.insert "pipeline" (.object indexed') (Members.insert "sources" (.object indexed)
          (Members.insert "pipeline" (.array steps) (Members.insert "sources" (.array sources) object)))) := by
  have hsources : (Members.field (Members.insert "pipeline" (.array steps) (Members.insert "sources" (.array sources) object))
      "sources").bind Value.asArray = some sources := by
    rw [Members.field_insert, if_neg (by decide), Members.field_insert, if_pos rfl]
    rfl
  have hsteps (indexed : Members) :
    (Members.field (Members.insert "sources" (.object indexed) (Members.insert "pipeline" (.array steps)
      (Members.insert "sources" (.array sources) object))) "pipeline").bind Value.asArray = some steps := by
    rw [Members.field_insert, if_neg (by decide), Members.field_insert, if_pos rfl]
    rfl
  simp only [normalize, withBlocks, Value.asObject, context_some, ok_bind, bind_eq_ok, pure_eq_ok, List.foldlM_cons,
    List.foldlM_nil,
    indexCollection, context_eq_ok, hsources]
  constructor
  · rintro ⟨_, ⟨_, ⟨indexed, hindexed, rfl⟩, _, ⟨nodes, hnodes, indexed', hindexed', rfl⟩, rfl⟩, rfl⟩
    rw [hsteps, Option.some.injEq] at hnodes
    subst hnodes
    exact ⟨indexed, indexed', hindexed, hindexed', rfl⟩
  · rintro ⟨indexed, indexed', hindexed, hindexed', rfl⟩
    exact ⟨_, ⟨_, ⟨indexed, hindexed, rfl⟩, _, ⟨steps, hsteps indexed, indexed', hindexed', rfl⟩, rfl⟩, rfl⟩

theorem normalize_reordered {object : Members} {sources others steps others' : List Value} (hsources : sources.Perm others)
    (hsteps : steps.Perm others') {document : Value} (h : normalize (withBlocks object sources steps) = .ok document) :
    ∃ document', normalize (withBlocks object others others') = .ok document' ∧ document ≈ document' := by
  obtain ⟨indexed, indexed', hindexed, hindexed', rfl⟩ := normalize_withBlocks.mp h
  obtain ⟨reindexed, hreindexed, hperm⟩ := index_perm hsources hindexed
  obtain ⟨reindexed', hreindexed', hperm'⟩ := index_perm hsteps hindexed'
  refine ⟨_, normalize_withBlocks.mpr ⟨reindexed, reindexed', hreindexed, hreindexed', rfl⟩, Value.object_equiv.mpr fun key => ?_⟩
  have hself := index_selfIndexed (selfIndexed_nil _) hindexed
  have hself' := index_selfIndexed (selfIndexed_nil _) hindexed'
  simp only [Members.field_insert]
  split
  · exact same_some.mpr (Value.object_equiv.mpr fun k => Members.field_perm hperm' hself'.distinct k ▸ Same.refl _)
  · split
    · exact same_some.mpr (Value.object_equiv.mpr fun k => Members.field_perm hperm hself.distinct k ▸ Same.refl _)
    · exact Same.refl _

/-- A comparison of definitions that can be keyed by identity: it succeeds when
one of them nests at most 32 levels of objects, it is empty exactly between
equal documents, its pointers differ, and its changes lead from the first
document to the second. Blocks in another order are no change. -/
theorem comparison_faithful (before after b a : Value) (hb : normalize before = .ok b) (ha : normalize after = .ok a) :
    (min b.depth a.depth ≤ 32 → Accepts (compareDefinitions before after)) ∧
      (∀ changes, compareDefinitions before after = .ok changes →
        (changes = [] ↔ b ≈ a) ∧ (changes.map DefinitionChange.path).Nodup ∧
          Same (applyDefinitionChanges (some b) changes) (some a)) ∧
      ∀ object sources others steps others', before = withBlocks object sources steps → after = withBlocks object others others' →
        sources.Perm others → steps.Perm others' → b ≈ a := by
  have hcompare : compareDefinitions before after = collectChanges (pointerOf []) (some b) (some a) 0 := by
    simp only [compareDefinitions, hb, ha, ok_bind, pointerOf_nil]
  refine ⟨fun h => ?_, fun changes h => ?_, ?_⟩
  · rw [hcompare]
    refine collectChanges_accepts (Nat.zero_le _) ?_
    simp only [optDepth]
    omega
  · rw [hcompare] at h
    obtain rfl := collectChanges_eq h
    refine ⟨?_, ?_, ?_⟩
    · rw [List.map_eq_nil_iff, differences_eq_nil, same_some]
    · rw [List.map_map]
      have hpaths := (differences_nodup (some b) (some a)).map (f := pointerOf) fun _ _ h => pointerOf_inj h
      rwa [List.map_map] at hpaths
    · rw [applyDefinitionChanges_differences]
      exact patch_differences _ _
  · rintro object sources others steps others' rfl rfl hsources hsteps
    obtain ⟨document', hdocument', hequiv⟩ := normalize_reordered hsources hsteps hb
    rw [ha] at hdocument'
    cases hdocument'
    exact hequiv

theorem comparison_faithful_mail : Accepts (compareDefinitions (labelled "a") (labelled "b")) ∧
    ∀ changes, compareDefinitions (labelled "a") (labelled "b") = .ok changes →
      (changes = [] ↔ labelledKeyed "a" ≈ labelledKeyed "b") ∧ (changes.map DefinitionChange.path).Nodup ∧
        Same (applyDefinitionChanges (some (labelledKeyed "a")) changes) (some (labelledKeyed "b")) := by
  have hdepth : min (labelledKeyed "a").depth (labelledKeyed "b").depth ≤ 32 := by decide
  obtain ⟨haccepts, hchanges, -⟩ := comparison_faithful (labelled "a") (labelled "b") (labelledKeyed "a") (labelledKeyed "b")
    (normalize_labelled "a") (normalize_labelled "b")
  exact ⟨haccepts hdepth, hchanges⟩

end Galadril.Registry.Pipeline
