import Galadril.Registry.MergeParts
import Galadril.Json.Patch

namespace Galadril.Registry.Ontology

open Json Lib.Checked

structure SemanticChange where
  resourceId : String
  operation : String
  path : List String
  before : Option Value
  after : Option Value
  deriving DecidableEq

/-- Field-level changes between two values. At the top of a value the identity
of the resource is not compared. -/
def diffValue (resourceId : String) (path : List String) (before after : Value) : List SemanticChange :=
  if before == after then []
  else
    match before, after with
    | .object b, .object a =>
        (Members.unionKeys [b, a]).flatMap fun key =>
          if path = [] ∧ key = "resource_id" then []
          else
            match _h : Members.field b key, Members.field a key with
            | some left, some right => diffValue resourceId (path ++ [key]) left right
            | left, right =>
                [⟨resourceId, if right.isSome then "set_field" else "remove_field", path ++ [key], left, right⟩]
    | before, after => [⟨resourceId, "set_field", path, some before, some after⟩]
termination_by before.depth
decreasing_by exact depth_lt_of_field _h

def diffResource (id : String) (before after : Option Value) : List SemanticChange :=
  match before, after with
  | none, some after => [⟨id, "add_resource", [], none, some after⟩]
  | some before, none => [⟨id, "remove_resource", [], some before, none⟩]
  | some before, some after => diffValue id [] before after
  | none, none => []

def semanticDiff (base target : Value) : Except String (List SemanticChange) := do
  let baseResources ← resourceValues base
  let targetResources ← resourceValues target
  let ids := (Std.ExtTreeSet.ofList (baseResources.keys ++ targetResources.keys)).toList
  let changes := ids.flatMap fun id => diffResource id baseResources[id]? targetResources[id]?
  return changes ++ diffValue "$ontology" [] (← rootMetadata base) (← rootMetadata target)

def applyChange (parts : String → Option Value) (c : SemanticChange) : String → Option Value :=
  match c.operation with
  | "add_resource" => Function.update parts c.resourceId c.after
  | "remove_resource" => Function.update parts c.resourceId none
  | "set_field" => Function.update parts c.resourceId (update (parts c.resourceId) c.path c.after)
  | "remove_field" => Function.update parts c.resourceId (update (parts c.resourceId) c.path none)
  | _ => parts

def applyChanges (parts : String → Option Value) (changes : List SemanticChange) : String → Option Value :=
  changes.foldl applyChange parts

def SemanticChange.location (c : SemanticChange) : String × List String × Option Value × Option Value :=
  (c.resourceId, c.path, c.before, c.after)

def SemanticChange.reversed (c : SemanticChange) : String × List String × Option Value × Option Value :=
  (c.resourceId, c.path, c.after, c.before)

def diffField (resourceId : String) (path : List String) (before after : Option Value) : List SemanticChange :=
  match before, after with
  | some before, some after => diffValue resourceId path before after
  | before, after =>
      [⟨resourceId, if after.isSome then "set_field" else "remove_field", path, before, after⟩]

variable {id : String} {path : List String}

theorem diffValue_equiv {before after : Value} (h : before ≈ after) : diffValue id path before after = [] := by
  rw [diffValue.eq_def, if_pos (Value.beq_iff.mpr h)]

theorem diffValue_object {b a : Members} (h : ¬ Value.object b ≈ Value.object a) :
    diffValue id path (.object b) (.object a) = (Members.unionKeys [b, a]).flatMap fun key =>
      if path = [] ∧ key = "resource_id" then []
      else diffField id (path ++ [key]) (Members.field b key) (Members.field a key) := by
  rw [diffValue.eq_def, if_neg (mt Value.beq_iff.mp h)]
  refine List.flatMap_congr fun key _ => ?_
  split
  · rfl
  · unfold diffField
    split <;> simp_all

theorem diffValue_other {before after : Value} (h : ¬ before ≈ after)
    (hno : ∀ b a, before = .object b → after = .object a → False) :
    diffValue id path before after = [⟨id, "set_field", path, some before, some after⟩] := by
  rw [diffValue.eq_def, if_neg (mt Value.beq_iff.mp h)]
  split
  next b a => exact (hno b a rfl rfl).elim
  next => rfl

theorem diff_induction {motive : List String → Value → Value → Prop}
    (equiv : ∀ path before after, before ≈ after → motive path before after)
    (object : ∀ path b a, ¬ Value.object b ≈ Value.object a →
      (∀ key left right, Members.field b key = some left → motive (path ++ [key]) left right) →
      motive path (.object b) (.object a))
    (other : ∀ path before after, ¬ before ≈ after →
      (∀ b a, before = .object b → after = .object a → False) → motive path before after)
    (path : List String) (before after : Value) : motive path before after := by
  induction path, before, after using diffValue.induct with
  | case1 path before after h => exact equiv _ _ _ (Value.beq_iff.mp h)
  | case2 path b a h ih => exact object _ _ _ (mt Value.beq_iff.mpr h) ih
  | case3 path before after hno h => exact other _ _ _ (mt Value.beq_iff.mpr h) hno

structure FieldChange (id : String) (path : List String) (c : SemanticChange) : Prop where
  name : c.resourceId = id
  inside : path <+: c.path
  worded : c.operation = "set_field" ∨ c.operation = "remove_field" ∧ c.after = none

theorem fieldChange_diffValue {before after : Value} {c : SemanticChange}
    (hc : c ∈ diffValue id path before after) : FieldChange id path c := by
  induction path, before, after using diff_induction with
  | equiv path before after h => simp [diffValue_equiv h] at hc
  | other path before after h hno =>
      rw [diffValue_other h hno, List.mem_singleton] at hc
      subst hc
      exact ⟨rfl, List.prefix_refl _, .inl rfl⟩
  | object path b a h ih =>
      rw [diffValue_object h, List.mem_flatMap] at hc
      obtain ⟨key, -, hc⟩ := hc
      split at hc
      · cases hc
      · unfold diffField at hc
        split at hc
        next left right hl _ =>
          obtain ⟨hn, hi, hw⟩ := ih key left right hl hc
          exact ⟨hn, (List.prefix_append _ _).trans hi, hw⟩
        next =>
          rw [List.mem_singleton] at hc
          subst hc
          refine ⟨rfl, List.prefix_append _ _, ?_⟩
          cases Members.field a key <;> simp

def relative (path : List String) (changes : List SemanticChange) : List Edit :=
  changes.map fun c => (c.path.drop path.length, c.after)

theorem relative_below (path : List String) (key : String) {changes : List SemanticChange}
    (h : ∀ c ∈ changes, path ++ [key] <+: c.path) :
    relative path changes = (relative (path ++ [key]) changes).map (Edit.below key) := by
  unfold relative
  rw [List.map_map]
  refine List.map_congr_left fun c hc => ?_
  obtain ⟨rest, hrest⟩ := h c hc
  simp [Edit.below, ← hrest]

theorem relative_object {b a : Members} (h : ¬ Value.object b ≈ Value.object a) :
    relative path (diffValue id path (.object b) (.object a)) = (Members.unionKeys [b, a]).flatMap fun key =>
      (if path = [] ∧ key = "resource_id" then []
        else relative (path ++ [key]) (diffField id (path ++ [key]) (Members.field b key) (Members.field a key))).map
        (Edit.below key) := by
  rw [diffValue_object h, relative, List.map_flatMap]
  refine List.flatMap_congr fun key _ => ?_
  split
  · rfl
  · rw [← relative]
    refine relative_below path key fun c hc => ?_
    unfold diffField at hc
    split at hc
    · exact (fieldChange_diffValue hc).inside
    · rw [List.mem_singleton] at hc
      subst hc
      exact List.prefix_refl _

theorem nodup_unionKeys (ms : List Members) : (Members.unionKeys ms).Nodup :=
  (Members.sorted_unionKeys ms).imp fun h => h.ne

/-- Applying the differences to the first value gives the second, provided the
identity skipped at the top is the same on both sides. -/
theorem patch_diffValue {before after : Value}
    (hskip : path = [] → Same (before.get "resource_id") (after.get "resource_id")) {old : Option Value}
    (hold : Same old (some before)) :
    Same (patch old (relative path (diffValue id path before after))) (some after) := by
  induction path, before, after using diff_induction generalizing old with
  | equiv path before after h =>
      rw [diffValue_equiv h]
      exact hold.trans (same_some.mpr h)
  | other path before after h hno =>
      rw [diffValue_other h hno]
      simp [relative, update]
  | object path b a h ih =>
      obtain ⟨m, rfl, hm⟩ := same_object.mp hold
      rw [relative_object h]
      obtain ⟨n, hn, hf⟩ := patch_object _ (nodup_unionKeys [b, a]) m
      rw [hn, same_some, Value.object_equiv]
      intro key
      rw [hf]
      split
      next hk =>
        split
        next hs =>
          obtain ⟨hp, rfl⟩ := hs
          exact (hm _).trans (hskip hp)
        next hs =>
          cases hb : Members.field b key with
          | none => simp [diffField, relative, update]
          | some left =>
              cases ha : Members.field a key with
              | none => simp [diffField, relative, update]
              | some right => exact ih key left right hb (by simp) (hb ▸ hm key)
      next hk =>
        simp only [Members.mem_unionKeys, List.mem_cons, List.not_mem_nil, or_false, exists_eq_or_imp,
          exists_eq_left, not_or, Bool.not_eq_true, Option.isSome_eq_false_iff, Option.isNone_iff_eq_none] at hk
        have := hm key
        rw [hk.1] at this
        rwa [hk.2]

/-- The differences at the top never touch the identity. -/
theorem patch_diffValue_resource_id (id : String) (b a : Members) : ∃ n,
    patch (some (.object b)) (relative [] (diffValue id [] (.object b) (.object a))) = some (.object n) ∧
      Members.field n "resource_id" = Members.field b "resource_id" := by
  by_cases h : Value.object b ≈ Value.object a
  · rw [diffValue_equiv h]
    exact ⟨b, rfl, rfl⟩
  · rw [relative_object h]
    obtain ⟨n, hn, hf⟩ := patch_object _ (nodup_unionKeys [b, a]) b
    refine ⟨n, hn, ?_⟩
    rw [hf]
    simp

theorem diffValue_reversed (before after : Value) : (diffValue id path after before).map SemanticChange.location =
    (diffValue id path before after).map SemanticChange.reversed := by
  induction path, before, after using diff_induction with
  | equiv path before after h => rw [diffValue_equiv h, diffValue_equiv (Setoid.symm h)]; rfl
  | other path before after h hno =>
      rw [diffValue_other h hno,
        diffValue_other (fun he => h (Setoid.symm he)) fun a b ha hb => hno b a hb ha]
      rfl
  | object path b a h ih =>
      have hkeys : Members.unionKeys [a, b] = Members.unionKeys [b, a] :=
        Members.unionKeys_congr fun m => by
          simp only [List.mem_cons, List.not_mem_nil, or_false]
          exact or_comm
      rw [diffValue_object h, diffValue_object fun he => h (Setoid.symm he), hkeys, List.map_flatMap,
        List.map_flatMap]
      refine List.flatMap_congr fun key _ => ?_
      split
      · rfl
      · cases hb : Members.field b key with
        | none => cases ha : Members.field a key <;> rfl
        | some left =>
            cases ha : Members.field a key with
            | none => rfl
            | some right => exact ih key left right hb

end Galadril.Registry.Ontology
