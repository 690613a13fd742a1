import Galadril.Json.Path
import Galadril.Registry.SliceClosure

namespace Galadril.Registry.Ontology

open Json Lib.Checked

structure MergeConflict where
  resourceId : String
  path : List String
  base : Option Value
  left : Option Value
  right : Option Value
  deriving DecidableEq

structure MergeResult where
  ontology : Option Value
  conflicts : List MergeConflict
  deriving DecidableEq

def resourceValues (ontology : Value) : Except String (Std.ExtTreeMap String Value) := do
  validateOntology ontology
  let resources ← context (ontology.getArray "resources") "ontology_resources_missing"
  let entries ← resources.mapM fun resource => do
    let id ← requiredString resource "resource_id" "ontology resource"
    return (id, resource)
  return Std.ExtTreeMap.ofList entries

def rootMetadata (ontology : Value) : Except String Value := do
  let members ← context ontology.asObject "ontology object missing"
  return .object (members.filter fun p => p.1 ≠ "resources")

def mergeValue (resourceId : String) (path : List String) (base left right : Option Value) :
    Option Value × List MergeConflict :=
  if left == right then (left, [])
  else if left == base then (right, [])
  else if right == base then (left, [])
  else
    match base, left, right with
    | some (.object b), some (.object l), some (.object r) =>
        let merged := fun key =>
          mergeValue resourceId (path ++ [key]) (Members.field b key) (Members.field l key) (Members.field r key)
        let keys := Members.unionKeys [b, l, r]
        (some (.object (Members.collect keys fun key => (merged key).1)), keys.flatMap fun key => (merged key).2)
    | base, left, right => (left, [⟨resourceId, path, base, left, right⟩])
termination_by optDepth left
decreasing_by exact optDepth_field_lt l key

def mergeOntology (base left right : Value) : Except String MergeResult := do
  validateOntology base
  validateOntology left
  validateOntology right
  let baseResources ← resourceValues base
  let leftResources ← resourceValues left
  let rightResources ← resourceValues right
  let ids := (Std.ExtTreeSet.ofList (baseResources.keys ++ leftResources.keys ++ rightResources.keys)).toList
  let merged := fun id => mergeValue id [] baseResources[id]? leftResources[id]? rightResources[id]?
  let metadata := mergeValue "$ontology" [] (some (← rootMetadata base)) (some (← rootMetadata left))
    (some (← rootMetadata right))
  let conflicts := ids.flatMap (fun id => (merged id).2) ++ metadata.2
  if conflicts ≠ [] then
    return ⟨none, conflicts⟩
  else
    let ontology ← context metadata.1 "ontology merge metadata missing"
    let members ← context ontology.asObject "ontology merge metadata invalid"
    let resources := ids.filterMap fun id => (merged id).1
    let ontology := Value.object (Members.insert "resources" (.array resources) members)
    validateOntology ontology
    return ⟨some ontology, conflicts⟩

/-- The three-way law at one location, where absence is a value like any
other. -/
structure MergedAt (base left right merged : Option Value) : Prop where
  left_unchanged : Same left base → Same merged right
  right_unchanged : Same right base → Same merged left
  agreed : Same left right → Same merged left

/-- Both sides changed, they changed differently, and there is no common
object structure to merge within. -/
def Diverged (base left right : Option Value) : Prop :=
  ¬ Same left right ∧ ¬ Same left base ∧ ¬ Same right base ∧
    ¬ ∃ b l r, base = some (.object b) ∧ left = some (.object l) ∧ right = some (.object r)

def MinimalDivergence (base left right : Option Value) (path : List String) : Prop :=
  Diverged (descend base path) (descend left path) (descend right path) ∧
    ∀ q, q <+: path → q ≠ path → ¬ Diverged (descend base q) (descend left q) (descend right q)

def MergeConflict.swap (c : MergeConflict) : MergeConflict := { c with left := c.right, right := c.left }

variable {id : String} {path : List String} {base left right : Option Value}

theorem mergeValue_agreed (h : Same left right) : mergeValue id path base left right = (left, []) := by
  rw [mergeValue.eq_def, if_pos (option_beq_iff.mpr h)]

theorem mergeValue_left (hlr : ¬ Same left right) (h : Same left base) :
    mergeValue id path base left right = (right, []) := by
  rw [mergeValue.eq_def, if_neg (mt option_beq_iff.mp hlr), if_pos (option_beq_iff.mpr h)]

theorem mergeValue_right (hlr : ¬ Same left right) (hlb : ¬ Same left base) (h : Same right base) :
    mergeValue id path base left right = (left, []) := by
  rw [mergeValue.eq_def, if_neg (mt option_beq_iff.mp hlr), if_neg (mt option_beq_iff.mp hlb),
    if_pos (option_beq_iff.mpr h)]

theorem mergeValue_object {b l r : Members} (hlr : ¬ Same (some (.object l)) (some (.object r)))
    (hlb : ¬ Same (some (.object l)) (some (.object b))) (hrb : ¬ Same (some (.object r)) (some (.object b))) :
    mergeValue id path (some (.object b)) (some (.object l)) (some (.object r)) =
      (some (.object (Members.collect (Members.unionKeys [b, l, r]) fun key =>
        (mergeValue id (path ++ [key]) (Members.field b key) (Members.field l key) (Members.field r key)).1)),
      (Members.unionKeys [b, l, r]).flatMap fun key =>
        (mergeValue id (path ++ [key]) (Members.field b key) (Members.field l key) (Members.field r key)).2) := by
  rw [mergeValue.eq_def, if_neg (mt option_beq_iff.mp hlr), if_neg (mt option_beq_iff.mp hlb),
    if_neg (mt option_beq_iff.mp hrb)]

theorem mergeValue_diverged (h : Diverged base left right) :
    mergeValue id path base left right = (left, [⟨id, path, base, left, right⟩]) := by
  obtain ⟨hlr, hlb, hrb, hno⟩ := h
  rw [mergeValue.eq_def, if_neg (mt option_beq_iff.mp hlr), if_neg (mt option_beq_iff.mp hlb),
    if_neg (mt option_beq_iff.mp hrb)]
  split
  next b l r => exact (hno ⟨b, l, r, rfl, rfl, rfl⟩).elim
  next => rfl

/-- The cases of a merge in terms of JSON equality. -/
theorem merge_induction {motive : List String → Option Value → Option Value → Option Value → Prop}
    (agreed : ∀ path base left right, Same left right → motive path base left right)
    (unchanged_left : ∀ path base left right, ¬ Same left right → Same left base → motive path base left right)
    (unchanged_right : ∀ path base left right, ¬ Same left right → ¬ Same left base → Same right base →
      motive path base left right)
    (object : ∀ path b l r, ¬ Same (some (.object l)) (some (.object r)) →
      ¬ Same (some (.object l)) (some (.object b)) → ¬ Same (some (.object r)) (some (.object b)) →
      (∀ key, motive (path ++ [key]) (Members.field b key) (Members.field l key) (Members.field r key)) →
      motive path (some (.object b)) (some (.object l)) (some (.object r)))
    (diverged : ∀ path base left right, Diverged base left right → motive path base left right)
    (path : List String) (base left right : Option Value) : motive path base left right := by
  induction path, base, left, right using mergeValue.induct "" with
  | case1 path base left right hlr => exact agreed _ _ _ _ (option_beq_iff.mp hlr)
  | case2 path base left right hlr hlb =>
      exact unchanged_left _ _ _ _ (mt option_beq_iff.mpr hlr) (option_beq_iff.mp hlb)
  | case3 path base left right hlr hlb hrb =>
      exact unchanged_right _ _ _ _ (mt option_beq_iff.mpr hlr) (mt option_beq_iff.mpr hlb) (option_beq_iff.mp hrb)
  | case4 path b l r hlb hrb hlr ih =>
      exact object _ _ _ _ (mt option_beq_iff.mpr hlr) (mt option_beq_iff.mpr hlb) (mt option_beq_iff.mpr hrb) ih
  | case5 path base left right hno hlb hrb hlr =>
      exact diverged _ _ _ _ ⟨mt option_beq_iff.mpr hlr, mt option_beq_iff.mpr hlb, mt option_beq_iff.mpr hrb,
        fun ⟨b, l, r, h1, h2, h3⟩ => hno b l r h1 h2 h3⟩

theorem not_diverged_of_agreed (h : Same left right) (p : List String) :
    ¬ Diverged (descend base p) (descend left p) (descend right p) := fun hd => hd.1 (h.descend p)

theorem not_diverged_of_left (h : Same left base) (p : List String) :
    ¬ Diverged (descend base p) (descend left p) (descend right p) := fun hd => hd.2.1 (h.descend p)

theorem not_diverged_of_right (h : Same right base) (p : List String) :
    ¬ Diverged (descend base p) (descend left p) (descend right p) := fun hd => hd.2.2.1 (h.descend p)

theorem minimalDivergence_object {b l r : Members} {key : String} {p : List String} :
    MinimalDivergence (some (.object b)) (some (.object l)) (some (.object r)) (key :: p) ↔
      MinimalDivergence (Members.field b key) (Members.field l key) (Members.field r key) p := by
  unfold MinimalDivergence
  simp only [descend_object, and_congr_right_iff]
  intro _
  constructor
  · intro h q hq hne
    exact h (key :: q) ((List.prefix_cons_inj key).mpr hq) (by simpa using hne)
  · intro h q hq hne
    cases q with
    | nil => exact fun hd => hd.2.2.2 ⟨b, l, r, rfl, rfl, rfl⟩
    | cons k q =>
        obtain ⟨rfl, hqp⟩ := List.cons_prefix_cons.mp hq
        exact h q hqp (by simpa using hne)

theorem mem_keys_of_not_same {b l r : Members} {key : String}
    (h : ¬ Same (Members.field l key) (Members.field r key)) : key ∈ Members.unionKeys [b, l, r] := by
  rw [Members.mem_unionKeys]
  by_contra hn
  simp only [List.mem_cons, List.not_mem_nil, or_false, exists_eq_or_imp, exists_eq_left, not_or,
    Bool.not_eq_true, Option.isSome_eq_false_iff, Option.isNone_iff_eq_none] at hn
  exact h (by simp [hn.2.1, hn.2.2])

/-- Without conflicts every location obeys the three-way law. -/
theorem mergeValue_mergedAt (h : (mergeValue id path base left right).2 = []) (p : List String) :
    MergedAt (descend base p) (descend left p) (descend right p)
      (descend (mergeValue id path base left right).1 p) := by
  induction path, base, left, right using merge_induction generalizing p with
  | agreed path base left right hlr =>
      rw [mergeValue_agreed hlr]
      have hp := hlr.descend p
      exact ⟨fun _ => hp, fun _ => .refl _, fun _ => .refl _⟩
  | unchanged_left path base left right hlr hlb =>
      rw [mergeValue_left hlr hlb]
      have hp := hlb.descend p
      exact ⟨fun _ => .refl _, fun hr => hr.trans hp.symm, Same.symm⟩
  | unchanged_right path base left right hlr hlb hrb =>
      rw [mergeValue_right hlr hlb hrb]
      have hp := hrb.descend p
      exact ⟨fun hl => hl.trans hp.symm, fun _ => .refl _, fun _ => .refl _⟩
  | object path b l r hlr hlb hrb ih =>
      rw [mergeValue_object hlr hlb hrb] at h ⊢
      cases p with
      | nil => exact ⟨fun hs => absurd hs hlb, fun hs => absurd hs hrb, fun hs => absurd hs hlr⟩
      | cons key p =>
          simp only [descend_object, Members.field_collect]
          split
          next hk => exact ih key (List.flatMap_eq_nil_iff.mp h key hk) p
          next hk =>
            simp only [Members.mem_unionKeys, List.mem_cons, List.not_mem_nil, or_false, exists_eq_or_imp,
              exists_eq_left, not_or, Bool.not_eq_true, Option.isSome_eq_false_iff,
              Option.isNone_iff_eq_none] at hk
            simp only [hk, descend_none]
            exact ⟨fun _ => .refl _, fun _ => .refl _, fun _ => .refl _⟩
  | diverged path base left right hd => simp [mergeValue_diverged hd] at h

/-- Conflicts are the shallowest divergences, each with the three values found
there. -/
theorem mem_mergeValue_conflicts {c : MergeConflict} :
    c ∈ (mergeValue id path base left right).2 ↔ ∃ p, MinimalDivergence base left right p ∧
      c = ⟨id, path ++ p, descend base p, descend left p, descend right p⟩ := by
  induction path, base, left, right using merge_induction with
  | agreed path base left right hlr =>
      simp [mergeValue_agreed hlr, MinimalDivergence, not_diverged_of_agreed hlr]
  | unchanged_left path base left right hlr hlb =>
      simp [mergeValue_left hlr hlb, MinimalDivergence, not_diverged_of_left hlb]
  | unchanged_right path base left right hlr hlb hrb =>
      simp [mergeValue_right hlr hlb hrb, MinimalDivergence, not_diverged_of_right hrb]
  | object path b l r hlr hlb hrb ih =>
      rw [mergeValue_object hlr hlb hrb]
      simp only [List.mem_flatMap, ih]
      constructor
      · rintro ⟨key, -, p, hp, rfl⟩
        exact ⟨key :: p, minimalDivergence_object.mpr hp, by simp⟩
      · rintro ⟨p, hp, rfl⟩
        cases p with
        | nil => exact (hp.1.2.2.2 ⟨b, l, r, rfl, rfl, rfl⟩).elim
        | cons key p =>
            have hm := minimalDivergence_object.mp hp
            have hne : ¬ Same (Members.field l key) (Members.field r key) := fun hs => hm.1.1 (hs.descend p)
            exact ⟨key, mem_keys_of_not_same hne, p, hm, by simp⟩
  | diverged path base left right hd =>
      rw [mergeValue_diverged hd, List.mem_singleton]
      constructor
      · rintro rfl
        exact ⟨[], ⟨hd, fun q hq hne => (hne (List.prefix_nil.mp hq)).elim⟩, by simp⟩
      · rintro ⟨p, hp, rfl⟩
        cases p with
        | nil => simp
        | cons key p => exact (hp.2 [] List.nil_prefix (by simp) hd).elim

theorem Diverged.swap (h : Diverged base left right) : Diverged base right left :=
  ⟨fun hs => h.1 hs.symm, h.2.2.1, h.2.1, fun ⟨b, l, r, h1, h2, h3⟩ => h.2.2.2 ⟨b, r, l, h1, h3, h2⟩⟩

theorem unionKeys_swap (b l r : Members) : Members.unionKeys [b, r, l] = Members.unionKeys [b, l, r] :=
  Members.unionKeys_congr fun m => by
    simp only [List.mem_cons, List.not_mem_nil, or_false]
    tauto

theorem mergeValue_swap_conflicts : (mergeValue id path base right left).2 =
    (mergeValue id path base left right).2.map MergeConflict.swap := by
  induction path, base, left, right using merge_induction with
  | agreed path base left right hlr => simp [mergeValue_agreed hlr, mergeValue_agreed hlr.symm]
  | unchanged_left path base left right hlr hlb =>
      have hrl : ¬ Same right left := fun hs => hlr hs.symm
      have hrb : ¬ Same right base := fun hs => hlr (hlb.trans hs.symm)
      simp [mergeValue_left hlr hlb, mergeValue_right hrl hrb hlb]
  | unchanged_right path base left right hlr hlb hrb =>
      have hrl : ¬ Same right left := fun hs => hlr hs.symm
      simp [mergeValue_right hlr hlb hrb, mergeValue_left hrl hrb]
  | object path b l r hlr hlb hrb ih =>
      rw [mergeValue_object hlr hlb hrb, mergeValue_object (fun hs => hlr hs.symm) hrb hlb, List.map_flatMap,
        unionKeys_swap]
      simp only [ih]
  | diverged path base left right hd =>
      rw [mergeValue_diverged hd, mergeValue_diverged hd.swap]
      rfl

/-- Exchanging the sides of a clean merge gives an equal value. -/
theorem mergeValue_swap (h : (mergeValue id path base left right).2 = []) :
    Same (mergeValue id path base right left).1 (mergeValue id path base left right).1 := by
  induction path, base, left, right using merge_induction with
  | agreed path base left right hlr => simpa [mergeValue_agreed hlr, mergeValue_agreed hlr.symm] using hlr.symm
  | unchanged_left path base left right hlr hlb =>
      have hrl : ¬ Same right left := fun hs => hlr hs.symm
      have hrb : ¬ Same right base := fun hs => hlr (hlb.trans hs.symm)
      simp [mergeValue_left hlr hlb, mergeValue_right hrl hrb hlb]
  | unchanged_right path base left right hlr hlb hrb =>
      have hrl : ¬ Same right left := fun hs => hlr hs.symm
      simp [mergeValue_right hlr hlb hrb, mergeValue_left hrl hrb]
  | object path b l r hlr hlb hrb ih =>
      rw [mergeValue_object hlr hlb hrb] at h ⊢
      rw [mergeValue_object (fun hs => hlr hs.symm) hrb hlb, same_some, Value.object_equiv, unionKeys_swap]
      intro key
      rw [Members.field_collect, Members.field_collect]
      split
      next hk => exact ih key (List.flatMap_eq_nil_iff.mp h key hk)
      next => exact Same.refl _
  | diverged path base left right hd => simp [mergeValue_diverged hd] at h

end Galadril.Registry.Ontology
