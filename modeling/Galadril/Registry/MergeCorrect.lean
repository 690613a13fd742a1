import Galadril.Registry.MergeParts

namespace Galadril.Registry.Ontology

open Json Lib.Checked

theorem MergedAt.congr {base left right merged other : Option Value} (h : MergedAt base left right merged)
    (hm : Same other merged) : MergedAt base left right other :=
  ⟨fun hs => hm.trans (h.left_unchanged hs), fun hs => hm.trans (h.right_unchanged hs),
    fun hs => hm.trans (h.agreed hs)⟩

/-- A string member on which both sides always agree survives a clean merge. -/
theorem mergeValue_keeps {id : String} {path : List String} {base left right : Option Value} {key s : String}
    (hl : ∀ v, left = some v → v.get key = some (.string s))
    (hr : ∀ v, right = some v → v.get key = some (.string s))
    (h : (mergeValue id path base left right).2 = []) {v : Value}
    (hv : (mergeValue id path base left right).1 = some v) : v.get key = some (.string s) := by
  have hnot : ¬ Diverged base left right := fun hd => by simp [mergeValue_diverged hd] at h
  have hagreed := (mergeValue_mergedAt h [key]).agreed
  by_cases hlr : Same left right
  · rw [mergeValue_agreed hlr] at hv
    exact hl v hv
  by_cases hlb : Same left base
  · rw [mergeValue_left hlr hlb] at hv
    exact hr v hv
  by_cases hrb : Same right base
  · rw [mergeValue_right hlr hlb hrb] at hv
    exact hl v hv
  · obtain ⟨b, l, r, rfl, rfl, rfl⟩ := not_not.mp fun hn => hnot ⟨hlr, hlb, hrb, hn⟩
    rw [hv] at hagreed
    have hs := hagreed (by simpa [descend] using (hl _ rfl).trans (hr _ rfl).symm ▸ Same.refl _)
    exact same_string.mp (hs.trans (hl _ rfl ▸ Same.refl _))

theorem valueById_filterMap (ids : List String) (f : String → Option Value)
    (hf : ∀ x ∈ ids, ∀ v, f x = some v → resourceId v = some x) (x : String) :
    valueById (ids.filterMap f) x = if x ∈ ids then f x else none := by
  induction ids with
  | nil => rfl
  | cons y ids ih =>
      have ih := ih fun z hz => hf z (List.mem_cons_of_mem _ hz)
      cases hy : f y with
      | none =>
          rw [List.filterMap_cons_none hy, ih]
          by_cases he : x = y
          · subst he
            simp [hy]
          · simp [he]
      | some v =>
          have hid := hf y List.mem_cons_self v hy
          unfold valueById at ih ⊢
          rw [List.filterMap_cons_some hy, List.find?_cons, ih, hid]
          by_cases he : x = y
          · subst he
            simp [hy]
          · simp [he, Ne.symm he]

variable {base left right : Value} {vb vl vr : List Value} {rb rl rr : List Resource} {members : Members}

theorem resourcesOf_mergedDocument : resourcesOf (mergedDocument base left right members) =
    (allIds [base, left, right]).filterMap fun id => (mergePart base left right id).1 := by
  simp [resourcesOf, mergedDocument, Value.getArray, Value.get, Value.asArray]

theorem merged_id (hl : Parsed left vl rl) (hr : Parsed right vr rr) {x : String} (hx : x ≠ "$ontology")
    (hc : (mergePart base left right x).2 = []) {v : Value} (hv : (mergePart base left right x).1 = some v) :
    resourceId v = some x :=
  Value.getStr_eq_some.mpr (mergeValue_keeps (hl.part_id hx) (hr.part_id hx) hc hv)

theorem part_mergedDocument (hb : Parsed base vb rb) (hl : Parsed left vl rl) (hr : Parsed right vr rr)
    (hc : ∀ name, (mergePart base left right name).2 = [])
    (hm : (mergePart base left right "$ontology").1 = some (.object members)) (name : String) :
    Same (part (mergedDocument base left right members) name) (mergePart base left right name).1 := by
  by_cases hn : name = "$ontology"
  · subst hn
    obtain ⟨b, -, hpb⟩ := hb.part_root_eq
    obtain ⟨l, -, hpl⟩ := hl.part_root_eq
    obtain ⟨r, -, hpr⟩ := hr.part_root_eq
    have hnone : Members.field members "resources" = none := by
      have hs := (mergeValue_mergedAt (hc "$ontology") ["resources"]).agreed
      rw [← mergePart, hm, hpl, hpr] at hs
      simp only [descend_object, descend_nil, Members.field_filter_ne, if_true] at hs
      exact same_none_right.mp (hs (.refl _))
    rw [hm, part, if_pos rfl, mergedDocument]
    change Same (some (.object _)) _
    rw [same_some, Value.object_equiv]
    intro key
    rw [Members.field_filter_ne, Members.field_insert]
    split
    next hk => simp [← hk, hnone]
    next hk => exact .refl _
  · rw [part, if_neg hn, resourcesOf_mergedDocument, valueById_filterMap]
    · split
      next => exact .refl _
      next hid => simp [mergePart_of_not_mem hb hl hr hn hid]
    · intro x hx v hv
      exact merged_id hl hr ((mem_allIds (three_accepts hb hl hr)).mp hx).1 (hc x) hv

theorem forall₂_filterMap {ids : List String} {f g : String → Option Value} (h : ∀ x ∈ ids, Same (f x) (g x)) :
    List.Forall₂ (· ≈ ·) (ids.filterMap f) (ids.filterMap g) := by
  induction ids with
  | nil => exact .nil
  | cons x ids ih =>
      obtain ⟨hx, hrest⟩ := List.forall_mem_cons.mp h
      cases hf : f x with
      | none =>
          rw [hf, same_none_left] at hx
          rw [List.filterMap_cons_none hf, List.filterMap_cons_none hx]
          exact ih hrest
      | some v =>
          rw [hf] at hx
          cases hg : g x with
          | none => simp [hg] at hx
          | some w =>
              rw [hg, same_some] at hx
              rw [List.filterMap_cons_some hf, List.filterMap_cons_some hg]
              exact .cons hx (ih hrest)

def ConflictAt (base left right : Value) (c : MergeConflict) : Prop :=
  ∃ name p, MinimalDivergence (part base name) (part left name) (part right name) p ∧
    c = ⟨name, p, locate base name p, locate left name p, locate right name p⟩

structure SortedCopy (o copy : Value) : Prop where
  root : Same (part copy "$ontology") (part o "$ontology")
  resources : Rearranged (resourcesOf o) (resourcesOf copy)
  sorted : (resourcesOf copy).Pairwise fun v w =>
    ∃ x y, resourceId v = some x ∧ resourceId w = some y ∧ x < y

structure ThreeWayMerge (base left right : Value) : Prop where
  law : ∀ merged conflicts, mergeOntology base left right = .ok ⟨some merged, conflicts⟩ → ∀ name p,
    MergedAt (locate base name p) (locate left name p) (locate right name p) (locate merged name p)
  reported : ∀ result, mergeOntology base left right = .ok result →
    ∀ c, c ∈ result.conflicts ↔ ConflictAt base left right c
  unreported : ∀ e, mergeOntology base left right = .error e → ∀ c, ¬ ConflictAt base left right c
  swap : ∀ result, mergeOntology base left right = .ok result → ∃ other,
    mergeOntology base right left = .ok other ∧ other.conflicts = result.conflicts.map MergeConflict.swap ∧
      Same other.ontology result.ontology
  unchanged_left : left ≈ base → ∃ merged, mergeOntology base left right = .ok ⟨some merged, []⟩ ∧
    SortedCopy right merged
  unchanged_right : right ≈ base → ∃ merged, mergeOntology base left right = .ok ⟨some merged, []⟩ ∧
    SortedCopy left merged

theorem mem_allConflicts (hb : Parsed base vb rb) (hl : Parsed left vl rl) (hr : Parsed right vr rr)
    {c : MergeConflict} : c ∈ allConflicts base left right ↔ ConflictAt base left right c := by
  have hpart : ∀ name, c ∈ (mergePart base left right name).2 ↔
      ∃ p, MinimalDivergence (part base name) (part left name) (part right name) p ∧
        c = ⟨name, p, locate base name p, locate left name p, locate right name p⟩ :=
    fun _ => mem_mergeValue_conflicts
  rw [allConflicts, List.mem_append, List.mem_flatMap, ConflictAt]
  constructor
  · rintro (⟨name, -, h⟩ | h)
    · exact ⟨name, (hpart name).mp h⟩
    · exact ⟨_, (hpart _).mp h⟩
  · rintro ⟨name, hc⟩
    have hc := (hpart name).mpr hc
    by_cases hn : name = "$ontology"
    · exact .inr (hn ▸ hc)
    · refine .inl ⟨name, ?_, hc⟩
      by_contra hno
      rw [mergePart_of_not_mem hb hl hr hn hno] at hc
      cases hc

theorem getStr_version_mergedDocument {text : String} (h : Members.field members "version" = some (.string text)) :
    (mergedDocument base left right members).getStr "version" = some text := by
  rw [Value.getStr_eq_some]
  simpa [mergedDocument, Value.get] using h

theorem getArray_mergedDocument : (mergedDocument base left right members).getArray "resources" =
    some (resourcesOf (mergedDocument base left right members)) := by
  rw [resourcesOf_mergedDocument]
  simp [mergedDocument, Value.getArray, Value.get, Value.asArray]

theorem version_mergedDocument {o : Value} {vs : List Value} {rs : List Resource} (ho : Parsed o vs rs)
    (h : Same (some (.object members)) (part o "$ontology")) :
    (mergedDocument base left right members).getStr "version" = o.getStr "version" := by
  obtain ⟨text, ht, -⟩ := ho.version
  obtain ⟨ms, rfl, hp⟩ := ho.part_root_eq
  rw [hp, same_some, Value.object_equiv] at h
  have hv := h "version"
  rw [Members.field_filter_ne, if_neg (by decide)] at hv
  have hms : Members.field ms "version" = some (.string text) := Value.getStr_eq_some.mp ht
  rw [hms, same_string] at hv
  rw [ht, getStr_version_mergedDocument hv]

/-- A merge whose parts are all those of one document returns that document
with its resources sorted. -/
theorem merge_copy (hb : Parsed base vb rb) (hl : Parsed left vl rl) (hr : Parsed right vr rr)
    {o : Value} {vs : List Value} {rs : List Resource} (ho : Parsed o vs rs)
    (hc : ∀ name, (mergePart base left right name).2 = [])
    (hs : ∀ name, Same (mergePart base left right name).1 (part o name)) :
    ∃ merged, mergeOntology base left right = .ok ⟨some merged, []⟩ ∧ SortedCopy o merged := by
  obtain ⟨members, hm⟩ := mergePart_root hb hl hr
  have hne : ∀ x ∈ allIds [base, left, right], x ≠ "$ontology" := fun x hx => ((mem_allIds (three_accepts hb hl hr)).mp hx).1
  have hid : ∀ x v, valueById vs x = some v → x ∈ allIds [base, left, right] := by
    intro x v hv
    have hx : x ≠ "$ontology" := by
      rintro rfl
      simp [ho.valueById_root] at hv
    by_contra hno
    have := hs x
    rw [ho.part_resource hx, hv, mergePart_of_not_mem hb hl hr hx hno] at this
    simp at this
  have hperm : vs.Perm ((allIds [base, left, right]).filterMap (valueById vs)) := by
    have hids : (allIds [base, left, right]).Nodup := (sorted_allIds _).imp fun h => h.ne
    refine (List.perm_ext_iff_of_nodup (.of_map resourceId ho.ids_nodup)
      (hids.filterMap fun x y v hx hy => ?_)).mpr fun v => ?_
    · have h1 := (ho.valueById_eq_some.mp hx).2
      have h2 := (ho.valueById_eq_some.mp hy).2
      exact Option.some.inj (h1.symm.trans h2)
    · rw [List.mem_filterMap]
      constructor
      · intro hv
        obtain ⟨r, -, hreads⟩ := ho.mem_value hv
        have hx := ho.valueById_eq_some.mpr ⟨hv, hreads.id⟩
        exact ⟨r.id, hid _ _ hx, hx⟩
      · rintro ⟨x, -, hx⟩
        exact (ho.valueById_eq_some.mp hx).1
  have hcopy : SortedCopy o (mergedDocument base left right members) := by
    refine ⟨(part_mergedDocument hb hl hr hc hm _).trans (hs _), ?_, ?_⟩
    · rw [ho.resourcesOf_eq, resourcesOf_mergedDocument]
      exact ⟨_, hperm, forall₂_filterMap fun x hx => ho.part_resource (hne x hx) ▸ (hs x).symm⟩
    · rw [resourcesOf_mergedDocument, List.pairwise_filterMap]
      refine (sorted_allIds _).imp_of_mem fun {x y} hx hy hlt v hv w hw => ⟨x, y, ?_, ?_, hlt⟩
      · exact merged_id hl hr (hne x hx) (hc x) hv
      · exact merged_id hl hr (hne y hy) (hc y) hw
  refine ⟨_, (mergeOntology_clean hb hl hr ((conflicts_eq_nil hb hl hr).mpr hc) hm).mpr ⟨?_, rfl⟩, hcopy⟩
  exact validateOntology_rearranged (version_mergedDocument ho (hm ▸ hs _)) ho.values getArray_mergedDocument
    (ho.resourcesOf_eq ▸ hcopy.resources) ho.accepts

/-- Documents that are equal as JSON have equal parts. -/
theorem part_congr {o p : Value} {vs ws : List Value} {rs xs : List Resource} (ho : Parsed o vs rs)
    (hp : Parsed p ws xs) (h : o ≈ p) (name : String) : Same (part o name) (part p name) := by
  by_cases hn : name = "$ontology"
  · subst hn
    obtain ⟨m, rfl, hm⟩ := ho.part_root_eq
    obtain ⟨n, rfl, hn⟩ := hp.part_root_eq
    rw [hm, hn, same_some, Value.object_equiv]
    intro key
    rw [Members.field_filter_ne, Members.field_filter_ne]
    split
    · exact .refl _
    · exact Value.object_equiv.mp h key
  · rw [ho.part_resource hn, hp.part_resource hn]
    have hsame := Value.get_same h "resources"
    rw [Value.getArray_eq_some.mp ho.values, Value.getArray_eq_some.mp hp.values, same_some,
      Value.array_equiv] at hsame
    clear ho hp h
    induction hsame with
    | nil => exact .refl _
    | @cons v w vs ws he _ ih =>
        have hid : resourceId v = resourceId w := by
          rw [resourceId, resourceId, ← Value.getStr_canon, Value.equiv_iff.mp he, Value.getStr_canon]
        unfold valueById at ih ⊢
        rw [List.find?_cons, List.find?_cons, hid]
        split
        · exact same_some.mpr he
        · exact ih

theorem merge_unchanged_left (hb : Parsed base vb rb) (hl : Parsed left vl rl) (hr : Parsed right vr rr)
    (h : left ≈ base) : ∃ merged, mergeOntology base left right = .ok ⟨some merged, []⟩ ∧
      SortedCopy right merged := by
  have hpart : ∀ name, (mergePart base left right name).2 = [] ∧
      Same (mergePart base left right name).1 (part right name) := by
    intro name
    unfold mergePart
    by_cases hlr : Same (part left name) (part right name)
    · rw [mergeValue_agreed hlr]
      exact ⟨rfl, hlr⟩
    · rw [mergeValue_left hlr (part_congr hl hb h name)]
      exact ⟨rfl, .refl _⟩
  exact merge_copy hb hl hr hr (fun name => (hpart name).1) fun name => (hpart name).2

theorem merge_unchanged_right (hb : Parsed base vb rb) (hl : Parsed left vl rl) (hr : Parsed right vr rr)
    (h : right ≈ base) : ∃ merged, mergeOntology base left right = .ok ⟨some merged, []⟩ ∧
      SortedCopy left merged := by
  have hpart : ∀ name, (mergePart base left right name).2 = [] ∧
      Same (mergePart base left right name).1 (part left name) := by
    intro name
    have hrb := part_congr hr hb h name
    unfold mergePart
    by_cases hlr : Same (part left name) (part right name)
    · rw [mergeValue_agreed hlr]
      exact ⟨rfl, .refl _⟩
    · rw [mergeValue_right hlr (fun hlb => hlr (hlb.trans hrb.symm)) hrb]
      exact ⟨rfl, .refl _⟩
  exact merge_copy hb hl hr hl (fun name => (hpart name).1) fun name => (hpart name).2

theorem allIds_swap : allIds [base, right, left] = allIds [base, left, right] :=
  allIds_congr fun o => by
    simp only [List.mem_cons, List.not_mem_nil, or_false]
    tauto

theorem mergePart_swap_conflicts (name : String) : (mergePart base right left name).2 =
    (mergePart base left right name).2.map MergeConflict.swap := mergeValue_swap_conflicts

theorem allConflicts_swap : allConflicts base right left =
    (allConflicts base left right).map MergeConflict.swap := by
  rw [allConflicts, allConflicts, allIds_swap, List.map_append, List.map_flatMap, mergePart_swap_conflicts]
  exact congrArg (· ++ _) (List.flatMap_congr fun id _ => mergePart_swap_conflicts id)

theorem merge_swap (hb : Parsed base vb rb) (hl : Parsed left vl rl) (hr : Parsed right vr rr)
    {result : MergeResult} (h : mergeOntology base left right = .ok result) :
    ∃ other, mergeOntology base right left = .ok other ∧
      other.conflicts = result.conflicts.map MergeConflict.swap ∧ Same other.ontology result.ontology := by
  by_cases hc : allConflicts base left right = []
  · have hc' : allConflicts base right left = [] := by rw [allConflicts_swap, hc, List.map_nil]
    have hparts := (conflicts_eq_nil hb hl hr).mp hc
    obtain ⟨members, hm⟩ := mergePart_root hb hl hr
    obtain ⟨others, ho⟩ := mergePart_root hb hr hl
    obtain ⟨hvalid, rfl⟩ := (mergeOntology_clean hb hl hr hc hm).mp h
    have hsame : ∀ name, Same (mergePart base right left name).1 (mergePart base left right name).1 :=
      fun name => mergeValue_swap (hparts name)
    have hresources : List.Forall₂ (· ≈ ·) (resourcesOf (mergedDocument base right left others))
        (resourcesOf (mergedDocument base left right members)) := by
      rw [resourcesOf_mergedDocument, resourcesOf_mergedDocument, allIds_swap]
      exact forall₂_filterMap fun name _ => hsame name
    have hequiv : mergedDocument base right left others ≈ mergedDocument base left right members := by
      have hroot := hsame "$ontology"
      rw [hm, ho, same_some, Value.object_equiv] at hroot
      rw [mergedDocument, mergedDocument, Value.object_equiv]
      intro key
      rw [Members.field_insert, Members.field_insert]
      split
      · rw [same_some, Value.array_equiv, ← resourcesOf_mergedDocument, ← resourcesOf_mergedDocument]
        exact hresources
      · exact hroot key
    refine ⟨_, (mergeOntology_clean hb hr hl hc' ho).mpr ⟨?_, rfl⟩, rfl, same_some.mpr hequiv⟩
    refine validateOntology_rearranged ?_ getArray_mergedDocument getArray_mergedDocument
      ⟨_, .refl _, .flip (hresources.imp fun _ _ he => Setoid.symm he)⟩ hvalid
    rw [← Value.getStr_canon, Value.equiv_iff.mp hequiv, Value.getStr_canon]
  · have hc' : allConflicts base right left ≠ [] := by
      rw [allConflicts_swap]
      simpa using hc
    rw [mergeOntology_conflicted hb hl hr hc] at h
    cases h
    exact ⟨_, mergeOntology_conflicted hb hr hl hc', allConflicts_swap, .refl _⟩

/-- Merging ontologies is a three-way merge at every location. -/
theorem mergeOntology_threeWay (hb : Accepts (validateOntology base)) (hl : Accepts (validateOntology left))
    (hr : Accepts (validateOntology right)) : ThreeWayMerge base left right := by
  obtain ⟨vb, rb, hb⟩ := exists_parsed hb
  obtain ⟨vl, rl, hl⟩ := exists_parsed hl
  obtain ⟨vr, rr, hr⟩ := exists_parsed hr
  obtain ⟨members, hm⟩ := mergePart_root hb hl hr
  refine ⟨?_, ?_, ?_, fun _ => merge_swap hb hl hr, merge_unchanged_left hb hl hr, merge_unchanged_right hb hl hr⟩
  · intro merged conflicts h name p
    by_cases hc : allConflicts base left right = []
    · obtain ⟨-, he⟩ := (mergeOntology_clean hb hl hr hc hm).mp h
      cases he
      have hparts := (conflicts_eq_nil hb hl hr).mp hc
      exact (mergeValue_mergedAt (hparts name) p).congr ((part_mergedDocument hb hl hr hparts hm name).descend p)
    · rw [mergeOntology_conflicted hb hl hr hc] at h
      cases h
  · intro result h c
    rw [← mem_allConflicts hb hl hr]
    by_cases hc : allConflicts base left right = []
    · rw [((mergeOntology_clean hb hl hr hc hm).mp h).2, hc]
    · rw [mergeOntology_conflicted hb hl hr hc] at h
      cases h
      rfl
  · intro e h c hcon
    have hc : allConflicts base left right ≠ [] :=
      List.ne_nil_of_mem ((mem_allConflicts hb hl hr).mpr hcon)
    rw [mergeOntology_conflicted hb hl hr hc] at h
    cases h

/-- One side adds a resource, the other changes the version. -/
theorem mergeOntology_threeWay_additions :
    ThreeWayMerge (document "1" [resourceValue "person" "object_type" [] []])
      (document "1" [resourceValue "person" "object_type" [] [], resourceValue "address" "object_type" [] []])
      (document "2" [resourceValue "person" "object_type" [] []]) :=
  mergeOntology_threeWay (by decide +kernel) (by decide +kernel) (by decide +kernel)

end Galadril.Registry.Ontology
