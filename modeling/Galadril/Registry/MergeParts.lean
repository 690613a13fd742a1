import Galadril.Registry.OntologyMerge

namespace Galadril.Registry.Ontology

open Json Lib.Checked

def part (o : Value) (name : String) : Option Value :=
  if name = "$ontology" then (rootMetadata o).toOption else valueById (resourcesOf o) name

/-- The value at an object path inside a resource or the root metadata. -/
def locate (o : Value) (name : String) (path : List String) : Option Value := descend (part o name) path

variable {o : Value} {vs : List Value} {rs : List Resource}

theorem Parsed.resourceValues_eq (h : Parsed o vs rs) :
    ∃ m, resourceValues o = .ok m ∧ ∀ x : String, m[x]? = valueById vs x := by
  obtain ⟨_, hvalid⟩ := h.accepts
  let entry : Value → String × Value := fun v => ((resourceId v).getD "", v)
  have hentries : (vs.mapM fun v => do
      let id ← requiredString v "resource_id" "ontology resource"
      return (id, v)) = .ok (vs.map entry) := by
    rw [mapM_eq_ok, List.forall₂_map_right_iff, List.forall₂_same]
    intro v hv
    obtain ⟨r, -, hr⟩ := h.mem_value hv
    simp [entry, hr.required, hr.id]
  have hids : (vs.map entry).map Prod.fst = rs.map (·.id) := by
    have := congrArg (List.map fun x => Option.getD x "") h.ids_eq
    simpa [entry, Function.comp_def] using this
  have hmem : ∀ y v, (y, v) ∈ vs.map entry ↔ valueById vs y = some v := by
    intro y v
    rw [h.valueById_eq_some, List.mem_map]
    constructor
    · rintro ⟨w, hw, he⟩
      obtain ⟨r, -, hr⟩ := h.mem_value hw
      simp only [entry, hr.id, Option.getD_some, Prod.mk.injEq] at he
      obtain ⟨rfl, rfl⟩ := he
      exact ⟨hw, hr.id⟩
    · rintro ⟨hv, hid⟩
      exact ⟨v, hv, by simp [entry, hid]⟩
  refine ⟨Std.ExtTreeMap.ofList (vs.map entry), ?_, fun x => ?_⟩
  · simp only [resourceValues, bind_eq_ok, context_eq_ok, pure_eq_ok]
    exact ⟨_, hvalid, vs, h.values, _, hentries, rfl⟩
  cases hv : valueById vs x with
  | some v =>
      refine Std.ExtTreeMap.getElem?_ofList_of_mem (compare_eq_iff_eq.mpr rfl) ?_ ((hmem x v).mpr hv)
      have hnd : ((vs.map entry).map Prod.fst).Nodup := hids ▸ h.distinct
      exact (List.pairwise_map.mp hnd).imp fun hne he => hne (compare_eq_iff_eq.mp he)
  | none =>
      refine Std.ExtTreeMap.getElem?_ofList_of_contains_eq_false ?_
      rw [← Bool.not_eq_true, List.contains_iff_mem]
      intro hm
      obtain ⟨⟨y, v⟩, he, rfl⟩ := List.mem_map.mp hm
      rw [(hmem y v).mp he] at hv
      cases hv

theorem Parsed.part_root (h : Parsed o vs rs) : ∃ members, o = .object members ∧
    rootMetadata o = .ok (.object (members.filter fun p => p.1 ≠ "resources")) := by
  obtain ⟨text, ht, -⟩ := h.version
  cases o with
  | object members => exact ⟨members, rfl, rfl⟩
  | _ => simp [Value.getStr, Value.get] at ht

theorem Parsed.part_resource (h : Parsed o vs rs) {x : String} (hx : x ≠ "$ontology") : part o x = valueById vs x := by
  rw [part, if_neg hx, h.resourcesOf_eq]

theorem Parsed.part_id (h : Parsed o vs rs) {x : String}
    (hx : x ≠ "$ontology") (v : Value) (hv : part o x = some v) : v.get "resource_id" = some (.string x) := by
  rw [h.part_resource hx, h.valueById_eq_some] at hv
  exact Value.getStr_eq_some.mp hv.2

/-- The name of the root metadata is no resource identity. -/
theorem Parsed.valueById_root (h : Parsed o vs rs) : valueById vs "$ontology" = none := by
  rw [Option.eq_none_iff_forall_not_mem]
  intro v hv
  obtain ⟨hm, hid⟩ := h.valueById_eq_some.mp hv
  obtain ⟨r, -, hr⟩ := h.mem_value hm
  have hvalid := hr.valid
  rw [Option.some.inj (hr.id.symm.trans hid)] at hvalid
  exact absurd hvalid (by decide)

def allIds (os : List Value) : List String :=
  (Std.ExtTreeSet.ofList ((os.flatMap resourcesOf).filterMap resourceId)).toList

theorem sorted_allIds (os : List Value) : (allIds os).Pairwise (· < ·) :=
  Std.ExtTreeSet.ordered_toList.imp compare_lt_iff_lt.mp

theorem allIds_congr {os ps : List Value} (h : ∀ o, o ∈ os ↔ o ∈ ps) : allIds os = allIds ps := by
  refine congrArg Std.ExtTreeSet.toList (Std.ExtTreeSet.ext_mem fun x => ?_)
  simp [Std.ExtTreeSet.mem_ofList, h]

theorem Parsed.mem_ids (h : Parsed o vs rs) {x : String} :
    (∃ v ∈ vs, resourceId v = some x) ↔ x ≠ "$ontology" ∧ (part o x).isSome = true := by
  by_cases hx : x = "$ontology"
  · subst hx
    simp only [ne_eq, not_true_eq_false, false_and, iff_false]
    rintro ⟨v, hv⟩
    rw [← h.valueById_eq_some, h.valueById_root] at hv
    cases hv
  · simp [h.part_resource hx, Option.isSome_iff_exists, h.valueById_eq_some, hx]

theorem mem_allIds {os : List Value} (h : ∀ o ∈ os, Accepts (validateOntology o)) {x : String} :
    x ∈ allIds os ↔ x ≠ "$ontology" ∧ ∃ o ∈ os, (part o x).isSome = true := by
  have hsome : ∀ o ∈ os, (∃ v ∈ resourcesOf o, resourceId v = some x) ↔
      x ≠ "$ontology" ∧ (part o x).isSome = true := by
    intro o ho
    obtain ⟨vs, rs, hp⟩ := exists_parsed (h o ho)
    rw [hp.resourcesOf_eq]
    exact hp.mem_ids
  simp only [allIds, Std.ExtTreeSet.mem_toList, Std.ExtTreeSet.mem_ofList, List.contains_iff_mem,
    List.mem_filterMap, List.mem_flatMap]
  constructor
  · rintro ⟨v, ⟨o, ho, hv⟩, hx⟩
    obtain ⟨hne, hs⟩ := (hsome o ho).mp ⟨v, hv, hx⟩
    exact ⟨hne, o, ho, hs⟩
  · rintro ⟨hne, o, ho, hs⟩
    obtain ⟨v, hv, hx⟩ := (hsome o ho).mpr ⟨hne, hs⟩
    exact ⟨v, ⟨o, ho, hv⟩, hx⟩

theorem Parsed.mem_keys (h : Parsed o vs rs) {m : Std.ExtTreeMap String Value}
    (hm : ∀ x : String, m[x]? = valueById vs x) (x : String) :
    x ∈ m.keys ↔ x ∈ (resourcesOf o).filterMap resourceId := by
  rw [Std.ExtTreeMap.mem_keys, ← Std.ExtTreeMap.isSome_getElem?_iff_mem, hm, Option.isSome_iff_exists]
  simp [h.valueById_eq_some, h.resourcesOf_eq]

theorem part_of_rootMetadata {m : Value} (hm : rootMetadata o = .ok m) : part o "$ontology" = some m := by
  rw [part, if_pos rfl, hm]
  rfl

section Merge

variable (base left right : Value)

def mergePart (name : String) : Option Value × List MergeConflict :=
  mergeValue name [] (part base name) (part left name) (part right name)

def allConflicts : List MergeConflict :=
  (allIds [base, left, right]).flatMap (fun id => (mergePart base left right id).2) ++
    (mergePart base left right "$ontology").2

def mergedDocument (members : Members) : Value :=
  .object (Members.insert "resources"
    (.array ((allIds [base, left, right]).filterMap fun id => (mergePart base left right id).1)) members)

variable {base left right} {vb vl vr : List Value} {rb rl rr : List Resource}

theorem three_accepts (hb : Parsed base vb rb) (hl : Parsed left vl rl) (hr : Parsed right vr rr) :
    ∀ o ∈ [base, left, right], Accepts (validateOntology o) := by
  simp [hb.accepts, hl.accepts, hr.accepts]

theorem mergePart_of_not_mem (hb : Parsed base vb rb) (hl : Parsed left vl rl) (hr : Parsed right vr rr)
    {name : String} (hn : name ≠ "$ontology") (h : name ∉ allIds [base, left, right]) :
    mergePart base left right name = (none, []) := by
  rw [mem_allIds (three_accepts hb hl hr)] at h
  simp only [ne_eq, hn, not_false_eq_true, true_and, List.mem_cons, List.not_mem_nil, or_false,
    exists_eq_or_imp, exists_eq_left, not_or, Bool.not_eq_true, Option.isSome_eq_false_iff,
    Option.isNone_iff_eq_none] at h
  rw [mergePart, h.2.1, h.2.2, mergeValue_agreed (.refl _)]

theorem mergeValue_isObject (id : String) (path : List String) (b l r : Members) :
    ∃ m, (mergeValue id path (some (.object b)) (some (.object l)) (some (.object r))).1 = some (.object m) := by
  by_cases hlr : Same (some (.object l)) (some (.object r))
  · exact ⟨l, by rw [mergeValue_agreed hlr]⟩
  by_cases hlb : Same (some (.object l)) (some (.object b))
  · exact ⟨r, by rw [mergeValue_left hlr hlb]⟩
  by_cases hrb : Same (some (.object r)) (some (.object b))
  · exact ⟨l, by rw [mergeValue_right hlr hlb hrb]⟩
  · exact ⟨_, by rw [mergeValue_object hlr hlb hrb]⟩

theorem mergeOntology_eq (hb : Parsed base vb rb) (hl : Parsed left vl rl) (hr : Parsed right vr rr) :
    mergeOntology base left right =
      if allConflicts base left right ≠ [] then .ok ⟨none, allConflicts base left right⟩
      else do
        let ontology ← context (mergePart base left right "$ontology").1 "ontology merge metadata missing"
        let members ← context ontology.asObject "ontology merge metadata invalid"
        validateOntology (mergedDocument base left right members)
        return ⟨some (mergedDocument base left right members), []⟩ := by
  obtain ⟨_, hvb⟩ := hb.accepts
  obtain ⟨_, hvl⟩ := hl.accepts
  obtain ⟨_, hvr⟩ := hr.accepts
  obtain ⟨mb, hmb, hgb⟩ := hb.resourceValues_eq
  obtain ⟨ml, hml, hgl⟩ := hl.resourceValues_eq
  obtain ⟨mr, hmr, hgr⟩ := hr.resourceValues_eq
  obtain ⟨b, -, hrb⟩ := hb.part_root
  obtain ⟨l, -, hrl⟩ := hl.part_root
  obtain ⟨r, -, hrr⟩ := hr.part_root
  have hids : (Std.ExtTreeSet.ofList (mb.keys ++ ml.keys ++ mr.keys)).toList = allIds [base, left, right] := by
    refine congrArg Std.ExtTreeSet.toList (Std.ExtTreeSet.ext_mem fun x => ?_)
    simp only [Std.ExtTreeSet.mem_ofList, List.contains_iff_mem, List.flatMap_cons, List.flatMap_nil,
      List.append_nil, List.filterMap_append, List.mem_append, hb.mem_keys hgb, hl.mem_keys hgl, hr.mem_keys hgr,
      or_assoc]
  have hparts : ∀ id ∈ allIds [base, left, right],
      mergeValue id [] mb[id]? ml[id]? mr[id]? = mergePart base left right id := by
    intro id hid
    have hne := ((mem_allIds (three_accepts hb hl hr)).mp hid).1
    rw [hgb, hgl, hgr, mergePart, hb.part_resource hne, hl.part_resource hne, hr.part_resource hne]
  have hconf : (allIds [base, left, right]).flatMap (fun id => (mergeValue id [] mb[id]? ml[id]? mr[id]?).2) =
      (allIds [base, left, right]).flatMap fun id => (mergePart base left right id).2 :=
    List.flatMap_congr fun id hid => by rw [hparts id hid]
  have hres : (allIds [base, left, right]).filterMap (fun id => (mergeValue id [] mb[id]? ml[id]? mr[id]?).1) =
      (allIds [base, left, right]).filterMap fun id => (mergePart base left right id).1 :=
    List.filterMap_congr fun id hid => by rw [hparts id hid]
  simp only [mergeOntology, hvb, hvl, hvr, hmb, hml, hmr, hrb, hrl, hrr, ok_bind, hids, hconf, hres,
    ← part_of_rootMetadata hrb, ← part_of_rootMetadata hrl,
    ← part_of_rootMetadata hrr]
  rw [← mergePart, ← allConflicts]
  by_cases hc : allConflicts base left right = []
  · rw [if_neg (not_not.mpr hc), if_neg (not_not.mpr hc), hc]
    rfl
  · rw [if_pos hc, if_pos hc]
    rfl

theorem Parsed.part_root_eq {o : Value} {vs : List Value} {rs : List Resource} (h : Parsed o vs rs) :
    ∃ members, o = .object members ∧
      part o "$ontology" = some (.object (members.filter fun p => p.1 ≠ "resources")) := by
  obtain ⟨members, ho, hm⟩ := h.part_root
  exact ⟨members, ho, part_of_rootMetadata hm⟩

theorem mergePart_root (hb : Parsed base vb rb) (hl : Parsed left vl rl) (hr : Parsed right vr rr) :
    ∃ members, (mergePart base left right "$ontology").1 = some (.object members) := by
  obtain ⟨b, -, hb⟩ := hb.part_root_eq
  obtain ⟨l, -, hl⟩ := hl.part_root_eq
  obtain ⟨r, -, hr⟩ := hr.part_root_eq
  rw [mergePart, hb, hl, hr]
  exact mergeValue_isObject _ _ _ _ _

theorem mergeOntology_conflicted (hb : Parsed base vb rb) (hl : Parsed left vl rl) (hr : Parsed right vr rr)
    (hc : allConflicts base left right ≠ []) :
    mergeOntology base left right = .ok ⟨none, allConflicts base left right⟩ := by
  rw [mergeOntology_eq hb hl hr, if_pos hc]

theorem mergeOntology_clean (hb : Parsed base vb rb) (hl : Parsed left vl rl) (hr : Parsed right vr rr)
    (hc : allConflicts base left right = []) {members : Members}
    (hm : (mergePart base left right "$ontology").1 = some (.object members)) {result : MergeResult} :
    mergeOntology base left right = .ok result ↔
      Accepts (validateOntology (mergedDocument base left right members)) ∧
        result = ⟨some (mergedDocument base left right members), []⟩ := by
  rw [mergeOntology_eq hb hl hr, if_neg (not_not.mpr hc), hm]
  simp only [context_some, ok_bind, Value.asObject, bind_eq_ok, pure_eq_ok, Accepts, exists_and_right]
  exact and_congr_right fun _ => eq_comm

theorem conflicts_eq_nil (hb : Parsed base vb rb) (hl : Parsed left vl rl) (hr : Parsed right vr rr) :
    allConflicts base left right = [] ↔ ∀ name, (mergePart base left right name).2 = [] := by
  rw [allConflicts, List.append_eq_nil_iff, List.flatMap_eq_nil_iff]
  constructor
  · rintro ⟨hres, hroot⟩ name
    by_cases hn : name = "$ontology"
    · exact hn ▸ hroot
    by_cases hid : name ∈ allIds [base, left, right]
    · exact hres name hid
    · rw [mergePart_of_not_mem hb hl hr hn hid]
  · intro h
    exact ⟨fun name _ => h name, h _⟩

end Merge

/-- Texts are never made up by a clean merge. -/
theorem mergeValue_string {id : String} {path : List String} {base left right : Option Value} {p : List String}
    {text : String} (h : (mergeValue id path base left right).2 = [])
    (hs : descend (mergeValue id path base left right).1 p = some (.string text)) :
    descend left p = some (.string text) ∨ descend right p = some (.string text) := by
  induction path, base, left, right using merge_induction generalizing p with
  | agreed path base left right hlr =>
      rw [mergeValue_agreed hlr] at hs
      exact .inl hs
  | unchanged_left path base left right hlr hlb =>
      rw [mergeValue_left hlr hlb] at hs
      exact .inr hs
  | unchanged_right path base left right hlr hlb hrb =>
      rw [mergeValue_right hlr hlb hrb] at hs
      exact .inl hs
  | object path b l r hlr hlb hrb ih =>
      rw [mergeValue_object hlr hlb hrb] at h hs
      cases p with
      | nil => cases hs
      | cons key p =>
          simp only [descend_object, Members.field_collect] at hs ⊢
          split at hs
          · next hk => exact ih key (List.flatMap_eq_nil_iff.mp h key hk) hs
          · simp at hs
  | diverged path base left right hd => simp [mergeValue_diverged hd] at h

variable {base left right merged : Value} {result : MergeResult} {key : String}

theorem Parsed.descend_root {o : Value} {vs : List Value} {rs : List Resource} (h : Parsed o vs rs)
    (hk : key ≠ "resources") (p : List String) : descend (part o "$ontology") (key :: p) = descend (o.get key) p := by
  obtain ⟨members, rfl, hpart⟩ := h.part_root_eq
  rw [hpart, descend_object, Members.field_filter_ne, if_neg hk.symm]
  rfl

theorem mergeOntology_root (h : mergeOntology base left right = .ok result) (hm : result.ontology = some merged)
    (hk : key ≠ "resources") :
    (mergePart base left right "$ontology").2 = [] ∧
      (∀ p, descend (part base "$ontology") (key :: p) = descend (base.get key) p) ∧
      (∀ p, descend (part left "$ontology") (key :: p) = descend (left.get key) p) ∧
      (∀ p, descend (part right "$ontology") (key :: p) = descend (right.get key) p) ∧
      ∀ p, descend (mergePart base left right "$ontology").1 (key :: p) = descend (merged.get key) p := by
  have haccepts : Accepts (validateOntology base) ∧ Accepts (validateOntology left) ∧ Accepts (validateOntology right) := by
    simp only [mergeOntology, bind_eq_ok] at h
    obtain ⟨_, hb, _, hl, _, hr, -⟩ := h
    exact ⟨⟨_, hb⟩, ⟨_, hl⟩, ⟨_, hr⟩⟩
  obtain ⟨vb, rb, hb⟩ := exists_parsed haccepts.1
  obtain ⟨vl, rl, hl⟩ := exists_parsed haccepts.2.1
  obtain ⟨vr, rr, hr⟩ := exists_parsed haccepts.2.2
  obtain ⟨members, hroot⟩ := mergePart_root hb hl hr
  by_cases hc : allConflicts base left right = []
  · obtain ⟨-, rfl⟩ := (mergeOntology_clean hb hl hr hc hroot).mp h
    obtain rfl := Option.some.inj hm
    refine ⟨(conflicts_eq_nil hb hl hr).mp hc _, hb.descend_root hk, hl.descend_root hk, hr.descend_root hk, fun p => ?_⟩
    rw [hroot, descend_object, mergedDocument, Value.get, Members.field_insert, if_neg hk.symm]
  · rw [mergeOntology_conflicted hb hl hr hc] at h
    obtain rfl := Except.ok.inj h
    cases hm

theorem mergedAt_root (h : mergeOntology base left right = .ok result) (hm : result.ontology = some merged)
    (hk : key ≠ "resources") (p : List String) : MergedAt (descend (base.get key) p) (descend (left.get key) p)
      (descend (right.get key) p) (descend (merged.get key) p) := by
  obtain ⟨hclean, hb, hl, hr, hmerged⟩ := mergeOntology_root h hm hk
  have hlaw := mergeValue_mergedAt hclean (key :: p)
  rw [hb, hl, hr] at hlaw
  rw [← mergePart, hmerged] at hlaw
  exact hlaw

/-- A text below a member of the root comes from one of the two sides. -/
theorem merged_string (h : mergeOntology base left right = .ok result) (hm : result.ontology = some merged)
    (hk : key ≠ "resources") {p : List String} {text : String} (hs : descend (merged.get key) p = some (.string text)) :
    descend (left.get key) p = some (.string text) ∨ descend (right.get key) p = some (.string text) := by
  obtain ⟨hclean, -, hl, hr, hmerged⟩ := mergeOntology_root h hm hk
  rw [← hmerged, mergePart] at hs
  rw [← hl, ← hr]
  exact mergeValue_string hclean hs

end Galadril.Registry.Ontology
