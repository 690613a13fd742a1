import Galadril.Registry.OntologyDiff

namespace Galadril.Registry.Ontology

open Json Lib.Checked

def diffPart (base target : Value) (name : String) : List SemanticChange :=
  diffResource name (part base name) (part target name)

def allChanges (base target : Value) : List SemanticChange :=
  (allIds [base, target] ++ ["$ontology"]).flatMap (diffPart base target)

/-- What a semantic difference is for: it is empty exactly between equal
models, it leads from the first model to the second, and it can be read
backwards. -/
def Invertible (base target : Value) : Prop :=
  ∃ changes, semanticDiff base target = .ok changes ∧
    (changes = [] ↔ ∀ name, Same (part base name) (part target name)) ∧
    (∀ name, Same (applyChanges (part base) changes name) (part target name)) ∧
    ∃ backwards, semanticDiff target base = .ok backwards ∧
      backwards.map SemanticChange.location = changes.map SemanticChange.reversed

variable {base target : Value} {vb vt : List Value} {rb rt : List Resource}

theorem two_accepts (hb : Parsed base vb rb) (ht : Parsed target vt rt) :
    ∀ o ∈ [base, target], Accepts (validateOntology o) := by
  simp [hb.accepts, ht.accepts]

theorem semanticDiff_eq (hb : Parsed base vb rb) (ht : Parsed target vt rt) :
    semanticDiff base target = .ok (allChanges base target) := by
  obtain ⟨mb, hmb, hgb⟩ := hb.resourceValues_eq
  obtain ⟨mt, hmt, hgt⟩ := ht.resourceValues_eq
  obtain ⟨b, hrb⟩ : ∃ b, rootMetadata base = .ok b := hb.part_root.elim fun _ h => ⟨_, h.2⟩
  obtain ⟨t, hrt⟩ : ∃ t, rootMetadata target = .ok t := ht.part_root.elim fun _ h => ⟨_, h.2⟩
  have hids : (Std.ExtTreeSet.ofList (mb.keys ++ mt.keys)).toList = allIds [base, target] := by
    refine congrArg Std.ExtTreeSet.toList (Std.ExtTreeSet.ext_mem fun x => ?_)
    simp only [Std.ExtTreeSet.mem_ofList, List.contains_iff_mem, List.flatMap_cons, List.flatMap_nil,
      List.append_nil, List.filterMap_append, List.mem_append, hb.mem_keys hgb, ht.mem_keys hgt]
  have hparts : (allIds [base, target]).flatMap (fun id => diffResource id mb[id]? mt[id]?) =
      (allIds [base, target]).flatMap (diffPart base target) := by
    refine List.flatMap_congr fun id hid => ?_
    have hne := ((mem_allIds (two_accepts hb ht)).mp hid).1
    rw [hgb, hgt, diffPart, hb.part_resource hne, ht.part_resource hne]
  have hroot : diffPart base target "$ontology" = diffValue "$ontology" [] b t := by
    rw [diffPart, part_of_rootMetadata hrb, part_of_rootMetadata hrt, diffResource]
  simp only [semanticDiff, hmb, hmt, hrb, hrt, ok_bind, hids, hparts, allChanges, List.flatMap_append,
    List.flatMap_cons, List.flatMap_nil, List.append_nil, hroot]
  rfl

theorem diffResource_same {name : String} {before after : Option Value} (h : Same before after) :
    diffResource name before after = [] := by
  cases before with
  | none => rw [same_none_left.mp h]; rfl
  | some before =>
      cases after with
      | none => simp at h
      | some after => exact diffValue_equiv (same_some.mp h)

theorem diffResource_reversed (name : String) (before after : Option Value) :
    (diffResource name after before).map SemanticChange.location =
      (diffResource name before after).map SemanticChange.reversed := by
  cases before with
  | none => cases after <;> rfl
  | some before =>
      cases after with
      | none => rfl
      | some after => exact diffValue_reversed before after

theorem applyChange_field {parts : String → Option Value} {name : String} {path : List String} {c : SemanticChange}
    (h : FieldChange name path c) :
    applyChange parts c = Function.update parts name (update (parts name) c.path c.after) := by
  obtain ⟨rfl, -, hw | ⟨hw, hn⟩⟩ := h
  · simp [applyChange, hw]
  · simp [applyChange, hw, hn]

theorem applyChanges_fields {name : String} {changes : List SemanticChange}
    (h : ∀ c ∈ changes, FieldChange name [] c) (parts : String → Option Value) :
    applyChanges parts changes = Function.update parts name (patch (parts name) (relative [] changes)) := by
  induction changes generalizing parts with
  | nil => simp [applyChanges, relative]
  | cons c changes ih =>
      obtain ⟨hc, hrest⟩ := List.forall_mem_cons.mp h
      have := ih hrest (applyChange parts c)
      rw [applyChange_field hc] at this
      rw [applyChanges, List.foldl_cons, applyChange_field hc]
      refine this.trans ?_
      simp [relative]

def patchPart (name : String) (before after : Option Value) : Option Value :=
  match before, after with
  | some b, some a => patch (some b) (relative [] (diffValue name [] b a))
  | _, after => after

theorem applyChanges_diffResource (parts : String → Option Value) (name : String) (after : Option Value) :
    applyChanges parts (diffResource name (parts name) after) =
      Function.update parts name (patchPart name (parts name) after) := by
  cases hb : parts name with
  | none =>
      cases after with
      | none => simp [diffResource, applyChanges, patchPart, ← hb]
      | some a => rfl
  | some b =>
      cases after with
      | none => rfl
      | some a => rw [diffResource, applyChanges_fields (fun c hc => fieldChange_diffValue hc) parts, hb, patchPart]

theorem applyChanges_append (parts : String → Option Value) (xs ys : List SemanticChange) :
    applyChanges parts (xs ++ ys) = applyChanges (applyChanges parts xs) ys := List.foldl_append

theorem applyChanges_parts {names : List String} (hnd : names.Nodup) {parts : String → Option Value}
    (hparts : ∀ name ∈ names, parts name = part base name) (name : String) :
    applyChanges parts (names.flatMap (diffPart base target)) name =
      if name ∈ names then patchPart name (part base name) (part target name) else parts name := by
  induction names generalizing parts with
  | nil => simp [applyChanges]
  | cons x names ih =>
      obtain ⟨hx, hnd⟩ := List.nodup_cons.mp hnd
      obtain ⟨hpx, hrest⟩ := List.forall_mem_cons.mp hparts
      have hnew := applyChanges_diffResource parts x (part target x)
      rw [hpx, ← diffPart] at hnew
      have hkeep : ∀ y ∈ names, applyChanges parts (diffPart base target x) y = part base y := by
        intro y hy
        have hyx : y ≠ x := ne_of_mem_of_not_mem hy hx
        rw [hnew, Function.update_of_ne hyx, hrest y hy]
      rw [List.flatMap_cons, applyChanges_append, ih hnd hkeep, hnew]
      by_cases he : name = x
      · subst he
        simp [hx]
      · simp [he]

theorem patchPart_same {name : String} {before after : Option Value}
    (h : ∀ b a, before = some b → after = some a → Same (b.get "resource_id") (a.get "resource_id")) :
    Same (patchPart name before after) after := by
  cases before with
  | none => cases after <;> exact .refl _
  | some b =>
      cases after with
      | none => exact .refl _
      | some a => exact patch_diffValue (fun _ => h b a rfl rfl) (.refl _)

theorem applyChanges_allChanges (hb : Parsed base vb rb) (ht : Parsed target vt rt) (name : String) :
    Same (applyChanges (part base) (allChanges base target) name)
      (patchPart name (part base name) (part target name)) := by
  have hnd : (allIds [base, target] ++ ["$ontology"]).Nodup := by
    refine List.nodup_append.mpr ⟨(sorted_allIds _).imp fun h => h.ne, by simp, fun x hx y hy => ?_⟩
    rw [List.mem_singleton.mp hy]
    exact ((mem_allIds (two_accepts hb ht)).mp hx).1
  rw [allChanges, applyChanges_parts hnd fun _ _ => rfl]
  split
  next => exact .refl _
  next hn =>
    simp only [List.mem_append, List.mem_singleton, not_or] at hn
    have hids := hn.1
    rw [mem_allIds (two_accepts hb ht)] at hids
    simp only [ne_eq, hn.2, not_false_eq_true, true_and, List.mem_cons, List.not_mem_nil, or_false,
      exists_eq_or_imp, exists_eq_left, not_or, Bool.not_eq_true, Option.isSome_eq_false_iff,
      Option.isNone_iff_eq_none] at hids
    rw [hids.1, hids.2]
    exact .refl _

/-- The root metadata keeps every member but the resources. -/
theorem Parsed.root_get {o : Value} {vs : List Value} {rs : List Resource} (h : Parsed o vs rs) {m : Value}
    (hm : part o "$ontology" = some m) : m.get "resource_id" = o.get "resource_id" := by
  obtain ⟨members, rfl, hp⟩ := h.part_root_eq
  obtain rfl := Option.some.inj (hp.symm.trans hm)
  exact (Members.field_filter_ne members "resources" "resource_id").trans (if_neg (by decide))

/-- A semantic difference serves its purpose exactly when the two documents
carry the same root member resource_id, which the comparison skips. -/
theorem invertible_iff (hb : Accepts (validateOntology base)) (ht : Accepts (validateOntology target)) :
    Invertible base target ↔ Same (base.get "resource_id") (target.get "resource_id") := by
  obtain ⟨vb, rb, hb⟩ := exists_parsed hb
  obtain ⟨vt, rt, ht⟩ := exists_parsed ht
  obtain ⟨b, hbo, hpb⟩ := hb.part_root_eq
  obtain ⟨t, hto, hpt⟩ := ht.part_root_eq
  constructor
  · rintro ⟨changes, hd, -, happly, -⟩
    rw [semanticDiff_eq hb ht] at hd
    cases hd
    have hroot := (applyChanges_allChanges hb ht "$ontology").symm.trans (happly "$ontology")
    rw [hpb, hpt] at hroot
    obtain ⟨n, hn, hid⟩ := patch_diffValue_resource_id "$ontology"
      (b.filter fun p => p.1 ≠ "resources") (t.filter fun p => p.1 ≠ "resources")
    rw [patchPart, hn, same_some, Value.object_equiv] at hroot
    have := hroot "resource_id"
    rw [hid] at this
    rw [← hb.root_get hpb, ← ht.root_get hpt]
    exact this
  · intro hid
    have happly : ∀ name, Same (applyChanges (part base) (allChanges base target) name) (part target name) := by
      intro name
      refine (applyChanges_allChanges hb ht name).trans (patchPart_same fun x y hx hy => ?_)
      by_cases hn : name = "$ontology"
      · subst hn
        rwa [hb.root_get hx, ht.root_get hy]
      · rw [hb.part_id hn x hx, ht.part_id hn y hy]
        exact .refl _
    refine ⟨_, semanticDiff_eq hb ht, ⟨fun hnil name => ?_, fun hsame => ?_⟩, happly, _, semanticDiff_eq ht hb, ?_⟩
    · have := happly name
      rwa [hnil] at this
    · exact List.flatMap_eq_nil_iff.mpr fun name _ => diffResource_same (hsame name)
    · have hids : allIds [target, base] = allIds [base, target] := allIds_congr (by simp [or_comm])
      rw [allChanges, allChanges, hids, List.map_flatMap, List.map_flatMap]
      exact List.flatMap_congr fun name _ => diffResource_reversed name _ _

/-- An empty model whose root carries a resource identity. -/
def labelled (label : String) : Value :=
  .object [("version", .string "1"), ("resources", .array []), ("resource_id", .string label)]

/-- Two different root members go unnoticed. -/
theorem labelled_not_invertible :
    Accepts (validateOntology (labelled "a")) ∧ Accepts (validateOntology (labelled "b")) ∧
      semanticDiff (labelled "a") (labelled "b") = .ok [] ∧ ¬ Invertible (labelled "a") (labelled "b") := by
  have hd : semanticDiff (labelled "a") (labelled "b") = .ok [] := by decide +kernel
  refine ⟨by decide +kernel, by decide +kernel, hd, ?_⟩
  rintro ⟨changes, hc, hempty, -⟩
  cases hd.symm.trans hc
  exact absurd (hempty.mp rfl "$ontology") (by decide +kernel)

theorem invertible_addressBook : Invertible addressBook (document "2" []) :=
  (invertible_iff (by decide +kernel) (by decide +kernel)).mpr (by decide +kernel)

end Galadril.Registry.Ontology
