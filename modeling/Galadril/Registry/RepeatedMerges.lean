import Galadril.Registry.Branches
import Galadril.Registry.MergeCorrect
import Galadril.Registry.MergedDefinitions
import Galadril.Registry.OntologyCommands

namespace Galadril.Registry.Ontology

open Json Lib.Checked

def Objects (values : List (Option Value)) : Prop := ∀ v ∈ values, v.any Value.isObject = true

/-- What a location holds after the edits of a copy were carried over: where the
copy was not edited it stays, elsewhere it has the edited value, or all are
objects and the question passes to their members. -/
structure Transplanted (old target new result : Option Value) : Prop where
  kept : Same new old → Same result target
  taken : ¬ Same new old → Same result new ∨ Objects [old, target, new, result]

variable {id : String} {path : List String} {base left right result other : Option Value}

theorem isObject_congr (h : Same other result) : other.any Value.isObject = result.any Value.isObject := by
  have hcanon : ∀ v : Value, v.canon.isObject = v.isObject := by
    intro v
    cases v <;> simp [Value.canon, Value.isObject, Value.asObject]
  cases result with
  | none => rw [same_none_right.mp h]
  | some v =>
      cases other with
      | none => simp at h
      | some w =>
          rw [Option.any_some, Option.any_some, ← hcanon w, Value.equiv_iff.mp (same_some.mp h), hcanon v]

theorem Transplanted.congr (h : Transplanted base left right result) (hs : Same other result) :
    Transplanted base left right other := by
  refine ⟨fun hr => hs.trans (h.kept hr), fun hr => ?_⟩
  rcases h.taken hr with htaken | hobjects
  · exact .inl (hs.trans htaken)
  · refine .inr fun v hv => ?_
    simp only [List.mem_cons, List.not_mem_nil, or_false] at hv
    rcases hv with rfl | rfl | rfl | rfl
    · exact hobjects _ (by simp)
    · exact hobjects _ (by simp)
    · exact hobjects _ (by simp)
    · rw [isObject_congr hs]
      exact hobjects _ (by simp)

/-- A merge without conflicts carries the edits of the right side over. -/
theorem mergeValue_transplanted (h : (mergeValue id path base left right).2 = []) (p : List String) :
    Transplanted (descend base p) (descend left p) (descend right p)
      (descend (mergeValue id path base left right).1 p) := by
  induction path, base, left, right using merge_induction generalizing p with
  | agreed path base left right hlr =>
      rw [mergeValue_agreed hlr]
      exact ⟨fun _ => .refl _, fun _ => .inl (hlr.descend p)⟩
  | unchanged_left path base left right hlr hlb =>
      rw [mergeValue_left hlr hlb]
      exact ⟨fun hr => hr.trans (hlb.descend p).symm, fun _ => .inl (.refl _)⟩
  | unchanged_right path base left right hlr hlb hrb =>
      rw [mergeValue_right hlr hlb hrb]
      exact ⟨fun _ => .refl _, fun hr => absurd (hrb.descend p) hr⟩
  | object path b l r hlr hlb hrb ih =>
      rw [mergeValue_object hlr hlb hrb] at h ⊢
      cases p with
      | nil =>
          refine ⟨fun hr => absurd hr hrb, fun _ => .inr fun v hv => ?_⟩
          simp only [descend_nil, List.mem_cons, List.not_mem_nil, or_false] at hv
          rcases hv with rfl | rfl | rfl | rfl <;> rfl
      | cons key p =>
          simp only [descend_object, Members.field_collect]
          split
          next hk => exact ih key (List.flatMap_eq_nil_iff.mp h key hk) p
          next hk =>
            simp only [Members.mem_unionKeys, List.mem_cons, List.not_mem_nil, or_false, exists_eq_or_imp,
              exists_eq_left, not_or, Bool.not_eq_true, Option.isSome_eq_false_iff,
              Option.isNone_iff_eq_none] at hk
            simp only [hk, descend_none]
            exact ⟨fun _ => .refl _, fun hr => absurd (.refl _) hr⟩
  | diverged path base left right hd => simp [mergeValue_diverged hd] at h

variable {old target new merged : Value}

/-- The merged document carries the edits over, valid or not. -/
theorem mergedDocument_transplanted {vb vl vr : List Value} {rb rl rr : List Resource} {members : Members}
    (hb : Parsed old vb rb) (hl : Parsed target vl rl) (hr : Parsed new vr rr) (hc : allConflicts old target new = [])
    (hm : (mergePart old target new "$ontology").1 = some (.object members)) (name : String) (p : List String) :
    Transplanted (locate old name p) (locate target name p) (locate new name p)
      (locate (mergedDocument old target new members) name p) := by
  have hparts := (conflicts_eq_nil hb hl hr).mp hc
  exact (mergeValue_transplanted (hparts name) p).congr ((part_mergedDocument hb hl hr hparts hm name).descend p)

theorem mergeOntology_accepts (h : mergeOntology old target new = .ok ⟨some merged, []⟩) :
    Accepts (validateOntology old) ∧ Accepts (validateOntology target) ∧ Accepts (validateOntology new) := by
  simp only [mergeOntology, bind_eq_ok] at h
  obtain ⟨_, hb, _, hl, _, hr, -⟩ := h
  exact ⟨⟨_, hb⟩, ⟨_, hl⟩, ⟨_, hr⟩⟩

theorem mergeOntology_document (h : mergeOntology old target new = .ok ⟨some merged, []⟩) :
    ∃ vb rb vl rl vr rr members, Parsed old vb rb ∧ Parsed target vl rl ∧ Parsed new vr rr ∧
      allConflicts old target new = [] ∧ (mergePart old target new "$ontology").1 = some (.object members) ∧
      Accepts (validateOntology merged) ∧ merged = mergedDocument old target new members := by
  obtain ⟨hb, hl, hr⟩ := mergeOntology_accepts h
  obtain ⟨vb, rb, hb⟩ := exists_parsed hb
  obtain ⟨vl, rl, hl⟩ := exists_parsed hl
  obtain ⟨vr, rr, hr⟩ := exists_parsed hr
  by_cases hc : allConflicts old target new = []
  · obtain ⟨members, hm⟩ := mergePart_root hb hl hr
    obtain ⟨hvalid, he⟩ := (mergeOntology_clean hb hl hr hc hm).mp h
    obtain rfl : merged = mergedDocument old target new members := by simpa using he
    exact ⟨vb, rb, vl, rl, vr, rr, members, hb, hl, hr, hc, hm, hvalid, rfl⟩
  · rw [mergeOntology_conflicted hb hl hr hc] at h
    cases h

theorem mergeOntology_transplants (h : mergeOntology old target new = .ok ⟨some merged, []⟩) (name : String)
    (p : List String) :
    Transplanted (locate old name p) (locate target name p) (locate new name p) (locate merged name p) := by
  obtain ⟨vb, rb, vl, rl, vr, rr, members, hb, hl, hr, hc, hm, -, rfl⟩ := mergeOntology_document h
  exact mergedDocument_transplanted hb hl hr hc hm name p

/-- Carrying edits over fails only for a conflict or because the result would be
no valid model. -/
theorem mergeOntology_refused (hb : Accepts (validateOntology old)) (hl : Accepts (validateOntology target))
    (hr : Accepts (validateOntology new)) (h : ∀ merged, mergeOntology old target new ≠ .ok ⟨some merged, []⟩) :
    (∃ c, ConflictAt old target new c) ∨ ∃ merged : Value,
      (∀ name p, Transplanted (locate old name p) (locate target name p) (locate new name p) (locate merged name p)) ∧
      ¬ Accepts (validateOntology merged) := by
  obtain ⟨vb, rb, hb⟩ := exists_parsed hb
  obtain ⟨vl, rl, hl⟩ := exists_parsed hl
  obtain ⟨vr, rr, hr⟩ := exists_parsed hr
  by_cases hc : allConflicts old target new = []
  · obtain ⟨members, hm⟩ := mergePart_root hb hl hr
    refine .inr ⟨mergedDocument old target new members, mergedDocument_transplanted hb hl hr hc hm, fun hvalid => ?_⟩
    exact h _ ((mergeOntology_clean hb hl hr hc hm).mpr ⟨hvalid, rfl⟩)
  · obtain ⟨c, hmem⟩ := List.exists_mem_of_ne_nil _ hc
    exact .inl ⟨c, (mem_allConflicts hb hl hr).mp hmem⟩

/-- A document whose resources are listed in the order of their identities. -/
def IdOrdered (o : Value) : Prop :=
  (resourcesOf o).Pairwise fun v w => ∃ x y, resourceId v = some x ∧ resourceId w = some y ∧ x < y

/-- A merge lists its resources in order. -/
theorem mergeOntology_ordered {base left right merged : Value}
    (h : mergeOntology base left right = .ok ⟨some merged, []⟩) : Accepts (validateOntology merged) ∧ IdOrdered merged := by
  obtain ⟨vb, rb, vl, rl, vr, rr, members, hb, hl, hr, hc, hm, hvalid, rfl⟩ := mergeOntology_document h
  have hparts := (conflicts_eq_nil hb hl hr).mp hc
  refine ⟨hvalid, ?_⟩
  rw [IdOrdered, resourcesOf_mergedDocument, List.pairwise_filterMap]
  refine (sorted_allIds _).imp_of_mem fun {x y} hx hy hlt v hv w hw => ⟨x, y, ?_, ?_, hlt⟩
  · exact merged_id hl hr ((mem_allIds (three_accepts hb hl hr)).mp hx).1 (hparts x) hv
  · exact merged_id hl hr ((mem_allIds (three_accepts hb hl hr)).mp hy).1 (hparts y) hw

theorem ids_of_forall₂ {us ws : List Value} (h : List.Forall₂ (· ≈ ·) us ws) : us.map resourceId = ws.map resourceId := by
  induction h with
  | nil => rfl
  | cons he _ ih =>
      have hid : ∀ {v w : Value}, v ≈ w → resourceId v = resourceId w := by
        intro v w he
        rw [resourceId, resourceId, ← Value.getStr_canon, Value.equiv_iff.mp he, Value.getStr_canon]
      rw [List.map_cons, List.map_cons, ih, hid he]

theorem SortedCopy.equiv {o copy : Value} (h : SortedCopy o copy) (ho : Accepts (validateOntology o))
    (hcopy : Accepts (validateOntology copy)) (hordered : IdOrdered o) : copy ≈ o := by
  obtain ⟨vs, rs, ho⟩ := exists_parsed ho
  obtain ⟨ws, xs, hc⟩ := exists_parsed hcopy
  obtain ⟨us, hperm, hsame⟩ := h.resources
  let before : Option String → Option String → Prop := fun a b => ∃ x y, a = some x ∧ b = some y ∧ x < y
  have hids := ids_of_forall₂ hsame
  have hus : us.Pairwise fun v w => before (resourceId v) (resourceId w) := by
    have hsorted : ((resourcesOf copy).map resourceId).Pairwise before := List.pairwise_map.mpr h.sorted
    rw [← hids] at hsorted
    exact List.pairwise_map.mp hsorted
  have heq : resourcesOf o = us := by
    refine hperm.eq_of_pairwise ?_ hordered hus
    rintro v w - - ⟨x, y, hx, hy, hlt⟩ ⟨x', y', hx', hy', hlt'⟩
    obtain rfl := Option.some.inj (hx.symm.trans hy')
    obtain rfl := Option.some.inj (hy.symm.trans hx')
    exact absurd hlt (lt_asymm hlt')
  obtain ⟨m, rfl, hm⟩ := ho.part_root_eq
  obtain ⟨n, rfl, hn⟩ := hc.part_root_eq
  have hroot := h.root
  rw [hm, hn, same_some, Value.object_equiv] at hroot
  rw [Value.object_equiv]
  intro key
  by_cases hkey : key = "resources"
  · subst hkey
    have hvs : Members.field m "resources" = some (.array vs) := Value.getArray_eq_some.mp ho.values
    have hws : Members.field n "resources" = some (.array ws) := Value.getArray_eq_some.mp hc.values
    rw [hvs, hws, same_some, Value.array_equiv, ← ho.resourcesOf_eq, ← hc.resourcesOf_eq, heq]
    exact .flip (hsame.imp fun _ _ he => Setoid.symm he)
  · have := hroot key
    rwa [Members.field_filter_ne, Members.field_filter_ne, if_neg (Ne.symm hkey), if_neg (Ne.symm hkey)] at this

/-- Merging a branch again changes nothing in a model it was merged into. -/
theorem mergeOntology_again {base target model source : Value}
    (h : mergeOntology base target source = .ok ⟨some model, []⟩) :
    ∃ merged, mergeOntology source model source = .ok ⟨some merged, []⟩ ∧ merged ≈ model := by
  obtain ⟨hmodel, hordered⟩ := mergeOntology_ordered h
  obtain ⟨-, -, hsource⟩ := mergeOntology_accepts h
  obtain ⟨vs, rs, hs⟩ := exists_parsed hsource
  obtain ⟨vm, rm, hm⟩ := exists_parsed hmodel
  obtain ⟨merged, hmerged, hcopy⟩ := merge_unchanged_right hs hm hs (Setoid.refl source)
  exact ⟨merged, hmerged, hcopy.equiv hmodel (mergeOntology_ordered hmerged).1 hordered⟩

end Galadril.Registry.Ontology

namespace Galadril.Registry.Pipeline

open Json Lib.Checked Ontology

theorem index_values {key : String} {nodes : List Value} {indexed indexed' : Members}
    (h : nodes.foldlM (indexNode key) indexed = .ok indexed') : indexed'.map (·.2) = indexed.map (·.2) ++ nodes := by
  induction nodes generalizing indexed with
  | nil =>
      cases h
      simp
  | cons node nodes ih =>
      rw [List.foldlM_cons, bind_eq_ok] at h
      obtain ⟨next, hnext, hrest⟩ := h
      simp only [indexNode, bind_eq_ok, context_eq_ok, ensure_eq_ok, pure_eq_ok, Option.isNone_iff_eq_none] at hnext
      obtain ⟨id, -, _, habsent, rfl⟩ := hnext
      rw [ih hrest, Members.insert_absent habsent]
      simp

/-- Listing the blocks of a keyed definition again restores the definition. -/
theorem listed_normalize {definition document : Value} (h : normalize definition = .ok document) :
    ∃ members sources steps, IdentityKeyed document members sources steps ∧
      definition = .object (listed members sources steps) := by
  have hnormal := h
  simp only [normalize, bind_eq_ok, context_eq_ok, pure_eq_ok, List.foldlM_cons, List.foldlM_nil, indexCollection] at h
  obtain ⟨object, hobject, _, ⟨_, ⟨nodes, hnodes, sources, hsources, rfl⟩, _, ⟨nodes', hnodes', steps, hsteps, rfl⟩, rfl⟩, rfl⟩ := h
  refine ⟨_, sources, steps, ⟨rfl, by simp, by simp, index_selfIndexed (selfIndexed_nil _) hsources,
    index_selfIndexed (selfIndexed_nil _) hsteps⟩, ?_⟩
  obtain rfl : definition = .object object := by
    cases definition <;> simp_all [Value.asObject]
  have hsourceNodes : Members.field object "sources" = some (.array nodes) := by
    obtain ⟨v, hv, hv'⟩ := Option.bind_eq_some_iff.mp hnodes
    cases v <;> simp_all [Value.asArray]
  have hstepNodes : Members.field object "pipeline" = some (.array nodes') := by
    rw [Members.field_insert, if_neg (by decide)] at hnodes'
    obtain ⟨v, hv, hv'⟩ := Option.bind_eq_some_iff.mp hnodes'
    cases v <;> simp_all [Value.asArray]
  have hsourceKey : "sources" ∈ Members.keys object := by
    rw [← Members.field_isSome, hsourceNodes]
    rfl
  have hvalues := index_values hsources
  have hvalues' := index_values hsteps
  rw [List.map_nil, List.nil_append] at hvalues hvalues'
  rw [listed, hvalues, hvalues', Members.insert_comm (show "sources" ≠ "pipeline" by decide)
    (by simp [← Members.field_isSome]), Members.insert_insert, Members.insert_insert, Members.insert_field hsourceNodes,
    Members.insert_field hstepNodes]

/-- A valid draft can be keyed by the identities of its blocks. -/
theorem validateDraft_normalize {definition : Value} (h : Accepts (validateDraft definition)) :
    ∃ document, normalize definition = .ok document := by
  have hindex : ∀ (key : String) (nodes : List Value) (ids ids' : List String) (indexed : Members),
      nodes.foldlM (draftNode key) ids = .ok ids' → (∀ id ∈ Members.keys indexed, id ∈ ids) →
      ∃ indexed', nodes.foldlM (indexNode key) indexed = .ok indexed' := by
    intro key nodes
    induction nodes with
    | nil => exact fun ids ids' indexed _ _ => ⟨indexed, rfl⟩
    | cons node nodes ih =>
        intro ids ids' indexed h hkeys
        rw [List.foldlM_cons, bind_eq_ok] at h
        obtain ⟨next, hnode, hrest⟩ := h
        simp only [draftNode, bind_eq_ok, context_eq_ok, ensure_eq_ok, Bool.and_eq_true, Bool.not_eq_true',
          pure_eq_ok] at hnode
        obtain ⟨id, hid, _, ⟨-, hnew⟩, _, -, rfl⟩ := hnode
        have habsent : Members.field indexed id = none := by
          rw [field_eq_none]
          intro hm
          simp [hkeys id hm] at hnew
        have hindexed : indexNode key indexed node = .ok (indexed ++ [(id, node)]) := by
          simp [indexNode, hid, habsent, Members.insert_absent habsent, ok_bind, pure, Except.pure]
        rw [List.foldlM_cons, hindexed, ok_bind]
        refine ih (id :: ids) ids' _ hrest fun k hk => ?_
        simp only [Members.keys, List.map_append, List.mem_append, List.map_cons, List.map_nil, List.mem_singleton] at hk
        rcases hk with hk | rfl
        · exact List.mem_cons_of_mem _ (hkeys k hk)
        · exact List.mem_cons_self
  obtain ⟨_, h⟩ := h
  simp only [validateDraft, bind_eq_ok, context_eq_ok, ensure_eq_ok] at h
  obtain ⟨object, hobject, _, -, _, -, sources, hsources, steps, hsteps, _, -, _, -, ids, hids, ids', hids', -⟩ := h
  obtain ⟨indexed, hindexed⟩ := hindex "id" sources [] ids [] hids (fun _ h => by cases h)
  obtain ⟨indexed', hindexed'⟩ := hindex "step" steps ids ids' [] hids' (fun _ h => by cases h)
  refine ⟨.object (Members.insert "pipeline" (.object indexed') (Members.insert "sources" (.object indexed) object)), ?_⟩
  simp only [normalize, bind_eq_ok, context_eq_ok, pure_eq_ok, List.foldlM_cons, List.foldlM_nil, indexCollection]
  refine ⟨object, hobject, _, ⟨_, ⟨sources, hsources, indexed, hindexed, rfl⟩, _, ⟨steps, ?_, indexed', hindexed', rfl⟩, rfl⟩,
    rfl⟩
  rw [Members.field_insert, if_neg (by decide)]
  exact hsteps

theorem validateDraft_name {definition : Value} (h : Accepts (validateDraft definition)) :
    ∃ name, definition.getStr "name" = some name := by
  obtain ⟨_, h⟩ := h
  simp only [validateDraft, bind_eq_ok, context_eq_ok, ensure_eq_ok] at h
  obtain ⟨object, hobject, _, -, _, hname, -⟩ := h
  obtain ⟨name, hname⟩ := Option.isSome_iff_exists.mp (Option.isSome_of_any hname)
  refine ⟨name, ?_⟩
  cases definition <;> simp_all [Value.asObject, Value.getStr, Value.get]

/-- Definitions with the same keyed form are the same. -/
theorem normalize_inj {a b document : Value} (ha : normalize a = .ok document) (hb : normalize b = .ok document) :
    a = b := by
  obtain ⟨members, sources, steps, hkeyed, rfl⟩ := listed_normalize ha
  obtain ⟨members', sources', steps', hkeyed', rfl⟩ := listed_normalize hb
  obtain rfl : members = members' := Value.object.inj (hkeyed.object.symm.trans hkeyed'.object)
  obtain rfl : sources = sources' := by simpa using hkeyed.hsources.symm.trans hkeyed'.hsources
  obtain rfl : steps = steps' := by simpa using hkeyed.hsteps.symm.trans hkeyed'.hsteps
  rfl

/-- Where the parent still is what the branch started from, the branch is taken
over; it has to differ in more than the order of its blocks. -/
theorem mergeDefinitions_onto {parent source d e : Value} (hd : normalize parent = .ok d) (he : normalize source = .ok e) :
    ∃ definition, mergeDefinitions parent parent source ∅ = .ok ⟨definition, []⟩ ∧
      (definition = parent ∧ d ≈ e ∨ definition = source ∧ ¬ d ≈ e) := by
  obtain ⟨m, definition, hm, hdefinition, hmerge⟩ := @mergeDefinitions_spec parent parent source d d e ∅ hd hd he
  by_cases hsame : d ≈ e
  · have hkept : Same (some d) (some e) ∨ Same (some e) (some d) := .inl (same_some.mpr hsame)
    have hvalue : mergeDefinitionValue ∅ "" (some d) (some d) (some e) 0 = .ok (some d, []) := by
      rw [mergeDefinitionValue.eq_def, if_neg (by omega), if_pos (same_or_iff.mpr hkept)]
    rw [combine_kept hkept] at hm
    obtain rfl := Option.some.inj hm
    obtain rfl := normalize_inj hd hdefinition
    refine ⟨parent, ?_, .inl ⟨rfl, hsame⟩⟩
    rw [hmerge, hvalue, unresolved_empty, clashes_kept hkept]
    simp [ensure, ok_bind, pure, Except.pure]
  · have hleft : ¬ (Same (some d) (some e) ∨ Same (some e) (some d)) := by
      rw [same_some, same_some]
      rintro (h | h)
      · exact hsame h
      · exact hsame (Setoid.symm h)
    have hvalue : mergeDefinitionValue ∅ "" (some d) (some d) (some e) 0 = .ok (some e, []) := by
      rw [mergeDefinitionValue.eq_def, if_neg (by omega), if_neg (mt same_or_iff.mp hleft),
        if_pos (option_beq_iff.mpr (.refl _))]
    rw [combine_taken hleft (.refl _)] at hm
    obtain rfl := Option.some.inj hm
    obtain rfl := normalize_inj he hdefinition
    refine ⟨source, ?_, .inr ⟨rfl, hsame⟩⟩
    rw [hmerge, hvalue, unresolved_empty, clashes_taken hleft (.refl _)]
    simp [ensure, ok_bind, pure, Except.pure]

end Galadril.Registry.Pipeline

namespace Galadril.Registry

open Json Lib.Checked Lib.Revisions Lib.Programs Lib.Rooted Identity Ontology Pipeline

variable {record : OntologyRecord} {expected author branch name : String} {now : Int} {s : Branchline}
  {source : OntologyBranch} {model : Value} {edited : OntologyEdit}

def NamesAgree (source : OntologyBranch) (name : String) : Prop :=
  (name = source.baseDisplayName ∨ source.displayName = source.baseDisplayName) ∨ name = source.displayName

def mergedName (source : OntologyBranch) (name : String) : String :=
  if name = source.baseDisplayName then source.displayName else name

theorem query_tip (h : Tip record branch model name) : (tip record branch).query backend s = .ok (model, name) := by
  cases h with
  | main => rfl
  | branch hmain hvalue => simp [tip, hmain, hvalue]

theorem Tip.functional {other : Value} {name' : String} (h : Tip record branch model name)
    (h' : Tip record branch other name') : other = model ∧ name' = name := by
  cases h with
  | main =>
      cases h' with
      | main => exact ⟨rfl, rfl⟩
      | branch hmain _ => exact absurd rfl hmain
  | branch hmain hvalue =>
      cases h' with
      | main => exact absurd rfl hmain
      | branch _ hvalue' =>
          obtain rfl := Option.some.inj (hvalue.symm.trans hvalue')
          exact ⟨rfl, rfl⟩

theorem query_mergeBranch (expected author : String) (now : Int) (s : Branchline) (hmain : branch ≠ "main")
    (hsource : record.authoring.branches[branch]? = some source)
    (hparent : source.parentBranch ≠ branch) (htip : Tip record source.parentBranch model name) {merged : Value}
    (hnames : NamesAgree source name)
    (hmerged : mergeOntology source.baseDefinition model source.definition = .ok ⟨some merged, []⟩) :
    ∃ edited, (mergeBranch record expected author now branch).query backend s = .ok edited ∧
      Tip edited.1 source.parentBranch merged (mergedName source name) ∧
      edited.1.authoring.branches[branch]? = some (source.rebased expected) := by
  have hinto : ∃ after, (mergeInto (withBranch record branch (source.rebased expected)) author now source.parentBranch
      merged (mergedName source name)).query backend s = .ok after ∧ Tip after source.parentBranch merged
        (mergedName source name) ∧ after.authoring.branches[branch]? = some (source.rebased expected) := by
    generalize mergedName source name = chosen
    generalize source.parentBranch = parent at hparent htip
    cases htip with
    | main => exact ⟨_, rfl, .main, by simp [branches_withBranch]⟩
    | @branch _ value hne hvalue =>
        have hkept : (withBranch record branch (source.rebased expected)).authoring.branches[parent]? = some value := by
          rw [branches_withBranch, if_neg (Ne.symm hparent), hvalue]
        let target : OntologyBranch := {
          value with
          definition := merged
          displayName := chosen
          author
          updatedAtMs := now }
        have htarget : (withBranch (withBranch record branch (source.rebased expected)) parent
            target).authoring.branches[parent]? = some target := by
          rw [branches_withBranch, if_pos rfl]
        refine ⟨withBranch (withBranch record branch (source.rebased expected)) parent target, ?_, .branch hne htarget, ?_⟩
        · simp [mergeInto, hne, hkept, target]
        · simp [branches_withBranch, hparent]
  obtain ⟨after, hafter, htip', hbranch⟩ := hinto
  refine ⟨(after, source.parentBranch), ?_, htip', hbranch⟩
  rw [mergedName] at hafter
  simp [mergeBranch, hmain, hsource, query_tip htip, hmerged]
  exact ⟨hnames, hafter⟩

theorem mergeBranch_eq_ok (h : (mergeBranch record expected author now branch).query backend s = .ok edited) :
    ∃ source model name merged, branch ≠ "main" ∧ record.authoring.branches[branch]? = some source ∧
      Tip record source.parentBranch model name ∧ NamesAgree source name ∧
      mergeOntology source.baseDefinition model source.definition = .ok ⟨some merged, []⟩ := by
  simp [mergeBranch] at h
  obtain ⟨hmain, source, hsource, model, name, htip, hnames, outcome, houtcome, hclean, merged, hmerged, -⟩ := h
  refine ⟨source, model, name, merged, hmain, hsource, tip_of_query htip, hnames, ?_⟩
  rw [houtcome]
  cases outcome
  simp_all

theorem OntologyShaped.parent_ne (h : OntologyShaped record.authoring)
    (hsource : record.authoring.branches[branch]? = some source) : source.parentBranch ≠ branch := by
  intro hself
  have hloop : parents (fun b : OntologyBranch => some b.parentBranch) record.authoring.branches branch = some branch := by
    simp [parents, hsource, hself]
  have hreaches := h.forest.reaches branch branch hloop
  clear hsource hself
  induction hreaches with
  | root => exact absurd (hloop.symm.trans h.forest.rootless) (by simp)
  | step hk _ ih =>
      obtain rfl := Option.some.inj (hk.symm.trans hloop)
      exact ih hloop

/-- What a successful merge leaves: the branch starts again from its own
content, and its parent has the merged model. -/
structure Settled (branch : String) (edited : OntologyRecord) (source : OntologyBranch) (model : Value) (name : String) :
    Prop where
  named : branch ≠ "main"
  held : edited.authoring.branches[branch]? = some source
  parent : source.parentBranch ≠ branch
  base : source.baseDefinition = source.definition
  baseName : source.baseDisplayName = source.displayName
  tip : Tip edited source.parentBranch model name
  clean : ∃ base target, mergeOntology base target source.definition = .ok ⟨some model, []⟩

theorem mergeBranch_settled (hshaped : OntologyShaped record.authoring)
    (h : (mergeBranch record expected author now branch).query backend s = .ok edited) :
    ∃ source model name, Settled branch edited.1 source model name := by
  obtain ⟨source, target, name, merged, hmain, hsource, htip, hnames, hmerged⟩ := mergeBranch_eq_ok h
  have hne := hshaped.parent_ne hsource
  obtain ⟨edited', h', htip', hheld⟩ := query_mergeBranch expected author now s hmain hsource hne htip hnames hmerged
  obtain rfl := Except.ok.inj (h.symm.trans h')
  exact ⟨source.rebased expected, merged, _, hmain, hheld, hne, rfl, rfl, htip', _, _, hmerged⟩

/-- A later record in which, of all that the merge of the branch reads, at most
the content and the name of the branch have changed. -/
structure OnlyBranchEdited (branch : String) (before after : OntologyRecord) (source : OntologyBranch) (definition : Value)
    (name : String) : Prop where
  holds : ∃ edited, after.authoring.branches[branch]? = some edited ∧ edited.parentBranch = source.parentBranch ∧
    edited.baseDefinition = source.baseDefinition ∧ edited.baseDisplayName = source.baseDisplayName ∧
    edited.definition = definition ∧ edited.displayName = name
  tip : ∀ model title, Tip before source.parentBranch model title → Tip after source.parentBranch model title

/-- Why the second merge of a branch is refused, for edits that changed the
model to `definition` and the name to `name`. -/
inductive Refused (source : OntologyBranch) (model : Value) (title : String) (definition : Value) (name : String) : Prop
  | renamed : name ≠ source.displayName → title ≠ source.displayName → name ≠ title →
      Refused source model title definition name
  | invalid : ¬ Accepts (validateOntology definition) → Refused source model title definition name
  | conflict {c : Ontology.MergeConflict} : ConflictAt source.definition model definition c →
      Refused source model title definition name
  | unsound {merged : Value} : (∀ part p, Transplanted (locate source.definition part p) (locate model part p)
      (locate definition part p) (locate merged part p)) → ¬ Accepts (validateOntology merged) →
      Refused source model title definition name

theorem Settled.again {source : OntologyBranch} {model : Value} {title : String} {before after : OntologyRecord}
    (h : Settled branch before source model title)
    (hafter : OnlyBranchEdited branch before after source source.definition source.displayName) (expected author : String)
    (now : Int) (s : Branchline) : ∃ again model', (mergeBranch after expected author now branch).query backend s = .ok again ∧
      Tip again.1 source.parentBranch model' title ∧ model' ≈ model := by
  obtain ⟨edited, hheld, hparent, hbase, hbaseName, hdefinition, hname⟩ := hafter.holds
  obtain ⟨base, target, hclean⟩ := h.clean
  obtain ⟨merged, hmerged, hsame⟩ := mergeOntology_again hclean
  have hnames : NamesAgree edited title := .inl (.inr (by rw [hname, hbaseName, h.baseName]))
  have hrepeats : mergeOntology edited.baseDefinition model edited.definition = .ok ⟨some merged, []⟩ := by
    rw [hbase, h.base, hdefinition]
    exact hmerged
  obtain ⟨again, hagain, htip, -⟩ := query_mergeBranch expected author now s h.named hheld (hparent ▸ h.parent)
    (hparent ▸ hafter.tip _ _ h.tip) hnames hrepeats
  refine ⟨again, merged, hagain, ?_, hsame⟩
  have hkept : mergedName edited title = title := by
    rw [mergedName, hname, hbaseName, h.baseName]
    split
    next heq => exact heq.symm
    next => rfl
  rw [hkept, hparent] at htip
  exact htip

theorem Settled.carries {source : OntologyBranch} {model definition : Value} {title name : String}
    {before after : OntologyRecord} (h : Settled branch before source model title)
    (hafter : OnlyBranchEdited branch before after source definition name) (expected author : String) (now : Int)
    (s : Branchline) :
    (∃ again model', (mergeBranch after expected author now branch).query backend s = .ok again ∧
      Tip again.1 source.parentBranch model' (if name = source.displayName then title else name) ∧
      ∀ part p, Transplanted (locate source.definition part p) (locate model part p) (locate definition part p)
        (locate model' part p)) ∨
    (¬ Accepts ((mergeBranch after expected author now branch).query backend s) ∧
      Refused source model title definition name) := by
  obtain ⟨edit, hheld, hparent, hbase, hbaseName, rfl, rfl⟩ := hafter.holds
  have htip := hafter.tip _ _ h.tip
  rw [h.base] at hbase
  rw [h.baseName] at hbaseName
  -- what a successful merge would rest on
  have hreads : ∀ again, (mergeBranch after expected author now branch).query backend s = .ok again →
      NamesAgree edit title ∧ ∃ merged, mergeOntology source.definition model edit.definition = .ok ⟨some merged, []⟩ := by
    intro again hagain
    obtain ⟨b, m, t, merged, -, hb, htip', hnames, hmerged⟩ := mergeBranch_eq_ok hagain
    obtain rfl := Option.some.inj (hheld.symm.trans hb)
    obtain ⟨rfl, rfl⟩ := htip.functional (hparent ▸ htip')
    exact ⟨hnames, merged, hbase ▸ hmerged⟩
  by_cases hnames : NamesAgree edit title
  · by_cases hmerge : ∃ merged, mergeOntology source.definition model edit.definition = .ok ⟨some merged, []⟩
    · obtain ⟨merged, hmerged⟩ := hmerge
      left
      obtain ⟨again, hagain, htip', -⟩ := query_mergeBranch expected author now s h.named hheld (hparent ▸ h.parent)
        (hparent ▸ htip) hnames (hbase ▸ hmerged)
      refine ⟨again, merged, hagain, ?_, mergeOntology_transplants hmerged⟩
      have hchosen : mergedName edit title = if edit.displayName = source.displayName then title else edit.displayName := by
        simp only [NamesAgree, hbaseName] at hnames
        rw [mergedName, hbaseName]
        split <;> split <;> grind
      rw [hchosen, hparent] at htip'
      exact htip'
    · right
      refine ⟨fun haccepts => haccepts.elim fun again hagain => hmerge (hreads again hagain).2, ?_⟩
      by_cases hvalid : Accepts (validateOntology edit.definition)
      · obtain ⟨base, target, hclean⟩ := h.clean
        rcases mergeOntology_refused (mergeOntology_accepts hclean).2.2 (mergeOntology_ordered hclean).1 hvalid
          (fun merged hmerged => hmerge ⟨merged, hmerged⟩) with ⟨c, hc⟩ | ⟨merged, htransplanted, hinvalid⟩
        · exact .conflict hc
        · exact .unsound htransplanted hinvalid
      · exact .invalid hvalid
  · right
    refine ⟨fun haccepts => haccepts.elim fun again hagain => hnames (hreads again hagain).1, ?_⟩
    simp only [NamesAgree, hbaseName, not_or] at hnames
    exact .renamed hnames.1.2 hnames.1.1 (Ne.symm hnames.2)

section PipelineBranches

variable {record before after : PipelineRecord} {branch revisionId : String} {input : PutPipeline} {now : Int}
  {s : Branchline} {source : Branch}

/-- What a successful merge leaves: the branch and the main draft have the same
content, and another proposal can be made. -/
structure Joined (branch : String) (record : PipelineRecord) (source : Branch) : Prop where
  held : record.authoring.branches[branch]? = some source
  definition : source.definition = record.definition
  base : source.baseDefinition = record.definition
  draft : Accepts (validateDraft record.definition)
  name : record.definition.getStr "name" = some record.name
  room : record.authoring.proposals.size < 32

theorem mergeProposal_joined {resolutions : Resolutions} (hshaped : Shaped record.authoring) {edited : PipelineRecord}
    (h : (mergeProposal revisionId record branch resolutions).query backend s = .ok edited) :
    ∃ source, Joined branch edited source := by
  simp [mergeProposal] at h
  obtain ⟨proposal, hproposal, source, hsource, -, preview, hpreview, hclean, hdraft, name, hname, merged, hmerged, rfl⟩ := h
  refine ⟨_, by simp; rfl, rfl, rfl, hdraft, hname, ?_⟩
  have hmem : record.authoring.proposals.contains branch = true := by
    rw [Std.ExtTreeMap.contains_eq_isSome_getElem?, hproposal]
    rfl
  have hpositive : record.authoring.proposals.size ≠ 0 := by
    intro hzero
    rw [Std.ExtTreeMap.eq_empty_iff_size_eq_zero.mpr hzero] at hproposal
    simp at hproposal
  have hbounded := hshaped.bounded
  rw [Std.ExtTreeMap.size_erase, if_pos hmem]
  omega

/-- A later record that still has the main draft, and the branch up to new
content. -/
structure OnlyDraftEdited (branch : String) (before after : PipelineRecord) (source : Branch) (definition : Value) : Prop where
  main : after.definition = before.definition
  name : after.name = before.name
  proposals : after.authoring.proposals = before.authoring.proposals
  holds : ∃ edited, after.authoring.branches[branch]? = some edited ∧ edited.baseDefinition = source.baseDefinition ∧
    edited.definition = definition

structure Unedited (branch : String) (before after : PipelineRecord) : Prop where
  main : after.definition = before.definition
  name : after.name = before.name
  proposals : after.authoring.proposals = before.authoring.proposals
  branch : after.authoring.branches[branch]? = before.authoring.branches[branch]?

theorem Joined.again (h : Joined branch before source) {definition : Value}
    (hafter : OnlyDraftEdited branch before after source definition) (hdraft : Accepts (validateDraft definition))
    (input : PutPipeline) (now : Int) (s : Branchline) :
    ∃ proposed, (proposeMerge input now after branch).query backend s = .ok proposed ∧
      ∀ next, Unedited branch proposed next → ∀ revisionId, ∃ again d e,
        (mergeProposal revisionId next branch ∅).query backend s = .ok again ∧
        normalize again.definition = .ok d ∧ normalize definition = .ok e ∧ d ≈ e ∧
        again.definition.getStr "name" = some again.name ∧
        (definition = before.definition → again.definition = before.definition ∧ again.name = before.name) := by
  obtain ⟨edited, hheld, hbase, rfl⟩ := hafter.holds
  rw [h.base] at hbase
  let proposal : MergeProposal := {
    sourceBranch := branch
    sourceHash := definitionHash edited.definition
    targetHash := definitionHash after.definition
    authorId := input.author
    createdAtMs := now }
  refine ⟨{ after with
    authoring := { after.authoring with proposals := after.authoring.proposals.insert branch proposal } }, ?_, ?_⟩
  · simp [proposeMerge, hheld, hafter.proposals, h.room, proposal]
  intro next hnext revisionId
  have hproposal : next.authoring.proposals[branch]? = some proposal := by
    rw [hnext.proposals]
    simp
  have hsource : next.authoring.branches[branch]? = some edited := hnext.branch.trans hheld
  have hmain : next.definition = before.definition := hnext.main.trans hafter.main
  obtain ⟨d, hd⟩ := validateDraft_normalize h.draft
  obtain ⟨e, he⟩ := validateDraft_normalize hdraft
  obtain ⟨merged, hmerged, hcases⟩ := mergeDefinitions_onto hd he
  have hmergedDraft : Accepts (validateDraft merged) := by
    rcases hcases with ⟨rfl, -⟩ | ⟨rfl, -⟩
    · exact h.draft
    · exact hdraft
  obtain ⟨name, hname⟩ := validateDraft_name hmergedDraft
  obtain ⟨d', hd', hsame⟩ : ∃ d', normalize merged = .ok d' ∧ d' ≈ e := by
    rcases hcases with ⟨rfl, hsame⟩ | ⟨rfl, -⟩
    · exact ⟨d, hd, hsame⟩
    · exact ⟨e, he, Setoid.refl e⟩
  have hunedited : edited.definition = before.definition → merged = before.definition := by
    intro hkept
    rcases hcases with ⟨rfl, -⟩ | ⟨rfl, -⟩
    · rfl
    · exact hkept
  obtain ⟨again, hagain, rfl, rfl⟩ : ∃ again, (mergeProposal revisionId next branch ∅).query backend s = .ok again ∧
      again.definition = merged ∧ again.name = name := by
    simp [mergeProposal, hproposal, proposal, hsource, hmain, hafter.main, hbase, hmerged, hname]
    exact hmergedDraft
  refine ⟨again, d', e, hagain, hd', he, hsame, hname, fun hkept => ⟨hunedited hkept, ?_⟩⟩
  rw [hunedited hkept, h.name] at hname
  exact (Option.some.inj hname).symm

end PipelineBranches

variable {tenantId genesis : String}

/-- What can happen to an ontology branch after it was merged: merged again it
changes nothing, and later edits of it are carried over or refused. -/
structure OntologyStable (branch : String) (merged : OntologyRecord) (source : OntologyBranch) (model : Value)
    (name : String) : Prop where
  settled : Settled branch merged source model name
  again : ∀ after, OnlyBranchEdited branch merged after source source.definition source.displayName →
    ∀ expected author now s, ∃ again model', (mergeBranch after expected author now branch).query backend s = .ok again ∧
      Tip again.1 source.parentBranch model' name ∧ model' ≈ model
  carries : ∀ after definition title, OnlyBranchEdited branch merged after source definition title →
    ∀ expected author now s,
      (∃ again model', (mergeBranch after expected author now branch).query backend s = .ok again ∧
        Tip again.1 source.parentBranch model' (if title = source.displayName then name else title) ∧
        ∀ part p, Transplanted (locate source.definition part p) (locate model part p) (locate definition part p)
          (locate model' part p)) ∨
      (¬ Accepts ((mergeBranch after expected author now branch).query backend s) ∧
        Refused source model name definition title)

/-- After the merge of a pipeline branch, valid content of the branch can be
proposed and merged again, and becomes the main draft. -/
structure PipelineStable (branch : String) (merged : PipelineRecord) (source : Branch) : Prop where
  joined : Joined branch merged source
  again : ∀ after definition, OnlyDraftEdited branch merged after source definition → Accepts (validateDraft definition) →
    ∀ input now s, ∃ proposed, (proposeMerge input now after branch).query backend s = .ok proposed ∧
      ∀ next, Unedited branch proposed next → ∀ revisionId, ∃ again d e,
        (mergeProposal revisionId next branch ∅).query backend s = .ok again ∧
        normalize again.definition = .ok d ∧ normalize definition = .ok e ∧ d ≈ e ∧
        again.definition.getStr "name" = some again.name ∧
        (definition = merged.definition → again.definition = merged.definition ∧ again.name = merged.name)

/-- Merging a branch leaves a base from which it can be merged again, in every
record that a run of requests reaches. -/
theorem merge_base_stable (tenantId genesis : String) (calls : List Call) :
    (∀ (id : String) (record : OntologyRecord), (history tenantId genesis calls).head.state.ontologies[id]? = some record →
      ∀ expected author now branch s edited, (mergeBranch record expected author now branch).query backend s = .ok edited →
        ∃ source model name, OntologyStable branch edited.1 source model name) ∧
    (∀ (id : String) (record : PipelineRecord), (history tenantId genesis calls).head.state.pipelines[id]? = some record →
      ∀ revisionId branch resolutions s edited,
        (mergeProposal revisionId record branch resolutions).query backend s = .ok edited →
        ∃ source, PipelineStable branch edited source) := by
  constructor
  · intro id record hrecord expected author now branch s edited h
    obtain ⟨source, model, name, hsettled⟩ := mergeBranch_settled (history_ontologyShaped calls id record hrecord) h
    exact ⟨source, model, name, hsettled, fun after => hsettled.again, fun after definition title => hsettled.carries⟩
  · intro id record hrecord revisionId branch resolutions s edited h
    obtain ⟨source, hjoined⟩ := mergeProposal_joined (history_shaped calls id record hrecord) h
    exact ⟨source, hjoined, fun after definition hafter hdraft => hjoined.again hafter hdraft⟩

def forkedCalls : List Call :=
  [modelCommand 2 "crm" [("note", .string "main")] (.saveDraft "main"), modelCommand 1 "crm" [] (.createBranch "edit" "main"),
    callOf 1 (.putOntology (modelInput "crm" [] none))]

theorem merge_base_stable_forked : ∃ record edited,
    (history "tenant" (revisionOf 0) forkedCalls).head.state.ontologies["crm"]? = some record ∧
    (mergeBranch record (revisionOf 3) "author" 0 "edit").query backend (history "tenant" (revisionOf 0) forkedCalls) =
      .ok edited ∧ ∃ source model name, OntologyStable "edit" edited.1 source model name := by
  have h : ((history "tenant" (revisionOf 0) forkedCalls).head.state.ontologies["crm"]?.any fun record =>
      decide (Accepts ((mergeBranch record (revisionOf 3) "author" 0 "edit").query backend
        (history "tenant" (revisionOf 0) forkedCalls)))) = true := by
    decide +kernel
  obtain ⟨record, hrecord, hmerged⟩ := (Option.any_eq_true _ _).mp h
  obtain ⟨edited, hedited⟩ := of_decide_eq_true hmerged
  exact ⟨record, edited, hrecord, hedited,
    (merge_base_stable "tenant" (revisionOf 0) forkedCalls).1 "crm" record hrecord _ _ _ _ _ edited hedited⟩

def editedCalls : List Call :=
  [modelCommand 4 "crm" [("note", .string "edit")] (.saveDraft "edit"), modelCommand 3 "crm" [] (.merge "edit")] ++ forkedCalls

theorem second_merge_conflicts :
    (history "tenant" (revisionOf 0) editedCalls).head.revisionId = revisionOf 5 ∧
    ∃ record, (history "tenant" (revisionOf 0) editedCalls).head.state.ontologies["crm"]? = some record ∧
      ∀ expected author now s, ¬ Accepts ((mergeBranch record expected author now "edit").query backend s) := by
  have hrun : (history "tenant" (revisionOf 0) editedCalls).head.revisionId = revisionOf 5 ∧
      ((history "tenant" (revisionOf 0) editedCalls).head.state.ontologies["crm"]?.any fun record =>
        record.authoring.branches["edit"]?.any fun source => source.parentBranch == "main" &&
          match mergeOntology source.baseDefinition record.ontology source.definition with
          | .ok result => result.ontology.isNone
          | .error _ => false) = true := by
    decide +kernel
  obtain ⟨hhead, h⟩ := hrun
  refine ⟨hhead, ?_⟩
  obtain ⟨record, hrecord, h⟩ := (Option.any_eq_true _ _).mp h
  obtain ⟨source, hsource, h⟩ := (Option.any_eq_true _ _).mp h
  simp only [Bool.and_eq_true, beq_iff_eq] at h
  refine ⟨record, hrecord, fun expected author now s ⟨edited, hedited⟩ => ?_⟩
  obtain ⟨source', model, name, merged, -, hsource', htip, -, hmerged⟩ := mergeBranch_eq_ok hedited
  obtain rfl := Option.some.inj (hsource.symm.trans hsource')
  rw [h.1] at htip
  obtain ⟨rfl, -⟩ := htip.functional .main
  simp [hmerged] at h

end Galadril.Registry
