import Galadril.Registry.Authoring
import Galadril.Registry.OntologyMerge

namespace Galadril.Registry.Pipeline

open Json Lib.Checked Ontology

def pointerOf (path : List String) : String := path.foldl childPointer ""

@[simp] theorem pointerOf_nil : pointerOf [] = "" := rfl

theorem pointerOf_append (path : List String) (key : String) :
    pointerOf (path ++ [key]) = childPointer (pointerOf path) key := by
  simp [pointerOf]

def token (key : String) : List Char := key.toList.flatMap pointerEscape

theorem foldl_childPointer (path : List String) (start : String) :
    (path.foldl childPointer start).toList = start.toList ++ path.flatMap fun key => '/' :: token key := by
  induction path generalizing start with
  | nil => simp
  | cons key path ih => simp [ih, childPointer, token]

theorem pointerOf_toList (path : List String) : (pointerOf path).toList = path.flatMap fun key => '/' :: token key := by
  simp [pointerOf, foldl_childPointer]

theorem pointerEscape_cases (c : Char) :
    c = '~' ∧ pointerEscape c = ['~', '0'] ∨ c = '/' ∧ pointerEscape c = ['~', '1'] ∨
      c ≠ '~' ∧ c ≠ '/' ∧ pointerEscape c = [c] := by
  unfold pointerEscape
  by_cases h : c = '~'
  · exact .inl ⟨h, by simp [h]⟩
  · by_cases h' : c = '/'
    · exact .inr (.inl ⟨h', by simp [h']⟩)
    · exact .inr (.inr ⟨h, h', by simp [h, h']⟩)

theorem slash_notMem_token (key : String) : '/' ∉ token key := by
  intro h
  obtain ⟨c, -, hc⟩ := List.mem_flatMap.mp h
  rcases pointerEscape_cases c with ⟨-, he⟩ | ⟨-, he⟩ | ⟨-, hne, he⟩
  · rw [he] at hc
    simp at hc
  · rw [he] at hc
    simp at hc
  · rw [he, List.mem_singleton] at hc
    exact hne hc.symm

/-- Escaped texts can be read back. -/
theorem escape_inj {a b : List Char} (h : a.flatMap pointerEscape = b.flatMap pointerEscape) : a = b := by
  have hne : ∀ c, pointerEscape c ≠ [] := by
    intro c
    rcases pointerEscape_cases c with ⟨-, he⟩ | ⟨-, he⟩ | ⟨-, -, he⟩ <;> simp [he]
  induction a generalizing b with
  | nil =>
      cases b with
      | nil => rfl
      | cons d b => simp [hne] at h
  | cons c a ih =>
      cases b with
      | nil => simp [hne] at h
      | cons d b =>
          rw [List.flatMap_cons, List.flatMap_cons] at h
          rcases pointerEscape_cases c with ⟨rfl, hc⟩ | ⟨rfl, hc⟩ | ⟨hc1, hc2, hc⟩ <;>
            rcases pointerEscape_cases d with ⟨rfl, hd⟩ | ⟨rfl, hd⟩ | ⟨hd1, hd2, hd⟩ <;>
            simp [hc, hd] at h
          · rw [ih h]
          · exact absurd h.1.symm hd1
          · rw [ih h]
          · exact absurd h.1.symm hd1
          · exact absurd h.1 hc1
          · exact absurd h.1 hc1
          · rw [h.1, ih h.2]

theorem token_inj {k l : String} (h : token k = token l) : k = l := String.toList_inj.mp (escape_inj h)

/-- Different locations have different pointers, whatever their keys contain. -/
theorem pointerOf_inj {p q : List String} (h : pointerOf p = pointerOf q) : p = q := by
  have hl := congrArg String.toList h
  rw [pointerOf_toList, pointerOf_toList] at hl
  clear h
  -- The token of a key ends where the next separator stands.
  have hsplit : ∀ (key : String) (rest : List String),
      (token key ++ rest.flatMap fun key => '/' :: token key).takeWhile (· ≠ '/') = token key := by
    intro key rest
    have hall : ∀ c ∈ token key, decide (c ≠ '/') = true := by
      intro c hc
      rw [decide_eq_true_iff]
      rintro rfl
      exact slash_notMem_token key hc
    rw [List.takeWhile_append_of_pos hall]
    cases rest <;> simp
  induction p generalizing q with
  | nil =>
      cases q with
      | nil => rfl
      | cons l q => simp at hl
  | cons k p ih =>
      cases q with
      | nil => simp at hl
      | cons l q =>
          simp only [List.flatMap_cons, List.cons_append, List.cons.injEq, true_and] at hl
          have htoken : token k = token l := by
            have := congrArg (List.takeWhile (· ≠ '/')) hl
            rwa [hsplit, hsplit] at this
          rw [htoken, List.append_cancel_left_eq] at hl
          rw [token_inj htoken, ih hl]

def ancestorOf (base : Option Value) : Members := (base.bind Value.asObject).getD []

/-- Both sides changed, they changed differently, and there is no common object
structure to merge within; an absent ancestor does not prevent a merge. -/
def Clashes (base target source : Option Value) : Prop :=
  ¬ Same target source ∧ ¬ Same source base ∧ ¬ Same target base ∧
    ¬ ((∃ l, target = some (.object l)) ∧ (∃ r, source = some (.object r)) ∧ base.all Value.isObject = true)

def chosen (resolutions : Resolutions) (path : String) (target source : Option Value) : Option Value :=
  match resolutions[path]? with
  | some .source => source
  | _ => target

def combine (resolutions : Resolutions) (path : List String) (base target source : Option Value) : Option Value :=
  if target == source || source == base then target
  else if target == base then source
  else
    match target, source, base.all Value.isObject with
    | some (.object left), some (.object right), true =>
        some (.object (Members.collect (Members.unionKeys [left, right, ancestorOf base]) fun key =>
          combine resolutions (path ++ [key]) (Members.field (ancestorOf base) key) (Members.field left key)
            (Members.field right key)))
    | target, source, _ => chosen resolutions (pointerOf path) target source
termination_by optDepth target
decreasing_by exact optDepth_field_lt left key

def clashes (base target source : Option Value) : List (List String) :=
  if target == source || source == base then []
  else if target == base then []
  else
    match target, source, base.all Value.isObject with
    | some (.object left), some (.object right), true =>
        (Members.unionKeys [left, right, ancestorOf base]).flatMap fun key =>
          (clashes (Members.field (ancestorOf base) key) (Members.field left key) (Members.field right key)).map (key :: ·)
    | _, _, _ => [[]]
termination_by optDepth target
decreasing_by exact optDepth_field_lt left key

section Equations

variable {resolutions : Resolutions} {path : List String} {base target source : Option Value} {left right : Members}

theorem same_or_iff : (target == source || source == base) = true ↔ Same target source ∨ Same source base := by
  simp

theorem combine_kept (h : Same target source ∨ Same source base) :
    combine resolutions path base target source = target := by
  rw [combine.eq_def, if_pos (same_or_iff.mpr h)]

theorem clashes_kept (h : Same target source ∨ Same source base) : clashes base target source = [] := by
  rw [clashes.eq_def, if_pos (same_or_iff.mpr h)]

theorem combine_taken (h : ¬ (Same target source ∨ Same source base)) (ht : Same target base) :
    combine resolutions path base target source = source := by
  rw [combine.eq_def, if_neg (mt same_or_iff.mp h), if_pos (option_beq_iff.mpr ht)]

theorem clashes_taken (h : ¬ (Same target source ∨ Same source base)) (ht : Same target base) :
    clashes base target source = [] := by
  rw [clashes.eq_def, if_neg (mt same_or_iff.mp h), if_pos (option_beq_iff.mpr ht)]

theorem combine_object (h : ¬ (Same (some (.object left)) (some (.object right)) ∨ Same (some (.object right)) base))
    (ht : ¬ Same (some (.object left)) base) (hb : base.all Value.isObject = true) :
    combine resolutions path base (some (.object left)) (some (.object right)) =
      some (.object (Members.collect (Members.unionKeys [left, right, ancestorOf base]) fun key =>
        combine resolutions (path ++ [key]) (Members.field (ancestorOf base) key) (Members.field left key)
          (Members.field right key))) := by
  rw [combine.eq_def, if_neg (mt same_or_iff.mp h), if_neg (mt option_beq_iff.mp ht), hb]

theorem clashes_object (h : ¬ (Same (some (.object left)) (some (.object right)) ∨ Same (some (.object right)) base))
    (ht : ¬ Same (some (.object left)) base) (hb : base.all Value.isObject = true) :
    clashes base (some (.object left)) (some (.object right)) =
      (Members.unionKeys [left, right, ancestorOf base]).flatMap fun key =>
        (clashes (Members.field (ancestorOf base) key) (Members.field left key) (Members.field right key)).map (key :: ·) := by
  rw [clashes.eq_def, if_neg (mt same_or_iff.mp h), if_neg (mt option_beq_iff.mp ht), hb]

theorem combine_clash (h : Clashes base target source) :
    combine resolutions path base target source = chosen resolutions (pointerOf path) target source := by
  obtain ⟨hts, hsb, htb, hno⟩ := h
  have hor : ¬ (Same target source ∨ Same source base) := by tauto
  rw [combine.eq_def, if_neg (mt same_or_iff.mp hor), if_neg (mt option_beq_iff.mp htb)]
  split
  next l r hb => exact (hno ⟨⟨l, rfl⟩, ⟨r, rfl⟩, hb⟩).elim
  next => rfl

theorem clashes_clash (h : Clashes base target source) : clashes base target source = [[]] := by
  obtain ⟨hts, hsb, htb, hno⟩ := h
  have hor : ¬ (Same target source ∨ Same source base) := by tauto
  rw [clashes.eq_def, if_neg (mt same_or_iff.mp hor), if_neg (mt option_beq_iff.mp htb)]
  split
  next l r hb => exact (hno ⟨⟨l, rfl⟩, ⟨r, rfl⟩, hb⟩).elim
  next => rfl

/-- The cases of a merge of definitions in terms of JSON equality. -/
theorem combine_induction {motive : List String → Option Value → Option Value → Option Value → Prop}
    (kept : ∀ path base target source, Same target source ∨ Same source base → motive path base target source)
    (taken : ∀ path base target source, ¬ (Same target source ∨ Same source base) → Same target base →
      motive path base target source)
    (object : ∀ path base left right,
      ¬ (Same (some (.object left)) (some (.object right)) ∨ Same (some (.object right)) base) →
      ¬ Same (some (.object left)) base → base.all Value.isObject = true →
      (∀ key, motive (path ++ [key]) (Members.field (ancestorOf base) key) (Members.field left key)
        (Members.field right key)) →
      motive path base (some (.object left)) (some (.object right)))
    (clash : ∀ path base target source, Clashes base target source → motive path base target source)
    (path : List String) (base target source : Option Value) : motive path base target source := by
  induction path, base, target, source using combine.induct with
  | case1 path base target source h => exact kept _ _ _ _ (same_or_iff.mp h)
  | case2 path base target source h ht => exact taken _ _ _ _ (mt same_or_iff.mpr h) (option_beq_iff.mp ht)
  | case3 path base left right hb ht h ih =>
      exact object _ _ _ _ (mt same_or_iff.mpr h) (mt option_beq_iff.mpr ht) hb ih
  | case4 path base target source hno ht h =>
      have hor : ¬ (Same target source ∨ Same source base) := mt same_or_iff.mpr h
      refine clash _ _ _ _ ⟨fun hs => hor (.inl hs), fun hs => hor (.inr hs), mt option_beq_iff.mpr ht, ?_⟩
      rintro ⟨⟨l, hl⟩, ⟨r, hr⟩, hb⟩
      exact hno l r hl hr hb

end Equations

section Laws

variable {resolutions : Resolutions} {path : List String} {base target source : Option Value}

theorem descend_ancestor (h : base.all Value.isObject = true) (key : String) (p : List String) :
    descend base (key :: p) = descend (Members.field (ancestorOf base) key) p := by
  cases base with
  | none => simp [ancestorOf, Members.field]
  | some v =>
      cases v with
      | object m => simp [ancestorOf, Value.asObject]
      | _ => simp [Value.isObject, Value.asObject] at h

theorem mem_unionKeys_of_not_same {base : Option Value} {left right : Members} {key : String}
    (h : ¬ Same (Members.field left key) (Members.field right key)) :
    key ∈ Members.unionKeys [left, right, ancestorOf base] := by
  rw [Members.mem_unionKeys]
  by_contra hn
  simp only [List.mem_cons, List.not_mem_nil, or_false, exists_eq_or_imp, exists_eq_left, not_or, Bool.not_eq_true,
    Option.isSome_eq_false_iff, Option.isNone_iff_eq_none] at hn
  exact h (by simp [hn.1, hn.2.1])

/-- A member that no object has merges to nothing. -/
theorem field_combined {left right : Members} {key : String} :
    Members.field (Members.collect (Members.unionKeys [left, right, ancestorOf base]) fun key =>
      combine resolutions (path ++ [key]) (Members.field (ancestorOf base) key) (Members.field left key)
        (Members.field right key)) key =
      combine resolutions (path ++ [key]) (Members.field (ancestorOf base) key) (Members.field left key)
        (Members.field right key) := by
  rw [Members.field_collect]
  split
  · rfl
  · next hk =>
      have hsame : Same (Members.field left key) (Members.field right key) := by
        by_contra hn
        exact hk (mem_unionKeys_of_not_same hn)
      rw [combine_kept (.inl hsame)]
      by_contra hn
      refine hk (Members.mem_unionKeys.mpr ⟨left, by simp, ?_⟩)
      exact Option.isSome_iff_ne_none.mpr (Ne.symm hn)

theorem mem_clashes_object {base : Option Value} {left right : Members} {p : List String} :
    (p ∈ (Members.unionKeys [left, right, ancestorOf base]).flatMap fun key =>
      (clashes (Members.field (ancestorOf base) key) (Members.field left key) (Members.field right key)).map (key :: ·)) ↔
      ∃ key q, p = key :: q ∧
        q ∈ clashes (Members.field (ancestorOf base) key) (Members.field left key) (Members.field right key) := by
  simp only [List.mem_flatMap, List.mem_map]
  constructor
  · rintro ⟨key, -, q, hq, rfl⟩
    exact ⟨key, q, rfl, hq⟩
  · rintro ⟨key, q, rfl, hq⟩
    refine ⟨key, mem_unionKeys_of_not_same fun hs => ?_, q, hq, rfl⟩
    rw [clashes_kept (.inl hs)] at hq
    cases hq

/-- At a clash the merged value is the side that was chosen. -/
theorem combine_at_clash {p : List String} (hp : p ∈ clashes base target source) :
    descend (combine resolutions path base target source) p =
      chosen resolutions (pointerOf (path ++ p)) (descend target p) (descend source p) := by
  induction path, base, target, source using combine_induction generalizing p with
  | kept path base target source h => simp [clashes_kept h] at hp
  | taken path base target source h ht => simp [clashes_taken h ht] at hp
  | object path base left right h ht hb ih =>
      rw [clashes_object h ht hb, mem_clashes_object] at hp
      obtain ⟨key, q, rfl, hq⟩ := hp
      rw [combine_object h ht hb, descend_object, field_combined, ih key hq, descend_object, descend_object, List.append_assoc,
        List.singleton_append]
  | clash path base target source h =>
      rw [clashes_clash h, List.mem_singleton] at hp
      subst hp
      rw [combine_clash h, List.append_nil, descend_nil, descend_nil, descend_nil]

/-- Away from the clashes every location obeys the three-way law. -/
theorem combine_mergedAt {p : List String} (hp : ∀ q ∈ clashes base target source, ¬ q <+: p) :
    MergedAt (descend base p) (descend target p) (descend source p)
      (descend (combine resolutions path base target source) p) := by
  induction path, base, target, source using combine_induction generalizing p with
  | kept path base target source h =>
      rw [combine_kept h]
      rcases h with hts | hsb
      · have hp' := hts.descend p
        exact ⟨fun _ => hp', fun _ => .refl _, fun _ => .refl _⟩
      · have hp' := hsb.descend p
        exact ⟨fun hl => hl.trans hp'.symm, fun _ => .refl _, fun _ => .refl _⟩
  | taken path base target source h ht =>
      rw [combine_taken h ht]
      have hp' := ht.descend p
      exact ⟨fun _ => .refl _, fun hr => hr.trans hp'.symm, Same.symm⟩
  | object path base left right h ht hb ih =>
      rw [combine_object h ht hb]
      cases p with
      | nil =>
          exact ⟨fun hs => absurd hs ht, fun hs => absurd (.inr hs) h, fun hs => absurd (.inl hs) h⟩
      | cons key p =>
          rw [descend_ancestor hb, descend_object, descend_object, descend_object, field_combined]
          refine ih key fun q hq hprefix => hp (key :: q) ?_ (List.cons_prefix_cons.mpr ⟨rfl, hprefix⟩)
          rw [clashes_object h ht hb, mem_clashes_object]
          exact ⟨key, q, rfl, hq⟩
  | clash path base target source h =>
      exact (hp [] (by simp [clashes_clash h]) List.nil_prefix).elim

theorem combine_clean {resolutions' : Resolutions} (hnone : clashes base target source = []) :
    combine resolutions path base target source = combine resolutions' path base target source := by
  induction path, base, target, source using combine_induction with
  | kept path base target source h => rw [combine_kept h, combine_kept h]
  | taken path base target source h ht => rw [combine_taken h ht, combine_taken h ht]
  | object path base left right h ht hb ih =>
      rw [clashes_object h ht hb, List.flatMap_eq_nil_iff] at hnone
      rw [combine_object h ht hb, combine_object h ht hb]
      refine congrArg (fun m => some (Value.object m)) (List.filterMap_congr fun key hkey => ?_)
      exact congrArg (Option.map _) (ih key (List.map_eq_nil_iff.mp (hnone key hkey)))
  | clash path base target source h => simp [clashes_clash h] at hnone

/-- Locations that neither contain a clash nor lie in one are the same under
all resolutions. -/
theorem combine_independent {resolutions' : Resolutions} {p : List String}
    (hp : ∀ q ∈ clashes base target source, ¬ q <+: p ∧ ¬ p <+: q) :
    descend (combine resolutions path base target source) p =
      descend (combine resolutions' path base target source) p := by
  induction path, base, target, source using combine_induction generalizing p with
  | kept path base target source h => rw [combine_kept h, combine_kept h]
  | taken path base target source h ht => rw [combine_taken h ht, combine_taken h ht]
  | object path base left right h ht hb ih =>
      cases p with
      | nil =>
          have hnone : clashes base (some (.object left)) (some (.object right)) = [] :=
            List.eq_nil_iff_forall_not_mem.mpr fun q hq => (hp q hq).2 List.nil_prefix
          rw [combine_clean hnone]
      | cons key p =>
          rw [combine_object h ht hb, combine_object h ht hb, descend_object, descend_object, field_combined, field_combined]
          refine ih key fun q hq => ?_
          have hkey := hp (key :: q) (by
            rw [clashes_object h ht hb, mem_clashes_object]
            exact ⟨key, q, rfl, hq⟩)
          simpa [List.cons_prefix_cons] using hkey
  | clash path base target source h =>
      exact ((hp [] (by simp [clashes_clash h])).1 List.nil_prefix).elim

theorem nodup_clashes : (clashes base target source).Nodup := by
  induction ([] : List String), base, target, source using combine_induction with
  | kept path base target source h => simp [clashes_kept h]
  | taken path base target source h ht => simp [clashes_taken h ht]
  | object path base left right h ht hb ih =>
      rw [clashes_object h ht hb, List.nodup_flatMap]
      refine ⟨fun key _ => (ih key).map fun _ _ he => (List.cons.inj he).2, ?_⟩
      refine (Members.sorted_unionKeys _).imp fun {a b} hlt p hp hq => ?_
      obtain ⟨q, -, rfl⟩ := List.mem_map.mp hp
      obtain ⟨r, -, he⟩ := List.mem_map.mp hq
      exact absurd (List.cons.inj he).1.symm hlt.ne
  | clash path base target source h => simp [clashes_clash h]

end Laws

variable {resolutions : Resolutions} {path : List String} {base target source : Option Value} {depth : Nat}

def conflictAt (path : List String) (base target source : Option Value) (p : List String) : DefinitionConflict :=
  ⟨pointerOf (path ++ p), descend base p, descend target p, descend source p⟩

def unresolved (resolutions : Resolutions) (path : List String) (base target source : Option Value) :
    List DefinitionConflict :=
  ((clashes base target source).map (conflictAt path base target source)).filter fun c => resolutions[c.path]?.isNone

theorem unresolved_object {left right : Members}
    (h : ¬ (Same (some (.object left)) (some (.object right)) ∨ Same (some (.object right)) base))
    (ht : ¬ Same (some (.object left)) base) (hb : base.all Value.isObject = true) :
    unresolved resolutions path base (some (.object left)) (some (.object right)) =
      (Members.unionKeys [left, right, ancestorOf base]).flatMap fun key =>
        unresolved resolutions (path ++ [key]) (Members.field (ancestorOf base) key) (Members.field left key)
          (Members.field right key) := by
  rw [unresolved, clashes_object h ht hb, List.map_flatMap, List.filter_flatMap]
  refine List.flatMap_congr fun key _ => ?_
  rw [unresolved, List.map_map]
  refine congrArg (List.filter _) (List.map_congr_left fun p _ => ?_)
  simp only [Function.comp_apply, conflictAt, descend_ancestor hb, descend_object, List.append_assoc,
    List.singleton_append]

theorem mergeDefinitionValue_kept (hd : depth ≤ 32) (h : Same target source ∨ Same source base) :
    mergeDefinitionValue resolutions (pointerOf path) base target source depth = .ok (target, []) := by
  rw [mergeDefinitionValue.eq_def, if_neg (Nat.not_lt.mpr hd), if_pos (same_or_iff.mpr h)]

theorem mergeDefinitionValue_taken (hd : depth ≤ 32) (h : ¬ (Same target source ∨ Same source base))
    (ht : Same target base) :
    mergeDefinitionValue resolutions (pointerOf path) base target source depth = .ok (source, []) := by
  rw [mergeDefinitionValue.eq_def, if_neg (Nat.not_lt.mpr hd), if_neg (mt same_or_iff.mp h),
    if_pos (option_beq_iff.mpr ht)]

theorem mergeDefinitionValue_object (hd : depth ≤ 32) {left right : Members}
    (h : ¬ (Same (some (.object left)) (some (.object right)) ∨ Same (some (.object right)) base))
    (ht : ¬ Same (some (.object left)) base) (hb : base.all Value.isObject = true) :
    mergeDefinitionValue resolutions (pointerOf path) base (some (.object left)) (some (.object right)) depth = do
      let results ← (Members.unionKeys [left, right, ancestorOf base]).mapM fun key =>
        mergeDefinitionValue resolutions (pointerOf (path ++ [key])) (Members.field (ancestorOf base) key)
          (Members.field left key) (Members.field right key) (depth + 1)
      return (some (.object (((Members.unionKeys [left, right, ancestorOf base]).zip results).filterMap fun p =>
        p.2.1.map fun v => (p.1, v))), results.flatMap (·.2)) := by
  rw [mergeDefinitionValue.eq_def, if_neg (Nat.not_lt.mpr hd), if_neg (mt same_or_iff.mp h),
    if_neg (mt option_beq_iff.mp ht), hb]
  simp only [pointerOf_append]
  rfl

theorem mergeDefinitionValue_clash (hd : depth ≤ 32) (h : Clashes base target source) :
    mergeDefinitionValue resolutions (pointerOf path) base target source depth =
      .ok (chosen resolutions (pointerOf path) target source,
        if resolutions[pointerOf path]?.isNone then [⟨pointerOf path, base, target, source⟩] else []) := by
  obtain ⟨hts, hsb, htb, hno⟩ := h
  have hor : ¬ (Same target source ∨ Same source base) := by tauto
  rw [mergeDefinitionValue.eq_def, if_neg (Nat.not_lt.mpr hd), if_neg (mt same_or_iff.mp hor),
    if_neg (mt option_beq_iff.mp htb)]
  split
  next l r hb => exact (hno ⟨⟨l, rfl⟩, ⟨r, rfl⟩, hb⟩).elim
  next =>
    rw [chosen]
    cases resolutions[pointerOf path]? with
    | none => rfl
    | some choice => cases choice <;> rfl

theorem mapM_eq_error {ε α β : Type} {f : α → Except ε β} {xs : List α} {e : ε} (h : xs.mapM f = .error e) :
    ∃ x, f x = .error e := by
  induction xs with
  | nil => cases h
  | cons x xs ih =>
      rw [List.mapM_cons, bind_eq_error] at h
      rcases h with h | ⟨y, -, h⟩
      · exact ⟨x, h⟩
      · rw [bind_eq_error] at h
        rcases h with h | ⟨ys, -, h⟩
        · exact ih h
        · cases h

theorem depth_of_ok {result : Option Value × List DefinitionConflict}
    (h : mergeDefinitionValue resolutions (pointerOf path) base target source depth = .ok result) : depth ≤ 32 := by
  by_contra hd
  rw [mergeDefinitionValue.eq_def, if_pos (Nat.lt_of_not_le hd)] at h
  cases h

theorem zip_collect {keys : List String} {f : String → Option Value × List DefinitionConflict} :
    ((keys.zip (keys.map f)).filterMap fun p => p.2.1.map fun v => (p.1, v)) =
      Members.collect keys fun key => (f key).1 := by
  induction keys with
  | nil => rfl
  | cons key keys ih =>
      rw [Members.collect] at ih ⊢
      rw [List.map_cons, List.zip_cons_cons, List.filterMap_cons, List.filterMap_cons, ih]

/-- A successful merge combines the sides and reports the unresolved clashes. -/
theorem mergeDefinitionValue_eq {result : Option Value × List DefinitionConflict}
    (h : mergeDefinitionValue resolutions (pointerOf path) base target source depth = .ok result) :
    result = (combine resolutions path base target source, unresolved resolutions path base target source) := by
  have hd := depth_of_ok h
  induction path, base, target, source using combine_induction generalizing depth result with
  | kept path base target source hs =>
      rw [mergeDefinitionValue_kept hd hs] at h
      rw [combine_kept hs, unresolved, clashes_kept hs]
      exact (Except.ok.inj h).symm
  | taken path base target source hs ht =>
      rw [mergeDefinitionValue_taken hd hs ht] at h
      rw [combine_taken hs ht, unresolved, clashes_taken hs ht]
      exact (Except.ok.inj h).symm
  | object path base left right hs ht hb ih =>
      rw [mergeDefinitionValue_object hd hs ht hb] at h
      simp only [bind_eq_ok, mapM_eq_ok, pure_eq_ok] at h
      obtain ⟨results, hresults, rfl⟩ := h
      -- Each member was merged on its own.
      have heq : results = (Members.unionKeys [left, right, ancestorOf base]).map fun key =>
          (combine resolutions (path ++ [key]) (Members.field (ancestorOf base) key) (Members.field left key)
            (Members.field right key),
          unresolved resolutions (path ++ [key]) (Members.field (ancestorOf base) key) (Members.field left key)
            (Members.field right key)) := by
        rw [← List.forall₂_eq_eq_eq, List.forall₂_map_right_iff]
        exact hresults.flip.imp fun result key hkey => ih key hkey (depth_of_ok hkey)
      subst heq
      rw [zip_collect, combine_object hs ht hb, unresolved_object hs ht hb, List.flatMap_map]
  | clash path base target source hs =>
      rw [mergeDefinitionValue_clash hd hs] at h
      rw [combine_clash hs, unresolved, clashes_clash hs]
      obtain rfl := Except.ok.inj h
      simp [conflictAt, List.filter_singleton]

def height (v : Option Value) : Nat := (v.map Value.depth).getD 0

theorem height_field_lt (m : Members) (key : String) : height (Members.field m key) < height (some (.object m)) := by
  cases hf : Members.field m key with
  | none => simp [height, Value.depth]
  | some v => exact depth_lt_of_field hf

theorem mergeDefinitionValue_accepts (h : min (height target) (height source) + depth ≤ 32) :
    Accepts (mergeDefinitionValue resolutions (pointerOf path) base target source depth) := by
  have hd : depth ≤ 32 := by omega
  induction path, base, target, source using combine_induction generalizing depth with
  | kept path base target source hs => exact ⟨_, mergeDefinitionValue_kept hd hs⟩
  | taken path base target source hs ht => exact ⟨_, mergeDefinitionValue_taken hd hs ht⟩
  | object path base left right hs ht hb ih =>
      have hall : ∀ key, Accepts (mergeDefinitionValue resolutions (pointerOf (path ++ [key]))
          (Members.field (ancestorOf base) key) (Members.field left key) (Members.field right key) (depth + 1)) := by
        intro key
        have hl := height_field_lt left key
        have hr := height_field_lt right key
        exact ih key (by omega) (by omega)
      choose f hf using hall
      rw [mergeDefinitionValue_object hd hs ht hb, accepts_bind]
      refine ⟨(Members.unionKeys [left, right, ancestorOf base]).map f, ?_, ⟨_, rfl⟩⟩
      rw [mapM_eq_ok, List.forall₂_map_right_iff, List.forall₂_same]
      exact fun key _ => hf key
  | clash path base target source hs => exact ⟨_, mergeDefinitionValue_clash hd hs⟩

/-- The depth limit is the only reason for a merge to fail. -/
theorem mergeDefinitionValue_error {e : String}
    (h : mergeDefinitionValue resolutions (pointerOf path) base target source depth = .error e) :
    e = "pipeline merge depth exceeded" := by
  by_cases hd : depth ≤ 32
  · induction path, base, target, source using combine_induction generalizing depth with
    | kept path base target source hs => cases (mergeDefinitionValue_kept hd hs).symm.trans h
    | taken path base target source hs ht => cases (mergeDefinitionValue_taken hd hs ht).symm.trans h
    | object path base left right hs ht hb ih =>
        rw [mergeDefinitionValue_object hd hs ht hb, bind_eq_error] at h
        rcases h with h | ⟨_, -, h⟩
        · obtain ⟨key, hkey⟩ := mapM_eq_error h
          by_cases hd' : depth + 1 ≤ 32
          · exact ih key hkey hd'
          · rw [mergeDefinitionValue.eq_def, if_pos (Nat.lt_of_not_le hd')] at hkey
            exact (Except.error.inj hkey).symm
        · cases h
    | clash path base target source hs => cases (mergeDefinitionValue_clash hd hs).symm.trans h
  · rw [mergeDefinitionValue.eq_def, if_pos (Nat.lt_of_not_le hd)] at h
    exact (Except.error.inj h).symm

end Galadril.Registry.Pipeline
