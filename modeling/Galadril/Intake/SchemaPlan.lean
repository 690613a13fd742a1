import Galadril.Intake.Schemas

namespace Galadril.Intake.Schemas

open Json Lib.Arranging Lib.Checked Lib.Mapping Relation
open Std (ExtTreeMap ExtTreeSet)

variable {parse : String → Except String Value} {uppercase : Char → Bool} {raw : List (String × String)} {roots : List ParsedRoot}

theorem addRoots_eq_ok {acc parsed : List ParsedRoot} (hacc : (acc.map ParsedRoot.fullname).Nodup) :
    raw.foldlM (addRoot parse) acc = .ok parsed ↔
      ∃ roots, raw.mapM (parseRoot parse) = .ok roots ∧ parsed = acc ++ roots ∧ (parsed.map ParsedRoot.fullname).Nodup := by
  induction raw generalizing acc with
  | nil =>
      simp only [List.foldlM_nil, List.mapM_nil, pure_eq_ok]
      constructor
      · rintro rfl
        exact ⟨[], rfl, (List.append_nil _).symm, hacc⟩
      · rintro ⟨_, rfl, rfl, -⟩
        exact (List.append_nil _).symm
  | cons first raw ih =>
      simp only [List.foldlM_cons, List.mapM_cons, addRoot, bind_eq_ok, pure_eq_ok, ensure_eq_ok, Bool.not_eq_true',
        ← Bool.not_eq_true, List.contains_iff_mem]
      have hsnoc (root : ParsedRoot) : ((acc ++ [root]).map ParsedRoot.fullname).Nodup ↔
          root.fullname ∉ acc.map ParsedRoot.fullname := by
        rw [List.map_append, List.map_singleton, ← List.concat_eq_append, List.nodup_concat, and_iff_left hacc]
      constructor
      · rintro ⟨_, ⟨root, hroot, _, hnew, rfl⟩, hrest⟩
        obtain ⟨roots, hroots, rfl, hnodup⟩ := (ih ((hsnoc root).mpr hnew)).mp hrest
        exact ⟨root :: roots, ⟨root, hroot, roots, hroots, rfl⟩, by simp, hnodup⟩
      · rintro ⟨_, ⟨root, hroot, roots, hroots, rfl⟩, rfl, hnodup⟩
        have hsplit : acc ++ root :: roots = acc ++ [root] ++ roots := by simp
        have hfirst : ((acc ++ [root]).map ParsedRoot.fullname).Nodup := by
          rw [hsplit, List.map_append] at hnodup
          exact (List.nodup_append.mp hnodup).1
        exact ⟨_, ⟨root, hroot, (), (hsnoc root).mp hfirst, rfl⟩, (ih hfirst).mpr ⟨roots, hroots, hsplit, hnodup⟩⟩

def Present (uppercase : Char → Bool) (roots : List ParsedRoot) : Prop :=
  ∀ root ∈ roots, ∀ reference ∈ root.references uppercase, reference ∈ roots.map ParsedRoot.fullname

theorem describe_eq_ok {names : List String} {root : ParsedRoot} {d : SchemaDescriptor} : describe uppercase names root = .ok d ↔
    (∀ reference ∈ root.references uppercase, reference ∈ names) ∧ d = root.descriptor uppercase := by
  simp only [describe, bind_eq_ok, pure_eq_ok]
  have hchecks : ∀ (references : List String) (u : Unit), (references.forM fun reference =>
      ensure (names.contains reference) ("schema " ++ quotedPath root.path ++ " references missing root " ++ reference)) =
        (.ok u : Except String Unit) ↔ ∀ reference ∈ references, reference ∈ names := by
    intro references u
    induction references with
    | nil => simp [pure, Except.pure]
    | cons reference references ih =>
        have hcons : (reference :: references).forM (fun reference => ensure (names.contains reference)
            ("schema " ++ quotedPath root.path ++ " references missing root " ++ reference)) =
            (ensure (names.contains reference) ("schema " ++ quotedPath root.path ++ " references missing root " ++ reference) >>=
              fun _ => references.forM fun reference => ensure (names.contains reference)
                ("schema " ++ quotedPath root.path ++ " references missing root " ++ reference) : Except String Unit) := rfl
        rw [hcons, bind_eq_ok, List.forall_mem_cons, ← ih]
        simp
  constructor
  · rintro ⟨u, hu, rfl⟩
    exact ⟨(hchecks _ u).mp hu, rfl⟩
  · rintro ⟨hall, rfl⟩
    exact ⟨(), (hchecks _ ()).mpr hall, rfl⟩

theorem describeAll_eq_ok {names : List String} {descriptors : List SchemaDescriptor} :
    roots.mapM (describe uppercase names) = .ok descriptors ↔
      (∀ root ∈ roots, ∀ reference ∈ root.references uppercase, reference ∈ names) ∧
        descriptors = roots.map (ParsedRoot.descriptor uppercase) := by
  induction roots generalizing descriptors with
  | nil =>
      rw [List.mapM_nil, pure_eq_ok]
      simp [eq_comm]
  | cons root roots ih =>
      simp only [List.mapM_cons, bind_eq_ok, pure_eq_ok, describe_eq_ok, ih, List.forall_mem_cons, List.map_cons]
      constructor
      · rintro ⟨_, ⟨hroot, rfl⟩, _, ⟨hroots, rfl⟩, rfl⟩
        exact ⟨⟨hroot, hroots⟩, rfl⟩
      · rintro ⟨⟨hroot, hroots⟩, rfl⟩
        exact ⟨_, ⟨hroot, rfl⟩, _, ⟨hroots, rfl⟩, rfl⟩

variable {roots' : List ParsedRoot}

def byName (left right : SchemaDescriptor) : Bool := decide (left.fullname ≤ right.fullname)

theorem pairwise_byName (descriptors : List SchemaDescriptor) :
    (descriptors.mergeSort byName).Pairwise fun a b => byName a b = true := by
  refine List.pairwise_mergeSort (fun a b c hab hbc => ?_) (fun a b => ?_) descriptors
  · simp only [byName, decide_eq_true_eq] at *
    exact hab.trans hbc
  · simp only [byName, Bool.or_eq_true, decide_eq_true_eq]
    exact le_total _ _

theorem mergeSort_perm_eq {descriptors descriptors' : List SchemaDescriptor} (hperm : descriptors.Perm descriptors')
    (hdistinct : (descriptors.map SchemaDescriptor.fullname).Nodup) :
      descriptors.mergeSort byName = descriptors'.mergeSort byName := by
  have hsorted := List.mergeSort_perm descriptors byName
  refine List.Perm.eq_of_pairwise (fun a b ha hb hab hba => ?_) (pairwise_byName _) (pairwise_byName _)
    (hsorted.trans (hperm.trans (List.mergeSort_perm descriptors' byName).symm))
  simp only [byName, decide_eq_true_eq] at hab hba
  have hb' : b ∈ descriptors := hperm.mem_iff.mpr ((List.mergeSort_perm descriptors' byName).mem_iff.mp hb)
  exact List.inj_on_of_nodup_map hdistinct (hsorted.mem_iff.mp ha) hb' (le_antisymm hab hba)

variable {raw' : List (String × String)}

theorem schemaRegistrationPlan_eq_ok {ordered : List SchemaDescriptor} : schemaRegistrationPlan parse uppercase raw = .ok ordered ↔
    ∃ roots, raw.mapM (parseRoot parse) = .ok roots ∧ (roots.map ParsedRoot.fullname).Nodup ∧ Present uppercase roots ∧
      arrange SchemaDescriptor.fullname SchemaDescriptor.dependencies roots.length []
        ((roots.map (ParsedRoot.descriptor uppercase)).mergeSort byName) = .ok ordered := by
  have hempty : (([] : List ParsedRoot).map ParsedRoot.fullname).Nodup := List.nodup_nil
  simp only [schemaRegistrationPlan, bind_eq_ok, addRoots_eq_ok hempty, describeAll_eq_ok, mapError_eq_ok, List.nil_append]
  constructor
  · rintro ⟨_, ⟨roots, hroots, rfl, hnodup⟩, _, ⟨hpresent, rfl⟩, harranged⟩
    refine ⟨_, hroots, hnodup, hpresent, ?_⟩
    rwa [List.length_mergeSort, List.length_map] at harranged
  · rintro ⟨roots, hroots, hnodup, hpresent, harranged⟩
    refine ⟨roots, ⟨roots, hroots, rfl, hnodup⟩, _, ⟨hpresent, rfl⟩, ?_⟩
    rwa [List.length_mergeSort, List.length_map]

theorem fullname_descriptor (roots : List ParsedRoot) :
    (roots.map (ParsedRoot.descriptor uppercase)).map SchemaDescriptor.fullname = roots.map ParsedRoot.fullname := by
  rw [List.map_map]
  rfl

theorem plan_perm (hperm : raw.Perm raw') {ordered : List SchemaDescriptor}
    (h : schemaRegistrationPlan parse uppercase raw = .ok ordered) : schemaRegistrationPlan parse uppercase raw' = .ok ordered := by
  obtain ⟨roots, hroots, hnodup, hpresent, harranged⟩ := schemaRegistrationPlan_eq_ok.mp h
  obtain ⟨roots', hroots', hperm'⟩ := mapM_perm hperm hroots
  have hnames := hperm'.map ParsedRoot.fullname
  refine schemaRegistrationPlan_eq_ok.mpr ⟨roots', hroots', hnames.nodup_iff.mp hnodup, ?_, ?_⟩
  · intro root hroot reference hreference
    exact hnames.mem_iff.mp (hpresent root (hperm'.mem_iff.mpr hroot) reference hreference)
  · have hdistinct : ((roots.map (ParsedRoot.descriptor uppercase)).map SchemaDescriptor.fullname).Nodup := by
      rwa [fullname_descriptor]
    rwa [← mergeSort_perm_eq (hperm'.map _) hdistinct, ← hperm'.length_eq]

def Refers (uppercase : Char → Bool) (roots : List ParsedRoot) (x y : String) : Prop :=
  ∃ root ∈ roots, root.fullname = x ∧ y ∈ root.references uppercase

theorem needs_iff {roots : List ParsedRoot} {x y : String} : Needs SchemaDescriptor.fullname SchemaDescriptor.dependencies
    ((roots.map (ParsedRoot.descriptor uppercase)).mergeSort byName) x y ↔ Refers uppercase roots x y := by
  constructor
  · rintro ⟨d, hd, rfl, hy⟩
    rw [List.mem_mergeSort] at hd
    obtain ⟨root, hroot, rfl⟩ := List.mem_map.mp hd
    exact ⟨root, hroot, rfl, hy⟩
  · rintro ⟨root, hroot, rfl, hy⟩
    exact ⟨_, List.mem_mergeSort.mpr (List.mem_map_of_mem hroot), rfl, hy⟩

theorem needs_eq {roots : List ParsedRoot} : Needs SchemaDescriptor.fullname SchemaDescriptor.dependencies
    ((roots.map (ParsedRoot.descriptor uppercase)).mergeSort byName) = Refers uppercase roots :=
  funext fun _ => funext fun _ => propext needs_iff

/-- Planning fails for an unreadable root, a repeated name, a missing reference
or a cycle only. -/
theorem plan_accepts : Accepts (schemaRegistrationPlan parse uppercase raw) ↔ ∃ roots, raw.mapM (parseRoot parse) = .ok roots ∧
    (roots.map ParsedRoot.fullname).Nodup ∧ Present uppercase roots ∧ ∀ x, ¬ TransGen (Refers uppercase roots) x x := by
  constructor
  · rintro ⟨ordered, h⟩
    obtain ⟨roots, hroots, hnodup, hpresent, harranged⟩ := schemaRegistrationPlan_eq_ok.mp h
    refine ⟨roots, hroots, hnodup, hpresent, fun x => ?_⟩
    have hdistinct : (((roots.map (ParsedRoot.descriptor uppercase)).mergeSort byName).map SchemaDescriptor.fullname).Nodup := by
      rw [((List.mergeSort_perm _ byName).map _).nodup_iff, fullname_descriptor]
      exact hnodup
    have hno := no_cycle_of_arrange harranged hdistinct x
    rwa [needs_eq] at hno
  · rintro ⟨roots, hroots, hnodup, hpresent, hacyclic⟩
    have hsorted := List.mergeSort_perm (roots.map (ParsedRoot.descriptor uppercase)) byName
    have hclosed : ∀ d ∈ (roots.map (ParsedRoot.descriptor uppercase)).mergeSort byName, ∀ k ∈ d.dependencies,
        k ∈ ([] : List String) ∨ k ∈ ((roots.map (ParsedRoot.descriptor uppercase)).mergeSort byName).map
          SchemaDescriptor.fullname := by
      intro d hd k hk
      obtain ⟨root, hroot, rfl⟩ := List.mem_map.mp (hsorted.mem_iff.mp hd)
      refine .inr ((hsorted.map _).mem_iff.mpr ?_)
      rw [fullname_descriptor]
      exact hpresent root hroot k hk
    obtain ⟨ordered, hordered⟩ := arrange_accepts (by rw [hsorted.length_eq, List.length_map]) hclosed
      (acc_of_no_cycle (by rwa [needs_eq]))
    exact ⟨ordered, schemaRegistrationPlan_eq_ok.mpr ⟨roots, hroots, hnodup, hpresent, hordered⟩⟩

theorem plan_ordered {ordered : List SchemaDescriptor} (h : schemaRegistrationPlan parse uppercase raw = .ok ordered) :
    ∃ roots, raw.mapM (parseRoot parse) = .ok roots ∧ (roots.map ParsedRoot.fullname).Nodup ∧
      ordered.Perm (roots.map (ParsedRoot.descriptor uppercase)) ∧
      ∀ before d after, ordered = before ++ d :: after → ∀ x ∈ d.dependencies, ∃ earlier ∈ before, earlier.fullname = x := by
  obtain ⟨roots, hroots, hnodup, -, harranged⟩ := schemaRegistrationPlan_eq_ok.mp h
  obtain ⟨hperm, hafter⟩ := arrange_ok harranged
  refine ⟨roots, hroots, hnodup, hperm.trans (List.mergeSort_perm _ byName), fun before d after he x hx => ?_⟩
  exact (hafter before d after he x hx).resolve_left List.not_mem_nil

end Galadril.Intake.Schemas
