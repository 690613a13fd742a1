import Galadril.Intake.SchemaDocuments

namespace Galadril.Intake.Schemas

open Json Lib.Arranging Lib.Checked Lib.Entries Lib.Fuel Lib.Mapping Lib.Worklist Relation
open Std (ExtTreeMap)

structure Arranged (ordered : List SchemaDescriptor) : Prop where
  distinct : (ordered.map SchemaDescriptor.fullname).Nodup
  after : ∀ before d rest, ordered = before ++ d :: rest → ∀ x ∈ d.dependencies, ∃ earlier ∈ before, earlier.fullname = x

theorem Arranged.start {before rest : List SchemaDescriptor} (h : Arranged (before ++ rest)) : Arranged before := by
  refine ⟨?_, fun first d last he => h.after first d (last ++ rest) (by rw [he]; simp)⟩
  have hdistinct := h.distinct
  rw [List.map_append] at hdistinct
  exact (List.nodup_append.mp hdistinct).1

variable {before : List SchemaDescriptor}

theorem Arranged.lookup (h : Arranged before) {n : String} {info : RegisteredInfo} :
    (registeredOf before)[n]? = some info ↔ ∃ d ∈ before, d.fullname = n ∧
    (⟨d.content, d.dependencies⟩ : RegisteredInfo) = info := by
  have hkeys : (before.map fun d => (d.fullname, (⟨d.content, d.dependencies⟩ : RegisteredInfo))).map Prod.fst =
      before.map SchemaDescriptor.fullname := by
    rw [List.map_map]
    rfl
  rw [registeredOf, getElem?_ofList (by rw [hkeys]; exact h.distinct), List.mem_map]
  simp only [Prod.mk.injEq]

theorem settles_foldlM {α β : Type} {f : β → α → Fueled String β} {xs : List α}
    (h : ∀ x ∈ xs, ∀ b, ∃ b', Settles (f b x) (.ok b')) (b : β) : ∃ b', Settles (xs.foldlM f b) (.ok b') := by
  induction xs generalizing b with
  | nil => exact ⟨b, settles_pure b⟩
  | cons x xs ih =>
      rw [List.forall_mem_cons] at h
      obtain ⟨next, hnext⟩ := h.1 b
      obtain ⟨last, hlast⟩ := ih h.2 next
      exact ⟨last, by rw [List.foldlM_cons]; exact settles_bind hnext hlast⟩

/-- Dependencies nest at most as deeply as the plan is long. -/
theorem Arranged.append_settles (h : Arranged before) (fuel : Nat) {first : List SchemaDescriptor} {d : SchemaDescriptor}
    {last : List SchemaDescriptor} (he : before = first ++ d :: last) (hfuel : first.length < fuel)
    (acc : List String × List String) :
    ∃ acc', Settles (appendCompilationDependency (registeredOf before) fuel acc d.fullname) (.ok acc') := by
  induction fuel generalizing first d last acc with
  | zero => omega
  | succ fuel ih =>
      rw [appendCompilationDependency]
      split
      · exact ⟨acc, settles_pure acc⟩
      · have hinfo : (registeredOf before)[d.fullname]? = some ⟨d.content, d.dependencies⟩ :=
          h.lookup.mpr ⟨d, by simp [he], rfl, rfl⟩
        have hnested : ∀ x ∈ d.dependencies, ∀ acc, ∃ acc', Settles (appendCompilationDependency (registeredOf before) fuel acc x)
            (.ok acc') := by
          intro x hx acc
          obtain ⟨earlier, hearlier, rfl⟩ := h.after first d last he x hx
          obtain ⟨start, between, rfl⟩ := List.append_of_mem hearlier
          have hsplit : before = start ++ earlier :: (between ++ d :: last) := by simp [he]
          refine ih hsplit ?_ acc
          rw [List.length_append, List.length_cons] at hfuel
          omega
        obtain ⟨acc', hacc'⟩ := settles_foldlM hnested (d.fullname :: acc.1, acc.2)
        refine ⟨(acc'.1, acc'.2 ++ [d.content]), ?_⟩
        rw [hinfo]
        exact settles_bind (settles_lift _) (settles_bind hacc' (settles_pure _))

theorem Arranged.compilation_settles (h : Arranged before) {d : SchemaDescriptor}
    (hd : ∀ x ∈ d.dependencies, ∃ earlier ∈ before, earlier.fullname = x) {fuel : Nat} (hfuel : before.length ≤ fuel) :
    ∃ compilation, Settles (compilationContext (registeredOf before) fuel d) (.ok (compilation ++ [d.content])) := by
  have hnested : ∀ x ∈ d.dependencies, ∀ acc, ∃ acc', Settles (appendCompilationDependency (registeredOf before) fuel acc x)
      (.ok acc') := by
    intro x hx acc
    obtain ⟨earlier, hearlier, rfl⟩ := hd x hx
    obtain ⟨start, between, he⟩ := List.append_of_mem hearlier
    refine h.append_settles fuel he ?_ acc
    rw [he, List.length_append, List.length_cons] at hfuel
    omega
  obtain ⟨acc, hacc⟩ := settles_foldlM hnested ([], [])
  exact ⟨acc.2, settles_bind hacc (settles_pure _)⟩

variable {parse : String → Except String Value} {uppercase : Char → Bool} {raw : List (String × String)}

theorem parseRoot_content {first : String × String} {root : ParsedRoot} (h : parseRoot parse first = .ok root) :
    parse root.content = .ok root.value := by
  simp only [parseRoot, bind_eq_ok, mapError_eq_ok, pure_eq_ok] at h
  obtain ⟨value, hvalue, _, -, _, -, _, -, _, -, rfl⟩ := h
  exact hvalue

theorem mem_references {root : ParsedRoot} {y : String} (h : y ∈ root.references uppercase) : y ∈ strings root.value := by
  rw [ParsedRoot.references, collectFullnameReferences, List.mem_filter, Std.ExtTreeSet.mem_toList, Std.ExtTreeSet.mem_ofList,
    List.contains_iff_mem, List.mem_filter] at h
  exact h.1.1

/-- The document of a schema in which each name it reaches is defined where it
occurs first. -/
structure Inlines (contents : String → Option Value) (value : Value) (a : Marked) : Prop where
  source : a.source = value
  faithful : a.Faithful contents
  reached : ∀ n, n ∈ a.occurrences.map Occurrence.name ↔ Reaches contents value n
  once : ∀ n, Reaches contents value n →
    ∃ before after, a.occurrences = before ++ .defined n :: after ∧ n ∉ before.map Occurrence.name ∧ .defined n ∉ after

section Plan

variable {roots : List ParsedRoot} {ordered before after : List SchemaDescriptor} {d : SchemaDescriptor}

structure Planned (parse : String → Except String Value) (uppercase : Char → Bool) (roots : List ParsedRoot)
    (ordered : List SchemaDescriptor) : Prop where
  arranged : Arranged ordered
  readable : ∀ root ∈ roots, parse root.content = .ok root.value
  distinct : (roots.map ParsedRoot.fullname).Nodup
  listed : ∀ d, d ∈ ordered ↔ ∃ root ∈ roots, root.descriptor uppercase = d

theorem plan_planned (h : schemaRegistrationPlan parse uppercase raw = .ok ordered) :
    ∃ roots, raw.mapM (parseRoot parse) = .ok roots ∧ ordered.Perm (roots.map (ParsedRoot.descriptor uppercase)) ∧
      Planned parse uppercase roots ordered := by
  obtain ⟨roots, hroots, hnodup, hperm, hafter⟩ := plan_ordered h
  refine ⟨roots, hroots, hperm, ⟨?_, hafter⟩, fun root hroot => ?_, hnodup, fun d => ?_⟩
  · rw [(hperm.map _).nodup_iff, fullname_descriptor]
    exact hnodup
  · obtain ⟨first, -, hfirst⟩ := (mem_mapM hroots).mp hroot
    exact parseRoot_content hfirst
  · rw [hperm.mem_iff, List.mem_map]

theorem Planned.contents_eq (h : Planned parse uppercase roots (before ++ d :: after)) {root : ParsedRoot} (hroot : root ∈ roots)
    (hbefore : root.descriptor uppercase ∈ before) : contentsOf parse (registeredOf before) root.fullname = some root.value := by
  have hinfo : (registeredOf before)[root.fullname]? = some ⟨root.content, root.references uppercase⟩ :=
    h.arranged.start.lookup.mpr ⟨_, hbefore, rfl, rfl⟩
  simp [contentsOf, hinfo, h.readable root hroot, Except.toOption]

theorem Planned.root_unique (h : Planned parse uppercase roots ordered) {root root' : ParsedRoot} (hroot : root ∈ roots)
    (hroot' : root' ∈ roots) (he : root.fullname = root'.fullname) : root = root' :=
  List.inj_on_of_nodup_map h.distinct hroot hroot' he

/-- Every schema that another one refers to, however indirectly, is reached by
its document. -/
theorem Planned.reaches (h : Planned parse uppercase roots (before ++ d :: after)) {root : ParsedRoot} (hroot : root ∈ roots)
    (hd : root.descriptor uppercase = d) {x : String} (hx : TransGen (Refers uppercase roots) d.fullname x) :
    Reaches (contentsOf parse (registeredOf before)) root.value x ∧
      ∃ other ∈ roots, other.fullname = x ∧ other.descriptor uppercase ∈ before := by
  have hearlier : ∀ y, (∃ e ∈ before, e.fullname = y) → ∃ other ∈ roots, other.fullname = y ∧
    other.descriptor uppercase ∈ before := by
    rintro y ⟨e, he, rfl⟩
    obtain ⟨other, hother, rfl⟩ := (h.listed e).mp (List.mem_append_left _ he)
    exact ⟨other, hother, rfl, he⟩
  induction hx with
  | single hstep =>
      obtain ⟨root', hroot', hname, hy⟩ := hstep
      obtain rfl := h.root_unique hroot' hroot (hname.trans (by rw [← hd]; rfl))
      have hbefore := hearlier _ (h.arranged.after before d after rfl _ (by rw [← hd]; exact hy))
      obtain ⟨other, hother, rfl, hin⟩ := hbefore
      refine ⟨⟨other.fullname, mem_references hy, by simp [h.contents_eq hother hin], .refl⟩, other, hother, rfl, hin⟩
  | tail _ hstep ih =>
      obtain ⟨⟨y, hy, hsome, hpath⟩, other, hother, rfl, hin⟩ := ih
      obtain ⟨other', hother', hname, hz⟩ := hstep
      obtain rfl := h.root_unique hother' hother hname
      obtain ⟨first, last, hsplit⟩ := List.append_of_mem hin
      obtain ⟨e, he, hez⟩ := h.arranged.start.after first _ last hsplit _ hz
      obtain ⟨next, hnext, rfl, hin'⟩ := hearlier _ ⟨e, by simp [hsplit, he], hez⟩
      refine ⟨⟨y, hy, hsome, hpath.tail ⟨other'.value, h.contents_eq hother hin, mem_references hz, ?_⟩⟩, next, hnext, rfl, hin'⟩
      simp [h.contents_eq hnext hin']

/-- Inlining a schema of a plan ends, with a document that marks its names. -/
theorem Planned.inlines (h : Planned parse uppercase roots (before ++ d :: after)) {root : ParsedRoot} (hroot : root ∈ roots)
    (hd : root.descriptor uppercase = d) {fuel : Nat} (hfuel : before.length ≤ fuel) :
    ∃ a, Inlines (contentsOf parse (registeredOf before)) root.value a ∧
      Settles (inlineRegistryDependencies parse (registeredOf before) fuel d) (.ok (String.ofList a.resolved.render)) := by
  have hregistered := h.arranged.start
  have hU : ∀ (n : String) info, (registeredOf before)[n]? = some info → n ∈ before.map SchemaDescriptor.fullname := by
    intro n info hinfo
    obtain ⟨e, he, rfl, -⟩ := hregistered.lookup.mp hinfo
    exact List.mem_map_of_mem he
  have hreadable : ∀ (n : String) info, (registeredOf before)[n]? = some info → Accepts (parse info.content) := by
    intro n info hinfo
    obtain ⟨e, he, -, rfl⟩ := hregistered.lookup.mp hinfo
    obtain ⟨other, hother, rfl⟩ := (h.listed e).mp (List.mem_append_left _ he)
    exact ⟨_, h.readable other hother⟩
  have hunseen : unseen (before.map SchemaDescriptor.fullname) [] ≤ fuel := by
    refine le_trans (Finset.card_le_card Finset.sdiff_subset) ((List.toFinset_card_le _).trans ?_)
    rwa [List.length_map]
  obtain ⟨a, hsource, hfaithful, hintroduces, hrun⟩ :=
    inlineValue_marks (inlineName_expands hU hreadable fuel) root.value [] hunseen
  have hmem : ∀ n, n ∈ a.occurrences.map Occurrence.name ↔ Reaches (contentsOf parse (registeredOf before)) root.value n :=
    fun n => hsource ▸ Faithful.mem_occurrences hfaithful hintroduces
  refine ⟨a, ⟨hsource, hfaithful, hmem, fun n hn => hintroduces.once ((hmem n).mpr hn) List.not_mem_nil⟩, ?_⟩
  have hcontent : parse d.content = .ok root.value := by
    rw [← hd]
    exact h.readable root hroot
  rw [inlineRegistryDependencies, hcontent]
  exact settles_bind (settles_lift _) (settles_bind hrun (settles_pure _))

end Plan

/-- A plan does not depend on the order of its input. It exists unless a root
cannot be read, a full name is repeated, a reference is missing or the references
are cyclic, and it lists the schemas after all those they refer to. Along a
plan no compilation misses a dependency and inlining ends; the result has the
definition of every schema it reaches in the place of the first occurrence of
its name, and no other occurrence is replaced. -/
theorem schema_plan_exact (parse : String → Except String Value) (uppercase : Char → Bool) (raw : List (String × String)) :
    (∀ raw' ordered, raw.Perm raw' →
      (schemaRegistrationPlan parse uppercase raw' = .ok ordered ↔ schemaRegistrationPlan parse uppercase raw = .ok ordered)) ∧
    (Accepts (schemaRegistrationPlan parse uppercase raw) ↔ ∃ roots, raw.mapM (parseRoot parse) = .ok roots ∧
      (roots.map ParsedRoot.fullname).Nodup ∧ Present uppercase roots ∧ ∀ x, ¬ TransGen (Refers uppercase roots) x x) ∧
    ∀ ordered, schemaRegistrationPlan parse uppercase raw = .ok ordered → ∃ roots, raw.mapM (parseRoot parse) = .ok roots ∧
      ordered.Perm (roots.map (ParsedRoot.descriptor uppercase)) ∧
      ∀ before d after, ordered = before ++ d :: after →
        (∀ x ∈ d.dependencies, ∃ earlier ∈ before, earlier.fullname = x) ∧
        ∀ fuel ≥ before.length,
          (∃ compilation, Settles (compilationContext (registeredOf before) fuel d) (.ok (compilation ++ [d.content]))) ∧
          ∃ value a, parse d.content = .ok value ∧ Inlines (contentsOf parse (registeredOf before)) value a ∧
            Settles (inlineRegistryDependencies parse (registeredOf before) fuel d) (.ok (String.ofList a.resolved.render)) ∧
            ∀ x, TransGen (Refers uppercase roots) d.fullname x → Reaches (contentsOf parse (registeredOf before)) value x := by
  refine ⟨fun raw' ordered hperm => ⟨fun h => plan_perm hperm.symm h, fun h => plan_perm hperm h⟩, plan_accepts,
    fun ordered h => ?_⟩
  obtain ⟨roots, hroots, hperm, hplanned⟩ := plan_planned h
  refine ⟨roots, hroots, hperm, ?_⟩
  rintro before d after rfl
  have hbefore := hplanned.arranged.after before d after rfl
  obtain ⟨root, hroot, hd⟩ := (hplanned.listed d).mp (List.mem_append_right _ List.mem_cons_self)
  refine ⟨hbefore, fun fuel hfuel => ⟨hplanned.arranged.start.compilation_settles hbefore hfuel, ?_⟩⟩
  obtain ⟨a, hinlines, hrun⟩ := hplanned.inlines hroot hd hfuel
  refine ⟨root.value, a, ?_, hinlines, hrun, fun x hx => (hplanned.reaches hroot hd hx).1⟩
  rw [← hd]
  exact hplanned.readable root hroot

def spaceOf (fullname : String) : String := String.ofList ((fullname.toList.reverse.dropWhile (· ≠ '.')).drop 1).reverse

/-- The full name of a named type, which takes the nearest namespace unless it
has dots itself. -/
def typeName (space : String) (members : Members) : Option String := do
  let type ← (Members.field members "type").bind Value.asStr
  guard (["record", "enum", "fixed"].contains type)
  let name ← (Members.field members "name").bind Value.asStr
  return if name.toList.contains '.' then name else s!"{space}.{name}"

mutual

def definitions (space : String) : Value → List String
  | .object members =>
      let space := ((Members.field members "namespace").bind Value.asStr).getD space
      match typeName space members with
      | some fullname => fullname :: memberDefinitions (spaceOf fullname) members
      | none => memberDefinitions space members
  | .array items => itemDefinitions space items
  | .null => []
  | .bool _ => []
  | .number _ => []
  | .string _ => []

def itemDefinitions (space : String) : List Value → List String
  | [] => []
  | item :: items => definitions space item ++ itemDefinitions space items

def memberDefinitions (space : String) : Members → List String
  | [] => []
  | (_, v) :: members => definitions space v ++ memberDefinitions space members

end

def DefinesOnce (parse : String → Except String Value) (uppercase : Char → Bool) (raw : List (String × String)) : Prop :=
  ∀ roots before d after document, raw.mapM (parseRoot parse) = .ok roots →
    schemaRegistrationPlan parse uppercase raw = .ok (before ++ d :: after) →
    Settles (inlineRegistryDependencies parse (registeredOf before) before.length d) (.ok (String.ofList document.render)) →
    ∀ x, TransGen (Refers uppercase roots) d.fullname x → (definitions "" document).count x = 1

def tupleRecord (space : Members) : Value :=
  .object ([("type", .string "record"), ("name", .string "AuthzTuple")] ++ space ++ [("fields", .array [])])

def tupleSchema : Value := tupleRecord [("namespace", .string "com.galadril.auth")]

def fieldOf (name : String) (type : Value) : Value := .object [("name", .string name), ("type", type)]

def recordSchema (name : String) (fields : List Value) : Value :=
  .object [("type", .string "record"), ("name", .string name), ("namespace", .string "com.galadril.auth"),
    ("fields", .array fields)]

def authzSchema : Value := recordSchema "Authz"
  [fieldOf "tuples" (.object [("type", .string "array"), ("items", tupleRecord [])])]

def grantSchema : Value := recordSchema "Grant"
  [fieldOf "authz" (.string "com.galadril.auth.Authz"), fieldOf "tuple" (.string "com.galadril.auth.AuthzTuple")]

def textOf (v : Value) : String := String.ofList v.render

def grantSchemas : List (String × String) :=
  [("authz.avsc", textOf authzSchema), ("authz_tuple.avsc", textOf tupleSchema), ("grant.avsc", textOf grantSchema)]

def grantParse (text : String) : Except String Value :=
  context ([authzSchema, tupleSchema, grantSchema].find? fun v => textOf v == text) "unreadable"

def grantDocument : Value := recordSchema "Grant" [fieldOf "authz" authzSchema, fieldOf "tuple" tupleSchema]

def grantRoots : List ParsedRoot :=
  [⟨"authz.avsc", textOf authzSchema, authzSchema, "com.galadril.auth.Authz"⟩,
    ⟨"authz_tuple.avsc", textOf tupleSchema, tupleSchema, "com.galadril.auth.AuthzTuple"⟩,
    ⟨"grant.avsc", textOf grantSchema, grantSchema, "com.galadril.auth.Grant"⟩]

def grantPlan : List SchemaDescriptor := grantRoots.map (ParsedRoot.descriptor Char.isUpper)

theorem grant_roots : grantSchemas.mapM (parseRoot grantParse) = .ok grantRoots := by decide +kernel

theorem grant_plan : schemaRegistrationPlan grantParse Char.isUpper grantSchemas = .ok grantPlan := by
  refine schemaRegistrationPlan_eq_ok.mpr ⟨grantRoots, grant_roots, by decide +kernel, ?_, ?_⟩
  · unfold Present
    decide +kernel
  · have hsorted : grantPlan.Pairwise fun a b => byName a b = true := by decide +kernel
    rw [← grantPlan, List.mergeSort_of_pairwise hsorted]
    decide +kernel

theorem schema_plan_exact_grant : (∀ raw', grantSchemas.Perm raw' →
      schemaRegistrationPlan grantParse Char.isUpper raw' = .ok grantPlan) ∧
    ∃ value a, Inlines (contentsOf grantParse (registeredOf (grantPlan.take 2))) value a ∧
      ∃ d ∈ grantPlan, Settles (inlineRegistryDependencies grantParse (registeredOf (grantPlan.take 2)) 2 d)
        (.ok (String.ofList a.resolved.render)) := by
  obtain ⟨horder, -, hplan⟩ := schema_plan_exact grantParse Char.isUpper grantSchemas
  refine ⟨fun raw' hperm => (horder raw' grantPlan hperm).mpr grant_plan, ?_⟩
  obtain ⟨roots, -, -, hsteps⟩ := hplan grantPlan grant_plan
  obtain ⟨-, hdocuments⟩ := hsteps (grantPlan.take 2) _ [] rfl
  obtain ⟨-, value, a, -, hinlines, hrun, -⟩ := hdocuments 2 (by decide)
  exact ⟨value, a, hinlines, _, by simp [grantPlan, grantRoots], hrun⟩

/-- The document of the grant has two definitions of the tuple: the schema of
the tuple is inlined beside the definition nested in the authorization. -/
theorem nested_definition_repeated : ¬ DefinesOnce grantParse Char.isUpper grantSchemas := by
  intro h
  have hrefers : Refers Char.isUpper grantRoots "com.galadril.auth.Grant" "com.galadril.auth.AuthzTuple" := by
    unfold Refers
    decide +kernel
  have hrun : Settles (inlineRegistryDependencies grantParse (registeredOf (grantPlan.take 2)) 2 grantPlan[2])
      (.ok (String.ofList grantDocument.render)) := by
    unfold Settles
    decide +kernel
  have hcount := h grantRoots (grantPlan.take 2) grantPlan[2] [] grantDocument grant_roots grant_plan hrun _ (.single hrefers)
  have htwice : (definitions "" grantDocument).count "com.galadril.auth.AuthzTuple" = 2 := by decide +kernel
  omega

end Galadril.Intake.Schemas
