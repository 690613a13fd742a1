import Galadril.Registry.SliceClosure

namespace Galadril.Registry.Ontology

open Json Lib.Checked Relation

def sliceOf (o : Value) (version : Value) (S : String → Bool) : Value :=
  .object [("version", version), ("resources", .array ((resourcesOf o).filter fun v => (resourceId v).any S))]

variable {vs : List Value} {rs : List Resource} {S : String → Bool}

theorem byId_filter (x : String) : byId (rs.filter fun r => S r.id) x = if S x then byId rs x else none := by
  unfold byId
  rw [List.find?_filter]
  split
  next hx =>
    congr 1
    funext r
    by_cases hr : r.id = x <;> simp [hr, hx]
  next hx =>
    rw [List.find?_eq_none]
    intro r _
    by_cases hr : r.id = x <;> simp [hr, hx]

theorem valueById_filter {x : String} (hx : S x = true) :
    valueById (vs.filter fun v => (resourceId v).any S) x = valueById vs x := by
  unfold valueById
  rw [List.find?_filter]
  congr 1
  funext v
  by_cases hv : resourceId v = some x <;> simp [hv, hx]

theorem endpointNames_filter {x : String} (hx : S x = true) :
    endpointNames (vs.filter fun v => (resourceId v).any S) x = endpointNames vs x := by
  rw [endpointNames, endpointNames, valueById_filter hx]

theorem parse_rightUnique : Relator.RightUnique fun v r => parseResource [] v = .ok r :=
  fun _ _ _ h h' => Except.ok.inj (h.symm.trans h')

theorem graph_filter : graph (rs.filter fun r => S r.id) = (graph rs).restrict S := by
  funext x
  rw [graph, byId_filter, Graph.restrict, graph]
  split <;> rfl

theorem forall₂_filter (h : List.Forall₂ (fun v r => parseResource [] v = .ok r) vs rs) :
    List.Forall₂ (fun v r => parseResource [] v = .ok r) (vs.filter fun v => (resourceId v).any S)
      (rs.filter fun r => S r.id) := by
  induction h with
  | nil => exact .nil
  | @cons v r vs rs hp _ ih =>
      have hid : (resourceId v).any S = S r.id := by simp [(reads_of_parse hp).id]
      by_cases hr : S r.id = true
      · rw [List.filter_cons, if_pos (hid.trans hr), List.filter_cons, if_pos hr]
        exact .cons hp ih
      · rw [List.filter_cons, if_neg (by rwa [hid]), List.filter_cons, if_neg hr]
        exact ih

variable {o version : Value}

theorem Parsed.sliceOf_values (h : Parsed o vs rs) :
    (sliceOf o version S).getArray "resources" = some (vs.filter fun v => (resourceId v).any S) := by
  simp [sliceOf, Value.getArray, Value.get, Members.field, Value.asArray, h.resourcesOf_eq]

theorem Parsed.slice (h : Parsed o vs rs) (hv : o.get "version" = some version)
    (hclosed : ∀ x y, S x = true → (graph rs).Needs x y → S y = true) :
    Parsed (sliceOf o version S) (vs.filter fun v => (resourceId v).any S) (rs.filter fun r => S r.id) where
  values := h.sliceOf_values
  parse := forall₂_filter h.parse
  distinct := h.distinct.sublist ((List.filter_sublist).map _)
  sound := by
    rw [graph_filter]
    exact h.sound.restrict hclosed
  version := by
    obtain ⟨text, ht, hne⟩ := h.version
    rw [Value.getStr, hv, Option.bind_some] at ht
    exact ⟨text, by simpa [Value.getStr, sliceOf, Value.get, Members.field] using ht, hne⟩

/-- Keeping a set of resources gives a valid document exactly when the set is
closed under the dependencies that validation requires. -/
theorem Parsed.sliceOf_accepts (h : Parsed o vs rs) (hv : o.get "version" = some version) :
    Accepts (validateOntology (sliceOf o version S)) ↔
      ∀ x y, S x = true → (graph rs).Needs x y → S y = true := by
  refine ⟨fun hacc x y hx hxy => ?_, fun hclosed => (h.slice hv hclosed).accepts⟩
  obtain ⟨-, ws, xs, hws, hparse, -, hsound⟩ := validateOntology_iff.mp hacc
  rw [h.sliceOf_values] at hws
  cases hws
  obtain rfl := List.right_unique_forall₂' parse_rightUnique hparse (forall₂_filter h.parse)
  rw [graph_filter] at hsound
  exact Graph.closed_of_restrict_sound hsound hx hxy

def Graph.Gathered (g : Graph) (vs : List Value) (ids kinds : List String) (includeDependencies : Bool)
    (x : String) : Prop :=
  if includeDependencies then g.Reached vs ids kinds x else g.Selected ids kinds x

section Slice

variable {o : Value} {vs : List Value} {rs : List Resource} {ids kinds : List String} {d : Bool}

theorem Parsed.gather_eq_ok (h : Parsed o vs rs) {chosen : List String}
    (hc : gather vs ids kinds d = .ok chosen) (x : String) :
    x ∈ chosen ↔ (graph rs).Gathered vs ids kinds d x := by
  cases d with
  | true => exact (h.closeSelection_eq_ok hc).1 x
  | false =>
      cases hc
      exact h.mem_selectedIds

theorem Parsed.slice_eq_ok (h : Parsed o vs rs) {result : Value} :
    sliceOntology o ids kinds d = .ok result ↔ Accepts (validateSelector o ids kinds) ∧
      ∃ chosen, gather vs ids kinds d = .ok chosen ∧
        ∃ version, o.get "version" = some version ∧ result = sliceOf o version chosen.contains ∧
          ∀ x y, x ∈ chosen → (graph rs).Needs x y → y ∈ chosen := by
  obtain ⟨_, hvalid⟩ := h.accepts
  simp only [sliceOntology, bind_eq_ok, hvalid, exists_const, h.values, context_some, Except.ok.injEq,
    exists_eq_left', context_eq_ok, pure_eq_ok, Accepts, true_and]
  constructor
  · rintro ⟨_, hs, chosen, hc, version, hv, _, hok, rfl⟩
    refine ⟨⟨_, hs⟩, chosen, hc, version, hv, by simp [sliceOf, h.resourcesOf_eq], fun x y hx hxy => ?_⟩
    have hacc : Accepts (validateOntology (sliceOf o version chosen.contains)) := by
      rw [sliceOf, h.resourcesOf_eq]
      exact ⟨_, hok⟩
    simpa using (h.sliceOf_accepts hv).mp hacc x y (by simpa using hx) hxy
  · rintro ⟨⟨_, hs⟩, chosen, hc, version, hv, rfl, hclosed⟩
    obtain ⟨_, hok⟩ := (h.sliceOf_accepts (S := chosen.contains) hv).mpr
      (fun x y hx hxy => by simpa using hclosed x y (by simpa using hx) hxy)
    refine ⟨_, hs, chosen, hc, version, hv, (), ?_, ?_⟩
    · simpa [sliceOf, h.resourcesOf_eq] using hok
    · simp [sliceOf, h.resourcesOf_eq]

/-- A slice of a valid document is refused for two reasons only: a link
attribute that cannot be read, and a dependency left outside. -/
theorem Parsed.slice_accepts (h : Parsed o vs rs) (hs : Accepts (validateSelector o ids kinds)) :
    Accepts (sliceOntology o ids kinds d) ↔
      (d = true → ∀ x, (graph rs).Reached vs ids kinds x → Accepts (endpointNames vs x)) ∧
      ∀ x y, (graph rs).Gathered vs ids kinds d x → (graph rs).Needs x y →
        (graph rs).Gathered vs ids kinds d y := by
  constructor
  · rintro ⟨result, hr⟩
    obtain ⟨-, chosen, hc, -, -, -, hclosed⟩ := h.slice_eq_ok.mp hr
    refine ⟨fun hd => ?_, fun x y hx hxy => ?_⟩
    · subst hd
      exact h.closeSelection_accepts.mp ⟨chosen, hc⟩
    · rw [← h.gather_eq_ok hc] at hx ⊢
      exact hclosed x y hx hxy
  · rintro ⟨hall, hclosed⟩
    obtain ⟨chosen, hc⟩ : Accepts (gather vs ids kinds d) := by
      cases d with
      | true => exact h.closeSelection_accepts.mpr (hall rfl)
      | false => exact accepts_ok _
    obtain ⟨text, ht, -⟩ := h.version
    obtain ⟨version, hv, -⟩ := Option.bind_eq_some_iff.mp ht
    refine ⟨_, h.slice_eq_ok.mpr ⟨hs, chosen, hc, version, hv, rfl, fun x y hx hxy => ?_⟩⟩
    rw [h.gather_eq_ok hc] at hx ⊢
    exact hclosed x y hx hxy

open Classical in
theorem Parsed.slice_result (h : Parsed o vs rs) {result : Value}
    (hr : sliceOntology o ids kinds d = .ok result) : ∃ version, o.get "version" = some version ∧
      result = sliceOf o version (fun x => decide ((graph rs).Gathered vs ids kinds d x)) := by
  obtain ⟨-, chosen, hc, version, hv, rfl, -⟩ := h.slice_eq_ok.mp hr
  refine ⟨version, hv, congrArg _ (funext fun x => ?_)⟩
  rw [Bool.eq_iff_iff, List.contains_iff_mem, decide_eq_true_iff]
  exact h.gather_eq_ok hc x

theorem accepts_validateSelector (hv : o.getArray "resources" = some vs) :
    Accepts (validateSelector o ids kinds) ↔ (∀ x ∈ ids, ∃ v ∈ vs, resourceId v = some x) ∧
      (∀ kind ∈ kinds, kind ∈ resourceKinds) ∧ (ids ≠ [] ∨ kinds ≠ []) := by
  simp [validateSelector, hv, Accepts]

end Slice

/-- A document can be sliced exactly when the edges that slicing follows and
the edges that validation requires lead to the same resources. -/
structure Sliceable (o : Value) (ids kinds : List String) : Prop where
  /-- Every resource met on the way has readable link attributes. -/
  readable : ∀ x, (graphOf o).Reached (resourcesOf o) ids kinds x → Accepts (endpointNames (resourcesOf o) x)
  /-- A resource used as a value type is also met in another way. -/
  valueType : ∀ x y n, (graphOf o).Reached (resourcesOf o) ids kinds x → graphOf o x = some n →
    n.kind = "property" → n.valueType = some y → y ∉ scalarTypes → (graphOf o).Reached (resourcesOf o) ids kinds y
  /-- Link attributes on other kinds of resources name nothing unneeded. -/
  stray : ∀ x y n names, (graphOf o).Reached (resourcesOf o) ids kinds x → graphOf o x = some n →
    n.kind ≠ "link_type" → endpointNames (resourcesOf o) x = .ok names → y ∈ names →
    (∃ m, graphOf o y = some m) → (graphOf o).Needed ids kinds y

open Classical in
noncomputable def neededResources (o : Value) (ids kinds : List String) : List Value :=
  (resourcesOf o).filter fun v => (resourceId v).any fun x => decide ((graphOf o).Needed ids kinds x)

def SlicesExactly (o : Value) (ids kinds : List String) : Prop :=
  ∃ result, sliceOntology o ids kinds true = .ok result ∧ result.get "version" = o.get "version" ∧
    result.getArray "resources" = some (neededResources o ids kinds) ∧
    ∃ again, sliceOntology result ids kinds true = .ok again ∧
      again.getArray "resources" = some (neededResources o ids kinds)

theorem Graph.Needed.exists_node {g : Graph} (h : g.Sound) {ids kinds : List String} {x : String}
    (hx : g.Needed ids kinds x) : ∃ n, g x = some n := by
  cases hx with
  | selected hs => exact hs.imp fun _ => And.left
  | dependency _ hxy => exact hxy.exists_target h
  | property _ ho => exact ho.imp fun _ => And.left

section Link

variable {o : Value} {vs : List Value} {rs : List Resource}

theorem stringArray_of_asStr {value : Option Value} {field s : String} (h : value.bind Value.asStr = some s) :
    stringArray value field = .ok [s] := by
  obtain ⟨v, rfl, hv⟩ := Option.bind_eq_some_iff.mp h
  cases v <;> simp_all [Value.asStr, stringArray]

theorem Parsed.endpointNames_link (h : Parsed o vs rs) {x : String} {n : Node} (hx : graph rs x = some n)
    (hk : n.kind = "link_type") :
    ∃ s t, n.source = some s ∧ n.target = some t ∧ endpointNames vs x = .ok [s, t] := by
  obtain ⟨s, hs, -⟩ := h.sound.source hx hk
  obtain ⟨t, ht, -⟩ := h.sound.target hx hk
  refine ⟨s, t, hs, ht, ?_⟩
  have hv := valueById_eq h.parse x
  obtain ⟨r, hb, rfl⟩ := Option.map_eq_some_iff.mp hx
  simp only [hb] at hv
  obtain ⟨-, v, -, hv, hr⟩ := hv
  simp only [endpointNames, hv, Option.bind_some, hr.attributes, stringArray_of_asStr hs, stringArray_of_asStr ht]
  rfl

variable {ids kinds : List String}

/-- Only a value type can lead from a reached resource to one that slicing
does not reach. -/
theorem Parsed.reached_needs (h : Parsed o vs rs) {x y : String} (hx : (graph rs).Reached vs ids kinds x)
    (hxy : (graph rs).Needs x y) : (graph rs).Reached vs ids kinds y ∨
      ∃ n, graph rs x = some n ∧ n.kind = "property" ∧ n.valueType = some y ∧ y ∉ scalarTypes := by
  have hm := hxy.exists_target h.sound
  cases hxy with
  | reference hn hy => exact .inl (hx.follow (.reference hn hy))
  | owner hn hy => exact .inl (hx.follow (.owner hn hy))
  | parent hn hy => exact .inl (hx.follow (.parent hn hy))
  | source hn hk hy =>
      obtain ⟨s, t, hs, -, hnames⟩ := h.endpointNames_link hn hk
      cases hs.symm.trans hy
      exact .inl (hx.follow (.endpoint hnames (by simp) hm))
  | target hn hk hy =>
      obtain ⟨s, t, -, ht, hnames⟩ := h.endpointNames_link hn hk
      cases ht.symm.trans hy
      exact .inl (hx.follow (.endpoint hnames (by simp) hm))
  | valueType hn hk hy hs => exact .inr ⟨_, hn, hk, hy, hs⟩

/-- Only a link attribute of another kind of resource can lead slicing from a
needed resource to one that is not needed. -/
theorem Parsed.needed_follows (h : Parsed o vs rs) {x y : String} (hx : (graph rs).Needed ids kinds x)
    (hxy : (graph rs).Follows vs x y) : (graph rs).Needed ids kinds y ∨
      ∃ n names, graph rs x = some n ∧ n.kind ≠ "link_type" ∧ endpointNames vs x = .ok names ∧ y ∈ names ∧
        ∃ m, graph rs y = some m := by
  cases hxy with
  | reference hn hy => exact .inl (hx.dependency (.reference hn hy))
  | owner hn hy => exact .inl (hx.dependency (.owner hn hy))
  | parent hn hy => exact .inl (hx.dependency (.parent hn hy))
  | property _ ho => exact .inl (hx.property ho)
  | @endpoint names hnames hy hm =>
      obtain ⟨n, hn⟩ := hx.exists_node h.sound
      by_cases hk : n.kind = "link_type"
      · obtain ⟨s, t, hs, ht, he⟩ := h.endpointNames_link hn hk
        cases he.symm.trans hnames
        rcases List.mem_pair.mp hy with rfl | rfl
        · exact .inl (hx.dependency (.source hn hk hs))
        · exact .inl (hx.dependency (.target hn hk ht))
      · exact .inr ⟨n, names, hn, hk, hnames, hy, hm⟩

theorem Parsed.reached_iff_needed (h : Parsed o vs rs) (hs : Sliceable o ids kinds) {x : String} :
    (graph rs).Reached vs ids kinds x ↔ (graph rs).Needed ids kinds x := by
  obtain ⟨-, hvalue, hstray⟩ := hs
  rw [h.graphOf_eq, h.resourcesOf_eq] at hvalue hstray
  constructor
  · rintro ⟨z, hz, hzx⟩
    induction hzx with
    | refl => exact .selected hz
    | tail hzb he ih =>
        rcases h.needed_follows ih he with hc | ⟨n, names, hn, hk, hnames, hc, hm⟩
        · exact hc
        · exact hstray _ _ n names ⟨z, hz, hzb⟩ hn hk hnames hc hm
  · intro hx
    induction hx with
    | selected hx => exact ⟨_, hx, .refl⟩
    | dependency _ hxy ih =>
        rcases h.reached_needs ih hxy with hy | ⟨n, hn, hk, hv, hsc⟩
        · exact hy
        · exact hvalue _ _ n ih hn hk hv hsc
    | property _ ho ih => exact ih.follow (.property (ih.exists_node h.sound) ho)

end Link

section Again

variable {o version : Value} {vs : List Value} {rs : List Resource} {ids kinds : List String} {S : String → Bool}

theorem follows_restrict {g : Graph} {x y : String} (hx : S x = true) (hy : S y = true)
    (h : g.Follows vs x y) : (g.restrict S).Follows (vs.filter fun v => (resourceId v).any S) x y := by
  have hlift : ∀ {z n}, S z = true → g z = some n → g.restrict S z = some n :=
    fun hz hn => Graph.restrict_eq_some.mpr ⟨hz, hn⟩
  cases h with
  | reference hn hm => exact .reference (hlift hx hn) hm
  | owner hn hm => exact .owner (hlift hx hn) hm
  | parent hn hm => exact .parent (hlift hx hn) hm
  | endpoint hn hm he => exact .endpoint ((endpointNames_filter hx).trans hn) hm (he.imp fun _ => hlift hy)
  | property hn ho => exact .property (hn.imp fun _ => hlift hx) (ho.imp fun _ h => ⟨hlift hy h.1, h.2⟩)

theorem follows_of_restrict {g : Graph} {x y : String} (hx : S x = true)
    (h : (g.restrict S).Follows (vs.filter fun v => (resourceId v).any S) x y) : g.Follows vs x y := by
  have hdrop : ∀ {z n}, g.restrict S z = some n → g z = some n := fun hn => (Graph.restrict_eq_some.mp hn).2
  cases h with
  | reference hn hm => exact .reference (hdrop hn) hm
  | owner hn hm => exact .owner (hdrop hn) hm
  | parent hn hm => exact .parent (hdrop hn) hm
  | endpoint hn hm he => exact .endpoint ((endpointNames_filter hx).symm.trans hn) hm (he.imp fun _ => hdrop)
  | property hn ho => exact .property (hn.imp fun _ => hdrop) (ho.imp fun _ h => ⟨hdrop h.1, h.2⟩)

theorem reached_restrict {g : Graph} (hS : ∀ x, S x = true ↔ g.Reached vs ids kinds x) {x : String} :
    (g.restrict S).Reached (vs.filter fun v => (resourceId v).any S) ids kinds x ↔
      g.Reached vs ids kinds x := by
  constructor
  · rintro ⟨z, ⟨n, hn, hsel⟩, hzx⟩
    have hz : g.Reached vs ids kinds z := ⟨z, ⟨n, (Graph.restrict_eq_some.mp hn).2, hsel⟩, .refl⟩
    induction hzx with
    | refl => exact hz
    | tail _ he ih => exact ih.follow (follows_of_restrict ((hS _).mpr ih) he)
  · rintro ⟨z, ⟨n, hn, hsel⟩, hzx⟩
    have hz : S z = true := (hS z).mpr ⟨z, ⟨n, hn, hsel⟩, .refl⟩
    refine ⟨z, ⟨n, Graph.restrict_eq_some.mpr ⟨hz, hn⟩, hsel⟩, ?_⟩
    induction hzx with
    | refl => exact .refl
    | tail hzb he ih =>
        have hb : g.Reached vs ids kinds _ := ⟨z, ⟨n, hn, hsel⟩, hzb⟩
        exact ih.tail (follows_restrict ((hS _).mpr hb) ((hS _).mpr (hb.follow he)) he)

theorem Parsed.selector_slice (h : Parsed o vs rs) (version : Value) (hs : Accepts (validateSelector o ids kinds))
    (hS : ∀ x, S x = true ↔ (graph rs).Reached vs ids kinds x) :
    Accepts (validateSelector (sliceOf o version S) ids kinds) := by
  rw [accepts_validateSelector h.values] at hs
  rw [accepts_validateSelector h.sliceOf_values]
  refine ⟨fun x hx => ?_, hs.2⟩
  obtain ⟨v, hv, hid⟩ := hs.1 x hx
  obtain ⟨r, hr, hreads⟩ := h.mem_value hv
  have hrx : r.id = x := Option.some.inj (hreads.id.symm.trans hid)
  have hreach : (graph rs).Reached vs ids kinds x :=
    ⟨x, ⟨r.node, (graph_eq_some h.distinct).mpr ⟨r, hr, hrx, rfl⟩, .inl hx⟩, .refl⟩
  exact ⟨v, List.mem_filter.mpr ⟨hv, by simpa [hid] using (hS x).mpr hreach⟩, hid⟩

open Classical in
theorem Parsed.slice_again (h : Parsed o vs rs) {result : Value}
    (hr : sliceOntology o ids kinds true = .ok result) :
    ∃ again, sliceOntology result ids kinds true = .ok again ∧
      again.getArray "resources" = result.getArray "resources" := by
  have hs := (h.slice_eq_ok.mp hr).1
  obtain ⟨hread, hclosed⟩ := (h.slice_accepts hs).mp ⟨result, hr⟩
  obtain ⟨version, hv, rfl⟩ := h.slice_result hr
  let S : String → Bool := fun x => decide ((graph rs).Gathered vs ids kinds true x)
  have hS : ∀ x, S x = true ↔ (graph rs).Reached vs ids kinds x := fun x => decide_eq_true_iff
  have hreach := fun x => reached_restrict hS (x := x)
  have hp := h.slice (S := S) hv fun x y hx hxy => (hS y).mpr (hclosed x y ((hS x).mp hx) hxy)
  have hs' := h.selector_slice version hs hS
  rw [← graph_filter] at hreach
  have hread' : ∀ x, (graph (rs.filter fun r => S r.id)).Reached (vs.filter fun v => (resourceId v).any S)
      ids kinds x → Accepts (endpointNames (vs.filter fun v => (resourceId v).any S) x) := by
    intro x hx
    rw [hreach] at hx
    rw [endpointNames_filter ((hS x).mpr hx)]
    exact hread rfl x hx
  obtain ⟨again, hagain⟩ := (hp.slice_accepts (d := true) hs').mpr ⟨fun _ => hread', fun x y hx hxy => by
    rw [graph_filter] at hxy
    exact (hreach y).mpr (hclosed x y ((hreach x).mp hx) hxy.of_restrict)⟩
  refine ⟨again, hagain, ?_⟩
  obtain ⟨version', -, rfl⟩ := hp.slice_result hagain
  rw [hp.sliceOf_values, h.sliceOf_values, List.filter_filter]
  refine congrArg some (List.filter_congr fun v _ => ?_)
  cases resourceId v with
  | none => rfl
  | some x =>
      rw [Option.any_some, Option.any_some, Bool.and_eq_right_iff_imp]
      exact fun hx => decide_eq_true ((hreach x).mpr ((hS x).mp hx))

end Again

variable {ids kinds : List String}

open Classical in
theorem Parsed.reached_of_kept {vs : List Value} {rs : List Resource} (h : Parsed o vs rs) {version : Value}
    (hk : (sliceOf o version fun x => decide ((graph rs).Reached vs ids kinds x)).getArray "resources" =
      some (neededResources o ids kinds)) {x : String} (hx : ∃ n, graph rs x = some n) :
    (graph rs).Reached vs ids kinds x ↔ (graph rs).Needed ids kinds x := by
  obtain ⟨n, hn⟩ := hx
  obtain ⟨r, hr, rfl, -⟩ := (graph_eq_some h.distinct).mp hn
  obtain ⟨v, hv, hreads⟩ := h.mem_resource hr
  rw [h.sliceOf_values, neededResources, h.resourcesOf_eq, h.graphOf_eq] at hk
  have hm := congrArg (v ∈ ·) (Option.some.inj hk)
  simpa [hv, hreads.id] using hm

/-- Slicing with dependencies returns the least closed set of resources
exactly on the documents where its edges agree with validation. -/
theorem slicesExactly_iff (ho : Accepts (validateOntology o)) (hs : Accepts (validateSelector o ids kinds)) :
    SlicesExactly o ids kinds ↔ Sliceable o ids kinds := by
  classical
  obtain ⟨vs, rs, h⟩ := exists_parsed ho
  constructor
  · rintro ⟨result, hr, -, hkept, -⟩
    obtain ⟨hread, hclosed⟩ := (h.slice_accepts hs).mp ⟨result, hr⟩
    obtain ⟨version, -, rfl⟩ := h.slice_result hr
    refine ⟨?_, ?_, ?_⟩ <;> simp only [h.graphOf_eq, h.resourcesOf_eq]
    · exact hread rfl
    · intro x y n hx hn hk hv hsc
      exact hclosed x y hx (.valueType hn hk hv hsc)
    · intro x y n names hx hn hk hnames hy hm
      exact (h.reached_of_kept hkept hm).mp (hx.follow (.endpoint hnames hy hm))
  · intro hc
    have hsame := fun x => h.reached_iff_needed hc (x := x)
    have hread := hc.readable
    rw [h.graphOf_eq, h.resourcesOf_eq] at hread
    obtain ⟨result, hr⟩ := (h.slice_accepts (d := true) hs).mpr ⟨fun _ => hread, fun x y hx hxy =>
      (hsame y).mpr (((hsame x).mp hx).dependency hxy)⟩
    have hagain := h.slice_again hr
    obtain ⟨version, hv, rfl⟩ := h.slice_result hr
    have hkept : (sliceOf o version fun x => decide ((graph rs).Gathered vs ids kinds true x)).getArray
        "resources" = some (neededResources o ids kinds) := by
      rw [h.sliceOf_values, neededResources, h.resourcesOf_eq, h.graphOf_eq]
      refine congrArg some (List.filter_congr fun v _ => congrArg (fun p => (resourceId v).any p) (funext fun x => ?_))
      exact decide_eq_decide.mpr (hsame x)
    exact ⟨_, hr, hv.symm ▸ rfl, hkept, hkept ▸ hagain⟩

/-- Slicing the person of a valid document leaves the address out and is then
rejected for the missing value type. -/
theorem addressBook_not_slicesExactly :
    Accepts (validateOntology addressBook) ∧ Accepts (validateSelector addressBook ["person"] []) ∧
      sliceOntology addressBook ["person"] [] true = .error "invalid_value_type:home:address" ∧
      ¬ SlicesExactly addressBook ["person"] [] := by
  have he : sliceOntology addressBook ["person"] [] true = .error "invalid_value_type:home:address" := by
    decide +kernel
  refine ⟨by decide +kernel, by decide +kernel, he, ?_⟩
  rintro ⟨result, hr, -⟩
  cases he.symm.trans hr

/-- Nothing is missed where the selection covers the whole document. -/
theorem addressBook_sliceable : Sliceable addressBook [] ["object_type", "property"] := by
  obtain ⟨vs, rs, h⟩ := exists_parsed (o := addressBook) (by decide +kernel)
  have hnode : ∀ x n, graph rs x = some n →
      n.kind ∈ ["object_type", "property"] ∧ endpointNames (resourcesOf addressBook) x = .ok [] := by
    intro x n hx
    obtain ⟨r, hr, rfl, rfl⟩ := (graph_eq_some h.distinct).mp hx
    obtain ⟨v, hv, hreads⟩ := h.mem_resource hr
    have hcheck : ∀ v ∈ resourcesOf addressBook, ∀ id kind, resourceId v = some id → v.getStr "kind" = some kind →
        kind ∈ ["object_type", "property"] ∧ endpointNames (resourcesOf addressBook) id = .ok [] := by
      simp [resourcesOf, addressBook, document, resourceValue, resourceId, Value.getStr, Value.getArray, Value.get,
        Value.asArray, Value.asStr, Members.field, endpointNames, valueById, Value.asObject, stringArray]
    exact hcheck v (h.resourcesOf_eq ▸ hv) r.id r.kind hreads.id hreads.kind
  refine ⟨?_, ?_, ?_⟩ <;> simp only [h.graphOf_eq]
  · intro x hx
    obtain ⟨n, hn⟩ := hx.exists_node h.sound
    exact ⟨[], (hnode x n hn).2⟩
  · intro x y n _ hn hk hv hs
    obtain ⟨m, hm⟩ := Graph.Needs.exists_target h.sound (.valueType hn hk hv hs)
    exact ⟨y, ⟨m, hm, .inr (hnode y m hm).1⟩, .refl⟩
  · intro x y n names _ hn _ hnames hy
    cases (hnode x n hn).2.symm.trans hnames
    exact absurd hy List.not_mem_nil

theorem addressBook_slicesExactly : SlicesExactly addressBook [] ["object_type", "property"] :=
  (slicesExactly_iff (by decide +kernel) (by decide +kernel)).mpr addressBook_sliceable

end Galadril.Registry.Ontology
