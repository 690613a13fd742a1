import Galadril.Registry.OntologySlice

namespace Galadril.Registry.Ontology

open Json Lib.Checked Relation

def graphOf (o : Value) : Graph :=
  match parseResources o with
  | .ok rs => graph rs
  | .error _ => fun _ => none

def resourcesOf (o : Value) : List Value := (o.getArray "resources").getD []

def Graph.Owns (g : Graph) (x y : String) : Prop :=
  ∃ m, g y = some m ∧ m.kind = "property" ∧ m.owner = some x

def Graph.Selected (g : Graph) (ids kinds : List String) (x : String) : Prop :=
  ∃ n, g x = some n ∧ (x ∈ ids ∨ n.kind ∈ kinds)

/-- The least set with every selected resource, closed under the dependencies
that validation requires and under owned properties. -/
inductive Graph.Needed (g : Graph) (ids kinds : List String) : String → Prop
  | selected {x : String} (h : g.Selected ids kinds x) : Needed g ids kinds x
  | dependency {x y : String} (hx : Needed g ids kinds x) (h : g.Needs x y) : Needed g ids kinds y
  | property {x y : String} (hx : Needed g ids kinds x) (h : g.Owns x y) : Needed g ids kinds y

def endpointNames (vs : List Value) (x : String) : Except String (List String) :=
  match (valueById vs x).bind fun v => (v.get "attributes").bind Value.asObject with
  | none => .ok []
  | some attributes => do
      let sources ← stringArray (Members.field attributes "source_type") "source_type"
      let targets ← stringArray (Members.field attributes "target_type") "target_type"
      return sources ++ targets

/-- The edges that slicing follows. It ignores the value type of a property
and reads the link attributes of every kind of resource. -/
inductive Graph.Follows (g : Graph) (vs : List Value) (x y : String) : Prop
  | reference {n : Node} (h : g x = some n) (hy : y ∈ n.references)
  | owner {n : Node} (h : g x = some n) (hy : n.owner = some y)
  | parent {n : Node} (h : g x = some n) (hy : y ∈ n.parents)
  | endpoint {names : List String} (h : endpointNames vs x = .ok names) (hy : y ∈ names)
      (hm : ∃ m, g y = some m)
  | property (hx : ∃ n, g x = some n) (h : g.Owns x y)

structure Parsed (o : Value) (vs : List Value) (rs : List Resource) : Prop where
  values : o.getArray "resources" = some vs
  parse : List.Forall₂ (fun v r => parseResource [] v = .ok r) vs rs
  distinct : (rs.map (·.id)).Nodup
  sound : (graph rs).Sound
  version : ∃ version, o.getStr "version" = some version ∧ version ≠ ""

theorem exists_parsed {o : Value} (h : Accepts (validateOntology o)) : ∃ vs rs, Parsed o vs rs := by
  obtain ⟨hv, vs, rs, h1, h2, h3, h4⟩ := validateOntology_iff.mp h
  exact ⟨vs, rs, h1, h2, h3, h4, hv⟩

theorem Parsed.accepts {o : Value} {vs : List Value} {rs : List Resource} (h : Parsed o vs rs) :
    Accepts (validateOntology o) :=
  validateOntology_iff.mpr ⟨h.version, vs, rs, h.values, h.parse, h.distinct, h.sound⟩

theorem Parsed.graphOf_eq {o : Value} {vs : List Value} {rs : List Resource} (h : Parsed o vs rs) :
    graphOf o = graph rs := by
  have hp : parseResources o = .ok rs := by
    obtain ⟨version, hv, hne⟩ := h.version
    simp only [parseResources, bind_eq_ok, context_eq_ok, ensure_eq_ok, bne_iff_ne]
    exact ⟨version, hv, (), hne, vs, h.values, parseAll_eq_ok.mpr ⟨h.parse, h.distinct, by simp⟩⟩
  simp [graphOf, hp]

theorem Parsed.resourcesOf_eq {o : Value} {vs : List Value} {rs : List Resource} (h : Parsed o vs rs) :
    resourcesOf o = vs := by
  simp [resourcesOf, h.values]

theorem requiredString_eq_ok {v : Value} {field owner s : String} (h : requiredString v field owner = .ok s) :
    v.getStr field = some s := by
  simp only [requiredString, bind_eq_ok, context_eq_ok, pure_eq_ok] at h
  obtain ⟨t, ht, _, _, rfl⟩ := h
  exact ht

structure Reads (v : Value) (r : Resource) : Prop where
  required : requiredString v "resource_id" "ontology resource" = .ok r.id
  valid : Identity.validId r.id = true
  kind : v.getStr "kind" = some r.kind
  owner : v.getStr "owner_id" = r.owner
  references : stringArray (v.get "references") "references" = .ok r.references
  attributes : (v.get "attributes").bind Value.asObject = some r.attributes
  parents : ∃ xs ys, stringArray (Members.field r.attributes "extends") "extends" = .ok xs ∧
    stringArray (Members.field r.attributes "interfaces") "interfaces" = .ok ys ∧ r.parents = xs ++ ys

theorem Reads.id {v : Value} {r : Resource} (h : Reads v r) : resourceId v = some r.id :=
  requiredString_eq_ok h.required

theorem reads_of_parse {v : Value} {r : Resource} (h : parseResource [] v = .ok r) : Reads v r := by
  simp only [parseResource, bind_eq_ok, pure_eq_ok, context_eq_ok] at h
  obtain ⟨id, h1, _, hv, _, _, kind, h2, _, _, name, _, attributes, h3, references, h4, xs, h5, ys, h6, rfl⟩ := h
  exact ⟨h1, ensure_eq_ok.mp hv, requiredString_eq_ok h2, rfl, h4, h3, xs, ys, h5, h6, rfl⟩

variable {vs : List Value} {rs : List Resource}

theorem Parsed.mem_value {o : Value} (h : Parsed o vs rs) {v : Value} (hv : v ∈ vs) : ∃ r ∈ rs, Reads v r := by
  have := h.parse
  clear h
  induction this with
  | nil => simp at hv
  | cons hp _ ih =>
      rcases List.mem_cons.mp hv with rfl | hv
      · exact ⟨_, List.mem_cons_self, reads_of_parse hp⟩
      · obtain ⟨r, hr, hreads⟩ := ih hv
        exact ⟨r, List.mem_cons_of_mem _ hr, hreads⟩

theorem valueById_eq (h : List.Forall₂ (fun v r => parseResource [] v = .ok r) vs rs) (x : String) :
    match byId rs x with
    | none => valueById vs x = none
    | some r => r.id = x ∧ ∃ v ∈ vs, valueById vs x = some v ∧ Reads v r := by
  unfold byId valueById
  induction h with
  | nil => simp
  | @cons v r vs rs hp _ ih =>
      have hr := reads_of_parse hp
      by_cases hx : r.id = x
      · simp only [List.find?_cons, hr.id, hx, decide_true]
        exact ⟨trivial, v, List.mem_cons_self, rfl, hr⟩
      · have hv : ¬ (resourceId v = some x) := by simp [hr.id, hx]
        simp only [List.find?_cons, hx, hv, decide_false]
        revert ih
        cases rs.find? (fun r => decide (r.id = x)) with
        | none => exact id
        | some y => exact fun ⟨hy, w, hw, he, hreads⟩ => ⟨hy, w, List.mem_cons_of_mem _ hw, he, hreads⟩

theorem valueById_isSome (h : List.Forall₂ (fun v r => parseResource [] v = .ok r) vs rs) {x : String} :
    (valueById vs x).isSome = true ↔ ∃ n, graph rs x = some n := by
  have := valueById_eq h x
  rw [exists_graph_iff]
  cases hb : byId rs x with
  | none => simp [hb] at this; simp [this]
  | some r =>
      simp only [hb] at this
      obtain ⟨-, v, -, hv, -⟩ := this
      simp [hv]

theorem Parsed.mem_resource {o : Value} (h : Parsed o vs rs) {r : Resource} (hr : r ∈ rs) :
    ∃ v ∈ vs, Reads v r := by
  have := h.parse
  clear h
  induction this with
  | nil => simp at hr
  | cons hp _ ih =>
      rcases List.mem_cons.mp hr with rfl | hr
      · exact ⟨_, List.mem_cons_self, reads_of_parse hp⟩
      · obtain ⟨v, hv, hreads⟩ := ih hr
        exact ⟨v, List.mem_cons_of_mem _ hv, hreads⟩

theorem Parsed.ids_eq {o : Value} (h : Parsed o vs rs) : vs.map resourceId = rs.map fun r => some r.id := by
  have := h.parse
  clear h
  induction this with
  | nil => rfl
  | cons hp _ ih => rw [List.map_cons, List.map_cons, ih, (reads_of_parse hp).id]

theorem Parsed.ids_nodup {o : Value} (h : Parsed o vs rs) : (vs.map resourceId).Nodup := by
  rw [h.ids_eq]
  simpa [Function.comp_def] using h.distinct.map (Option.some_injective String)

theorem Parsed.valueById_eq_some {o : Value} (h : Parsed o vs rs) {x : String} {v : Value} :
    valueById vs x = some v ↔ v ∈ vs ∧ resourceId v = some x :=
  Lib.Lookup.find?_eq_some_iff_of_nodup h.ids_nodup

theorem Parsed.mem_ownedProperties {o : Value} (h : Parsed o vs rs) {x y : String} :
    y ∈ ownedProperties vs x ↔ (graph rs).Owns x y := by
  simp only [ownedProperties, List.mem_filterMap, List.mem_filter, decide_eq_true_eq, Graph.Owns,
    graph_eq_some h.distinct]
  constructor
  · rintro ⟨v, ⟨hv, hk, ho⟩, hy⟩
    obtain ⟨r, hr, hreads⟩ := h.mem_value hv
    refine ⟨r.node, ⟨r, hr, Option.some.inj (hreads.id.symm.trans hy), rfl⟩, ?_, ?_⟩
    · exact Option.some.inj (hreads.kind.symm.trans hk)
    · exact hreads.owner.symm.trans ho
  · rintro ⟨_, ⟨r, hr, rfl, rfl⟩, hk, ho⟩
    obtain ⟨v, hv, hreads⟩ := h.mem_resource hr
    exact ⟨v, ⟨hv, hk ▸ hreads.kind, ho ▸ hreads.owner⟩, hreads.id⟩

/-- A traversal step fails only on a malformed link attribute. -/
theorem dependencies_of_reads {v : Value} {r : Resource} {x : String} (hv : valueById vs x = some v)
    (hr : Reads v r) :
    dependencies vs x = (do
      let names ← endpointNames vs x
      return (r.references ++ r.owner.toList ++ (r.parents ++ names) ++ ownedProperties vs x).filter
        fun y => (valueById vs y).isSome) := by
  obtain ⟨xs, ys, hxs, hys, hps⟩ := hr.parents
  unfold dependencies endpointNames
  simp only [hv, Option.bind_some, hr.attributes, hr.references, hr.owner, List.mapM_cons, List.mapM_nil, hxs,
    hys, hps]
  cases stringArray (Members.field r.attributes "source_type") "source_type" with
  | error e => rfl
  | ok sources =>
      cases stringArray (Members.field r.attributes "target_type") "target_type" with
      | error e => rfl
      | ok targets =>
          simp only [bind, Except.bind, pure, Except.pure, List.flatten_cons, List.flatten_nil, List.append_nil,
            List.append_assoc]

theorem Parsed.dependencies_eq_ok {o : Value} (h : Parsed o vs rs) {x : String} {deps : List String} :
    dependencies vs x = .ok deps → ∃ names, endpointNames vs x = .ok names ∧
      ∀ y, y ∈ deps ↔ (graph rs).Follows vs x y := by
  have hx := valueById_eq h.parse x
  cases hb : byId rs x with
  | none =>
      simp only [hb] at hx
      have hg : graph rs x = none := by simp [graph, hb]
      have he : endpointNames vs x = .ok [] := by simp [endpointNames, hx]
      intro hd
      simp only [dependencies, hx, Except.ok.injEq] at hd
      subst hd
      refine ⟨[], he, fun y => ⟨fun hy => absurd hy List.not_mem_nil, fun hf => ?_⟩⟩
      cases hf with
      | endpoint hn hy _ =>
          rw [he] at hn
          cases hn
          exact absurd hy List.not_mem_nil
      | property hn _ => simp [hg] at hn
      | _ hn _ => simp [hg] at hn
  | some r =>
      simp only [hb] at hx
      obtain ⟨-, v, -, hv, hr⟩ := hx
      have hg : graph rs x = some r.node := by simp [graph, hb]
      rw [dependencies_of_reads hv hr]
      simp only [bind_eq_ok, pure_eq_ok]
      rintro ⟨names, hn, rfl⟩
      refine ⟨names, hn, fun y => ?_⟩
      simp only [List.mem_filter, List.mem_append, Option.mem_toList, valueById_isSome h.parse,
        h.mem_ownedProperties]
      constructor
      · rintro ⟨((hy | hy) | hy | hy) | hy, hm⟩
        · exact .reference hg hy
        · exact .owner hg hy
        · exact .parent hg hy
        · exact .endpoint hn hy hm
        · exact .property ⟨_, hg⟩ hy
      · intro hf
        cases hf with
        | reference h' hy =>
            cases hg.symm.trans h'
            exact ⟨.inl (.inl (.inl hy)), h.sound.reference hg hy⟩
        | owner h' hy =>
            cases hg.symm.trans h'
            exact ⟨.inl (.inl (.inr hy)), (h.sound.owner hg hy).imp fun _ => And.left⟩
        | parent h' hy =>
            cases hg.symm.trans h'
            exact ⟨.inl (.inr (.inl hy)), (h.sound.parent hg hy).imp fun _ => And.left⟩
        | endpoint hn' hy hm =>
            cases hn.symm.trans hn'
            exact ⟨.inl (.inr (.inr hy)), hm⟩
        | property _ ho => exact ⟨.inr ho, ho.imp fun _ => And.left⟩

theorem Parsed.accepts_dependencies {o : Value} (h : Parsed o vs rs) (x : String) :
    Accepts (dependencies vs x) ↔ Accepts (endpointNames vs x) := by
  have hx := valueById_eq h.parse x
  cases hb : byId rs x with
  | none =>
      simp only [hb] at hx
      simp [dependencies, endpointNames, hx]
  | some r =>
      simp only [hb] at hx
      obtain ⟨-, v, -, hv, hr⟩ := hx
      rw [dependencies_of_reads hv hr, accepts_bind]
      exact ⟨fun ⟨names, hn, _⟩ => ⟨names, hn⟩, fun ⟨names, hn⟩ => ⟨names, hn, accepts_ok _⟩⟩

theorem Parsed.mem_selectedIds {o : Value} (h : Parsed o vs rs) {ids kinds : List String} {x : String} :
    x ∈ selectedIds vs ids kinds ↔ (graph rs).Selected ids kinds x := by
  simp only [selectedIds, Std.ExtTreeSet.mem_toList, Std.ExtTreeSet.mem_ofList, List.contains_iff_mem,
    List.mem_filterMap, List.mem_filter, Bool.or_eq_true, Graph.Selected, graph_eq_some h.distinct]
  constructor
  · rintro ⟨v, ⟨hv, hc⟩, hx⟩
    obtain ⟨r, hr, hreads⟩ := h.mem_value hv
    refine ⟨r.node, ⟨r, hr, Option.some.inj (hreads.id.symm.trans hx), rfl⟩, ?_⟩
    simpa [hx, hreads.kind, Resource.node] using hc
  · rintro ⟨_, ⟨r, hr, rfl, rfl⟩, hc⟩
    obtain ⟨v, hv, hreads⟩ := h.mem_resource hr
    exact ⟨v, ⟨hv, by simpa [hreads.id, hreads.kind, Resource.node] using hc⟩, hreads.id⟩

def Graph.Reached (g : Graph) (vs : List Value) (ids kinds : List String) (y : String) : Prop :=
  ∃ x, g.Selected ids kinds x ∧ ReflTransGen (g.Follows vs) x y

section Closure

variable {o : Value} {vs : List Value} {rs : List Resource} {ids kinds : List String}

theorem Graph.Follows.exists_target {g : Graph} (h : g.Sound) {x y : String} (hxy : g.Follows vs x y) :
    ∃ m, g y = some m := by
  cases hxy with
  | reference hx hy => exact h.reference hx hy
  | owner hx hy => exact (h.owner hx hy).imp fun _ => And.left
  | parent hx hy => exact (h.parent hx hy).imp fun _ => And.left
  | endpoint _ _ hm => exact hm
  | property _ ho => exact ho.imp fun _ => And.left

theorem Graph.Reached.exists_node {g : Graph} (h : g.Sound) {y : String} (hy : g.Reached vs ids kinds y) :
    ∃ m, g y = some m := by
  obtain ⟨x, ⟨n, hn, _⟩, hxy⟩ := hy
  cases hxy with
  | refl => exact ⟨n, hn⟩
  | tail _ he => exact he.exists_target h

theorem Graph.Reached.follow {g : Graph} {x y : String} (hx : g.Reached vs ids kinds x)
    (hxy : g.Follows vs x y) : g.Reached vs ids kinds y := by
  obtain ⟨z, hz, hzx⟩ := hx
  exact ⟨z, hz, hzx.tail hxy⟩

theorem Parsed.edge_follows (h : Parsed o vs rs) {x y : String}
    (he : Lib.Worklist.Edge (dependencies vs) x y) : (graph rs).Follows vs x y := by
  obtain ⟨deps, hd, hy⟩ := he
  obtain ⟨-, -, hiff⟩ := h.dependencies_eq_ok hd
  exact (hiff y).mp hy

theorem Parsed.transGen_edge (h : Parsed o vs rs) {x y : String}
    (hxy : TransGen (Lib.Worklist.Edge (dependencies vs)) x y) : TransGen ((graph rs).Follows vs) x y :=
  TransGen.mono (fun _ _ => h.edge_follows) x y hxy

theorem progress_start (start : List String) :
    Lib.Worklist.Progress (dependencies vs) start start start start.reverse :=
  ⟨fun _ => id, fun _ => id, fun _ => .inl, fun _ hx => .inl (List.mem_reverse.mp hx),
    fun _ hx => .inl (List.mem_reverse.mpr (hx.elim id id))⟩

theorem Parsed.closeSelection_eq_ok (h : Parsed o vs rs) {chosen : List String}
    (hc : closeSelection vs (selectedIds vs ids kinds) = .ok chosen) :
    (∀ y, y ∈ chosen ↔ (graph rs).Reached vs ids kinds y) ∧
      ∀ y, (graph rs).Reached vs ids kinds y → Accepts (endpointNames vs y) := by
  have hU : ∀ x deps, dependencies vs x = .ok deps → ∀ y ∈ deps, y ∈ rs.map (·.id) := by
    intro x deps hd y hy
    obtain ⟨m, hm⟩ := (h.edge_follows ⟨deps, hd, hy⟩).exists_target h.sound
    obtain ⟨r, hr, hid, -⟩ := (graph_eq_some h.distinct).mp hm
    exact List.mem_map.mpr ⟨r, hr, hid⟩
  have hroom : (selectedIds vs ids kinds).reverse.length +
      Lib.Worklist.unseen (rs.map (·.id)) (selectedIds vs ids kinds) <
      (selectedIds vs ids kinds).length + vs.length + 1 := by
    have hcard := (Finset.card_le_card (Finset.sdiff_subset (s := (rs.map (·.id)).toFinset)
      (t := (selectedIds vs ids kinds).toFinset))).trans (rs.map (·.id)).toFinset_card_le
    simp only [Lib.Worklist.unseen, List.length_reverse, List.length_map, ← h.parse.length_eq] at hcard ⊢
    omega
  have hp := Lib.Worklist.visit_ok hU (progress_start _) hroom hc
  have hsettled : ∀ x, x ∈ chosen → Accepts (dependencies vs x) := fun x hx => by
    obtain ⟨deps, hd, -⟩ := (hp.settled x (.inr hx)).resolve_left List.not_mem_nil
    exact ⟨deps, hd⟩
  have hmem : ∀ y, y ∈ chosen ↔ (graph rs).Reached vs ids kinds y := by
    intro y
    constructor
    · intro hy
      rcases hp.mem_iff.mp hy with hy | ⟨x, hx, hxy⟩
      · exact ⟨y, h.mem_selectedIds.mp hy, .refl⟩
      · exact ⟨x, h.mem_selectedIds.mp hx, (h.transGen_edge hxy).to_reflTransGen⟩
    · rintro ⟨x, hx, hxy⟩
      induction hxy with
      | refl => exact hp.kept x (h.mem_selectedIds.mpr hx)
      | @tail b c _ he ih =>
          obtain ⟨deps, hd, hsub⟩ := (hp.settled b (.inr ih)).resolve_left List.not_mem_nil
          obtain ⟨-, -, hiff⟩ := h.dependencies_eq_ok hd
          exact hsub c ((hiff c).mpr he)
  exact ⟨hmem, fun y hy => (h.accepts_dependencies y).mp (hsettled y ((hmem y).mpr hy))⟩

theorem Parsed.closeSelection_accepts (h : Parsed o vs rs) :
    Accepts (closeSelection vs (selectedIds vs ids kinds)) ↔
      ∀ y, (graph rs).Reached vs ids kinds y → Accepts (endpointNames vs y) := by
  constructor
  · rintro ⟨chosen, hc⟩
    exact (h.closeSelection_eq_ok hc).2
  · intro hall
    refine Lib.Worklist.visit_total (progress_start _) fun y hy => ?_
    refine (h.accepts_dependencies y).mpr (hall y ?_)
    rcases hy with hy | ⟨x, hx, hxy⟩
    · exact ⟨y, h.mem_selectedIds.mp hy, .refl⟩
    · exact ⟨x, h.mem_selectedIds.mp hx, (h.transGen_edge hxy).to_reflTransGen⟩

end Closure

end Galadril.Registry.Ontology
