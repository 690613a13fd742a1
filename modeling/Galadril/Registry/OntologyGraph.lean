import Galadril.Registry.Ontology

namespace Galadril.Registry.Ontology

open Json Lib.Checked Identity Relation

/-- What validation reads of a resource, apart from its identity. -/
structure Node where
  kind : String
  displayName : String
  owner : Option String
  valueType : Option String
  references : List String
  parents : List String
  source : Option String
  target : Option String

/-- An ontology seen as a partial map from identities to nodes. Neither the
order of its resources nor the order of their members is visible here. -/
abbrev Graph := String → Option Node

namespace Graph

def Parent (g : Graph) (p id : String) : Prop := ∃ n, g id = some n ∧ p ∈ n.parents

def Owner (g : Graph) (o id : String) : Prop := ∃ n, g id = some n ∧ n.owner = some o

def IsType (g : Graph) (id : String) : Prop := ∃ n, g id = some n ∧ isType n.kind = true

def Property (g : Graph) (owner : String) (n : Node) : Prop :=
  (∃ id, g id = some n) ∧ n.kind = "property" ∧ n.owner = some owner

/-- The declarative reading of a valid ontology. -/
structure Sound (g : Graph) : Prop where
  owner : ∀ {id n o}, g id = some n → n.owner = some o → g.IsType o
  reference : ∀ {id n y}, g id = some n → y ∈ n.references → ∃ m, g y = some m
  parent : ∀ {id n p}, g id = some n → p ∈ n.parents → g.IsType p
  valueType : ∀ {id n}, g id = some n → n.kind = "property" →
    ∃ t, n.valueType = some t ∧ t ≠ "" ∧ (t ∈ scalarTypes ∨ ∃ m, g t = some m)
  source : ∀ {id n}, g id = some n → n.kind = "link_type" → ∃ t, n.source = some t ∧ g.IsType t
  target : ∀ {id n}, g id = some n → n.kind = "link_type" → ∃ t, n.target = some t ∧ g.IsType t
  inheritance : ∀ {id n}, g id = some n → Acc g.Parent id
  ownership : ∀ {id n}, g id = some n → Acc g.Owner id
  compatible : ∀ {id a n m}, TransGen g.Parent a id → g.Property id n → g.Property a m →
    n.displayName = m.displayName → n.valueType = m.valueType

end Graph

def Resource.node (r : Resource) : Node where
  kind := r.kind
  displayName := r.displayName
  owner := r.owner
  valueType := r.valueType
  references := r.references
  parents := r.parents
  source := (Members.field r.attributes "source_type").bind Value.asStr
  target := (Members.field r.attributes "target_type").bind Value.asStr

def graph (rs : List Resource) : Graph := fun id => (byId rs id).map Resource.node

variable {rs : List Resource}

theorem byId_eq_some (hnd : (rs.map (·.id)).Nodup) {id : String} {r : Resource} :
    byId rs id = some r ↔ r ∈ rs ∧ r.id = id :=
  Lib.Lookup.find?_eq_some_iff_of_nodup hnd

theorem graph_eq_some (hnd : (rs.map (·.id)).Nodup) {id : String} {n : Node} :
    graph rs id = some n ↔ ∃ r ∈ rs, r.id = id ∧ r.node = n := by
  simp only [graph, Option.map_eq_some_iff, byId_eq_some hnd, and_assoc]

theorem exists_graph_iff {id : String} : (∃ n, graph rs id = some n) ↔ (byId rs id).isSome = true := by
  simp [graph, Option.isSome_iff_exists]

theorem isType_iff {id : String} :
    (graph rs).IsType id ↔ ∃ r, byId rs id = some r ∧ isType r.kind = true := by
  simp only [Graph.IsType, graph, Option.map_eq_some_iff]
  constructor
  · rintro ⟨n, ⟨r, hr, rfl⟩, hk⟩
    exact ⟨r, hr, hk⟩
  · rintro ⟨r, hr, hk⟩
    exact ⟨r.node, ⟨r, hr, rfl⟩, hk⟩

theorem mem_parentsOf {p id : String} : p ∈ parentsOf rs id ↔ (graph rs).Parent p id := by
  unfold parentsOf Graph.Parent graph
  cases byId rs id <;> simp [Resource.node]

theorem mem_ownersOf {o id : String} : o ∈ ownersOf rs id ↔ (graph rs).Owner o id := by
  unfold ownersOf Graph.Owner graph
  cases byId rs id <;> simp [Resource.node, eq_comm]

variable {r : Resource}

theorem ownerIssues_eq_nil : ownerIssues rs r = [] ↔ ∀ o, r.owner = some o → (graph rs).IsType o := by
  unfold ownerIssues
  cases r.owner with
  | none => simp
  | some o =>
      simp only [isType_iff, Option.some.injEq, forall_eq']
      cases byId rs o with
      | none => simp
      | some x => by_cases hk : isType x.kind = true <;> simp [hk]

theorem referenceIssues_eq_nil :
    referenceIssues rs r = [] ↔ ∀ y ∈ r.references, ∃ m, graph rs y = some m := by
  simp [referenceIssues, List.flatMap_eq_nil_iff, exists_graph_iff, Option.isSome_iff_ne_none]

theorem parentIssues_eq_nil : parentIssues rs r = [] ↔ ∀ p ∈ r.parents, (graph rs).IsType p := by
  unfold parentIssues
  rw [List.flatMap_eq_nil_iff]
  refine forall₂_congr fun p _ => ?_
  rw [isType_iff]
  cases byId rs p with
  | none => simp
  | some x => by_cases hk : isType x.kind = true <;> simp [hk]

theorem valueTypeIssues_eq_nil :
    valueTypeIssues rs r = [] ↔ (r.kind = "property" →
      ∃ t, r.valueType = some t ∧ t ≠ "" ∧ (t ∈ scalarTypes ∨ ∃ m, graph rs t = some m)) := by
  unfold valueTypeIssues
  split
  next hk =>
    split
    next h => simp [h, hk]
    next h => simp [h, hk]
    next t hne h =>
      have ht : t ≠ "" := hne
      simp [h, hk, ht, exists_graph_iff, Option.isSome_iff_ne_none, or_iff_not_imp_left]
  next hk => simp [hk]

theorem validateLinkEndpoint_eq_nil {field : String} :
    validateLinkEndpoint rs r field = [] ↔
      ∃ t, (Members.field r.attributes field).bind Value.asStr = some t ∧ (graph rs).IsType t := by
  unfold validateLinkEndpoint
  cases (Members.field r.attributes field).bind Value.asStr with
  | none => simp
  | some t =>
      simp only [Option.bind_some, Option.some.injEq, exists_eq_left', isType_iff]
      cases byId rs t with
      | none => simp
      | some x => by_cases hk : isType x.kind = true <;> simp [hk]

theorem mem_names (hnd : (rs.map (·.id)).Nodup) (ownerEdges : Bool) (v w : String)
    (h : w ∈ edgesOf rs ownerEdges v) : w ∈ names rs ownerEdges := by
  have hv : ∃ x, byId rs v = some x := by
    cases hb : byId rs v with
    | none => cases ownerEdges <;> simp [edgesOf, ownersOf, parentsOf, hb] at h
    | some x => exact ⟨x, rfl⟩
  obtain ⟨x, hx⟩ := hv
  obtain ⟨hm, rfl⟩ := (byId_eq_some hnd).mp hx
  exact List.mem_flatMap.mpr ⟨x, hm, List.mem_cons_of_mem _ h⟩

theorem findCycle_eq_none (hnd : (rs.map (·.id)).Nodup) (ownerEdges : Bool) :
    findCycle rs ownerEdges = none ↔ ∀ r ∈ rs, Acc (Lib.DepthFirst.Below (edgesOf rs ownerEdges)) r.id := by
  unfold findCycle
  rw [Lib.DepthFirst.search_eq_none (mem_names hnd ownerEdges) (fun id hid => ?_)]
  · simp
  · obtain ⟨r, hr, rfl⟩ := List.mem_map.mp hid
    exact List.mem_flatMap.mpr ⟨r, hr, List.mem_cons_self⟩

theorem below_parents : Lib.DepthFirst.Below (edgesOf rs false) = (graph rs).Parent := by
  funext w v
  exact propext mem_parentsOf

theorem below_owners : Lib.DepthFirst.Below (edgesOf rs true) = (graph rs).Owner := by
  funext w v
  exact propext mem_ownersOf

/-- The ancestor set is the transitive closure of inheritance. -/
theorem mem_ancestors (hnd : (rs.map (·.id)).Nodup) {a id : String} :
    a ∈ ancestors rs id ↔ TransGen (graph rs).Parent a id := by
  let succ : String → Except Empty (List String) := fun x => .ok (parentsOf rs x)
  have hedge : ∀ x y, Lib.Worklist.Edge succ x y ↔ (graph rs).Parent y x := by
    intro x y
    simp [Lib.Worklist.Edge, succ, ← mem_parentsOf]
  have hstart : Lib.Worklist.Progress succ [id] [] [] [id] :=
    ⟨by simp, by simp, by simp, by simp, fun x hx => .inl (by simpa using hx)⟩
  have hroom : [id].length + Lib.Worklist.unseen (names rs false) [] < (names rs false).length + 2 := by
    have := (names rs false).toFinset_card_le
    simp only [List.length_singleton, Lib.Worklist.unseen, List.toFinset_nil, Finset.sdiff_empty]
    omega
  have hswap : TransGen (Lib.Worklist.Edge succ) id a ↔ TransGen (graph rs).Parent a id := by
    rw [← transGen_swap]
    have : Function.swap (Lib.Worklist.Edge succ) = (graph rs).Parent := by
      funext y x
      exact propext (hedge x y)
    rw [this]
  unfold ancestors
  split
  next result hr =>
    have hp := Lib.Worklist.visit_ok (U := names rs false) (fun x deps hx y hy => by
      cases hx
      exact mem_names hnd false x y hy) hstart hroom hr
    rw [Std.ExtTreeSet.mem_toList, Std.ExtTreeSet.mem_ofList, List.contains_iff_mem, ← hswap]
    simpa using hp.mem_iff

end Galadril.Registry.Ontology
