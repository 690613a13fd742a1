import Galadril.Lib.DepthFirst
import Galadril.Registry.OntologyValidity
import Galadril.Registry.PipelineScan

namespace Galadril.Registry.Ontology

open Json Lib Lib.Checked Identity Relation

inductive Lists : Option Value → List String → Prop
  | absent : Lists none []
  | null : Lists (some .null) []
  | one (name : String) : Lists (some (.string name)) [name]
  | many (names : List String) : Lists (some (.array (names.map .string))) names

structure Describes (v : Value) (r : Resource) : Prop where
  id : v.getStr "resource_id" = some r.id
  valid : validId r.id = true
  kind : v.getStr "kind" = some r.kind
  known : r.kind ∈ resourceKinds
  name : v.getStr "display_name" = some r.displayName
  named : r.displayName ≠ ""
  attributes : v.get "attributes" = some (.object r.attributes)
  owner : v.getStr "owner_id" = r.owner
  valueType : v.getStr "value_type" = r.valueType
  references : Lists (v.get "references") r.references
  parents : ∃ extended interfaces, Lists (Members.field r.attributes "extends") extended ∧
    Lists (Members.field r.attributes "interfaces") interfaces ∧ r.parents = extended ++ interfaces

theorem stringArray_eq_ok {v : Option Value} {field : String} {names : List String} :
    stringArray v field = .ok names ↔ Lists v names := by
  constructor
  · intro h
    cases v with
    | none => exact Except.ok.inj h ▸ .absent
    | some v =>
        cases v with
        | null => exact Except.ok.inj h ▸ .null
        | string name => exact Except.ok.inj h ▸ .one name
        | array items =>
            obtain rfl := Pipeline.mapM_asStr_iff.mp h
            exact .many names
        | bool | number | object => cases h
  · intro h
    cases h with
    | absent | null | one => rfl
    | many => exact Pipeline.mapM_asStr_iff.mpr rfl

theorem ne_empty_of_validId {id : String} (h : validId id = true) : id ≠ "" := by
  rintro rfl
  exact absurd h (by decide)

theorem parseResource_eq_ok {v : Value} {r : Resource} : parseResource [] v = .ok r ↔ Describes v r := by
  simp only [parseResource, bind_eq_ok, ensure_eq_ok, context_eq_ok, pure_eq_ok, Pipeline.requiredString_iff,
    stringArray_eq_ok, List.contains_iff_mem]
  have hobject : ∀ m, (v.get "attributes").bind Value.asObject = some m ↔ v.get "attributes" = some (.object m) := by
    intro m
    rw [Option.bind_eq_some_iff]
    constructor
    · rintro ⟨w, hw, hm⟩
      cases w <;> simp_all [Value.asObject]
    · intro hm
      exact ⟨_, hm, rfl⟩
  constructor
  · rintro ⟨id, ⟨hid, -⟩, _, hvalid, _, -, kind, ⟨hkind, -⟩, _, hknown, name, ⟨hname, hnamed⟩, attributes, hattributes,
      references, hreferences, extended, hextended, interfaces, hinterfaces, rfl⟩
    exact ⟨hid, hvalid, hkind, hknown, hname, hnamed, (hobject _).mp hattributes, rfl, rfl, hreferences,
      extended, interfaces, hextended, hinterfaces, rfl⟩
  · intro h
    obtain ⟨extended, interfaces, hextended, hinterfaces, hparents⟩ := h.parents
    have hkind : r.kind ≠ "" := by
      intro he
      exact absurd (he ▸ h.known) (by decide)
    refine ⟨r.id, ⟨h.id, ne_empty_of_validId h.valid⟩, (), h.valid, (), by simp, r.kind, ⟨h.kind, hkind⟩, (), h.known,
      r.displayName, ⟨h.name, h.named⟩, r.attributes, (hobject _).mpr h.attributes, r.references, h.references, extended,
      hextended, interfaces, hinterfaces, ?_⟩
    rw [h.owner, h.valueType, ← hparents]

structure Graph.Consistent (g : Graph) : Prop where
  owner : ∀ {id n o}, g id = some n → n.owner = some o → g.IsType o
  reference : ∀ {id n y}, g id = some n → y ∈ n.references → ∃ m, g y = some m
  parent : ∀ {id n p}, g id = some n → p ∈ n.parents → g.IsType p
  valueType : ∀ {id n}, g id = some n → n.kind = "property" →
    ∃ t, n.valueType = some t ∧ t ≠ "" ∧ (t ∈ scalarTypes ∨ ∃ m, g t = some m)
  source : ∀ {id n}, g id = some n → n.kind = "link_type" → ∃ t, n.source = some t ∧ g.IsType t
  target : ∀ {id n}, g id = some n → n.kind = "link_type" → ∃ t, n.target = some t ∧ g.IsType t
  inheritance : ∀ id, ¬ TransGen g.Parent id id
  ownership : ∀ id, ¬ TransGen g.Owner id id
  compatible : ∀ {id a n m}, TransGen g.Parent a id → g.Property id n → g.Property a m →
    n.displayName = m.displayName → n.valueType = m.valueType

/-- Accessibility from the known nodes of a finite relation is the absence of
cycles. -/
theorem acyclic_iff {rs : List Resource} (hnd : (rs.map (·.id)).Nodup) {r : String → String → Prop}
    (hr : ∀ a id, r a id → ∃ n, graph rs id = some n) :
    (∀ id, ¬ TransGen r id id) ↔ ∀ id n, graph rs id = some n → Acc r id := by
  have htargets : ∀ a id, r a id → id ∈ rs.map (·.id) := by
    intro a id h
    obtain ⟨n, hn⟩ := hr a id h
    obtain ⟨x, hx, hid, -⟩ := (graph_eq_some hnd).mp hn
    exact List.mem_map.mpr ⟨x, hx, hid⟩
  rw [Cycles.acyclic_iff_acc htargets]
  constructor
  · exact fun h id _ _ => h id
  · intro h id
    refine ⟨id, fun a ha => ?_⟩
    obtain ⟨n, hn⟩ := hr a id ha
    exact (h id n hn).inv ha

theorem sound_iff_consistent {rs : List Resource} (hnd : (rs.map (·.id)).Nodup) : (graph rs).Sound ↔ (graph rs).Consistent := by
  have hparent := acyclic_iff hnd (r := (graph rs).Parent) fun a id ⟨n, hn, _⟩ => ⟨n, hn⟩
  have howner := acyclic_iff hnd (r := (graph rs).Owner) fun a id ⟨n, hn, _⟩ => ⟨n, hn⟩
  constructor
  · intro h
    exact ⟨h.owner, h.reference, h.parent, h.valueType, h.source, h.target, hparent.mpr fun _ _ hn => h.inheritance hn,
      howner.mpr fun _ _ hn => h.ownership hn, h.compatible⟩
  · intro h
    exact ⟨h.owner, h.reference, h.parent, h.valueType, h.source, h.target, hparent.mp h.inheritance _ _,
      howner.mp h.ownership _ _, h.compatible⟩

structure Specified (ontology : Value) (values : List Value) (resources : List Resource) : Prop where
  version : ∃ version, ontology.getStr "version" = some version ∧ version ≠ ""
  listed : ontology.getArray "resources" = some values
  described : List.Forall₂ Describes values resources
  distinct : (resources.map (·.id)).Nodup
  consistent : (graph resources).Consistent

/-- The validator accepts exactly the specified ontologies, whatever the order of
their resources. -/
theorem validateOntology_decides (ontology : Value) :
    (Accepts (validateOntology ontology) ↔ ∃ values resources, Specified ontology values resources) ∧
    ∀ other values values', ontology.getArray "resources" = some values → other.getArray "resources" = some values' →
      other.getStr "version" = ontology.getStr "version" → values.Perm values' →
      (Accepts (validateOntology other) ↔ Accepts (validateOntology ontology)) := by
  constructor
  · have hparse : (fun v r => parseResource [] v = .ok r) = Describes := by
      funext v r
      exact propext parseResource_eq_ok
    rw [validateOntology_iff, hparse]
    constructor
    · rintro ⟨hversion, values, resources, hlisted, hdescribed, hdistinct, hsound⟩
      exact ⟨values, resources, hversion, hlisted, hdescribed, hdistinct, (sound_iff_consistent hdistinct).mp hsound⟩
    · rintro ⟨values, resources, h⟩
      exact ⟨h.version, values, resources, h.listed, h.described, h.distinct,
        (sound_iff_consistent h.distinct).mpr h.consistent⟩
  · intro other values values' hvalues hvalues' hversion hperm
    have hsame : ∀ items : List Value, List.Forall₂ (· ≈ ·) items items :=
      fun items => List.forall₂_same.mpr fun v _ => Setoid.refl v
    exact ⟨validateOntology_rearranged hversion.symm hvalues' hvalues ⟨values, hperm.symm, hsame values⟩,
      validateOntology_rearranged hversion hvalues hvalues' ⟨values', hperm, hsame values'⟩⟩

def personType : Value :=
  .object [("resource_id", .string "person"), ("kind", .string "object_type"), ("display_name", .string "Person"),
    ("attributes", .object [])]

def personName : Value :=
  .object [("resource_id", .string "name"), ("kind", .string "property"), ("display_name", .string "Name"),
    ("attributes", .object []), ("owner_id", .string "person"), ("value_type", .string "string")]

def ontologyOf (values : List Value) : Value := .object [("version", .string "1"), ("resources", .array values)]

theorem validateOntology_decides_reversed :
    Accepts (validateOntology (ontologyOf [personType, personName])) ∧
    (Accepts (validateOntology (ontologyOf [personName, personType])) ↔
      Accepts (validateOntology (ontologyOf [personType, personName]))) :=
  ⟨by decide +kernel, (validateOntology_decides (ontologyOf [personType, personName])).2 (ontologyOf [personName, personType])
    [personType, personName] [personName, personType] rfl rfl rfl (.swap _ _ _)⟩

end Galadril.Registry.Ontology
