import Galadril.Registry.OntologyValidity

namespace Galadril.Registry.Ontology

open Json Lib.Checked

def resourceId (v : Value) : Option String := v.getStr "resource_id"

def validateSelector (ontology : Value) (resourceIds kinds : List String) : Except String Unit := do
  let resources ← context (ontology.getArray "resources") "ontology resources missing"
  let ids := resources.filterMap resourceId
  ensure (resourceIds.all ids.contains) "selector references missing resource"
  ensure (kinds.all resourceKinds.contains) "selector has invalid resource kind"
  ensure (!resourceIds.isEmpty || !kinds.isEmpty) "ontology selector is empty"

def validateOntologySelector (ontology : Value) (resourceIds kinds : List String) : Except String Unit := do
  validateOntology ontology
  validateSelector ontology resourceIds kinds

variable (resources : List Value)

def valueById (id : String) : Option Value := resources.find? (fun v => resourceId v = some id)

def ownedProperties (id : String) : List String :=
  (resources.filter fun v => v.getStr "kind" = some "property" ∧ v.getStr "owner_id" = some id).filterMap
    resourceId

def dependencies (id : String) : Except String (List String) :=
  match valueById resources id with
  | none => .ok []
  | some v => do
      let references ← stringArray (v.get "references") "references"
      let attributes ←
        match (v.get "attributes").bind Value.asObject with
        | none => .ok []
        | some attributes =>
            ["extends", "interfaces", "source_type", "target_type"].mapM fun field =>
              stringArray (Members.field attributes field) field
      let named := references ++ (v.getStr "owner_id").toList ++ attributes.flatten ++ ownedProperties resources id
      return named.filter fun y => (valueById resources y).isSome

def selectedIds (resourceIds kinds : List String) : List String :=
  let chosen := resources.filter fun v =>
    (resourceId v).any resourceIds.contains || (v.getStr "kind").any kinds.contains
  (Std.ExtTreeSet.ofList (chosen.filterMap resourceId)).toList

def closeSelection (start : List String) : Except String (List String) :=
  Lib.Worklist.visit (dependencies resources) (start.length + resources.length + 1) start start.reverse

def gather (resourceIds kinds : List String) (includeDependencies : Bool) : Except String (List String) :=
  let start := selectedIds resources resourceIds kinds
  if includeDependencies then closeSelection resources start else .ok start

def sliceOntology (ontology : Value) (resourceIds kinds : List String) (includeDependencies : Bool) :
    Except String Value := do
  validateOntology ontology
  validateSelector ontology resourceIds kinds
  let resources ← context (ontology.getArray "resources") "ontology resources missing"
  let chosen ← gather resources resourceIds kinds includeDependencies
  let sliced := resources.filter fun v => (resourceId v).any chosen.contains
  let version ← context (ontology.get "version") "ontology version missing"
  let result := Value.object [("version", version), ("resources", .array sliced)]
  validateOntology result
  return result

def resourceValue (id kind : String) (more attributes : Members) : Value :=
  .object ([("resource_id", .string id), ("kind", .string kind), ("display_name", .string id),
    ("attributes", .object attributes)] ++ more)

def document (version : String) (resources : List Value) : Value :=
  .object [("version", .string version), ("resources", .array resources)]

def addressBook : Value :=
  document "1" [resourceValue "person" "object_type" [] [], resourceValue "address" "object_type" [] [],
    resourceValue "home" "property" [("owner_id", .string "person"), ("value_type", .string "address")] []]

open Relation

namespace Graph

/-- The dependencies that validation requires to resolve. -/
inductive Needs (g : Graph) (x y : String) : Prop
  | reference {n : Node} (h : g x = some n) (hy : y ∈ n.references)
  | owner {n : Node} (h : g x = some n) (hy : n.owner = some y)
  | parent {n : Node} (h : g x = some n) (hy : y ∈ n.parents)
  | source {n : Node} (h : g x = some n) (hk : n.kind = "link_type") (hy : n.source = some y)
  | target {n : Node} (h : g x = some n) (hk : n.kind = "link_type") (hy : n.target = some y)
  | valueType {n : Node} (h : g x = some n) (hk : n.kind = "property") (hy : n.valueType = some y)
      (hs : y ∉ scalarTypes)

def restrict (g : Graph) (S : String → Bool) : Graph := fun id => if S id then g id else none

variable {g : Graph} {S : String → Bool}

theorem restrict_eq_some {id : String} {n : Node} : g.restrict S id = some n ↔ S id = true ∧ g id = some n := by
  simp [restrict]

theorem restrict_isType {id : String} : (g.restrict S).IsType id ↔ S id = true ∧ g.IsType id := by
  simp only [IsType, restrict_eq_some, and_assoc, exists_and_left]

theorem Needs.exists_target (h : g.Sound) {x y : String} (hxy : g.Needs x y) : ∃ m, g y = some m := by
  cases hxy with
  | reference hx hy => exact h.reference hx hy
  | owner hx hy => exact (h.owner hx hy).imp fun _ => And.left
  | parent hx hy => exact (h.parent hx hy).imp fun _ => And.left
  | source hx hk hy =>
      obtain ⟨t, ht, hm⟩ := h.source hx hk
      obtain rfl : t = y := Option.some.inj (ht.symm.trans hy)
      exact hm.imp fun _ => And.left
  | target hx hk hy =>
      obtain ⟨t, ht, hm⟩ := h.target hx hk
      obtain rfl : t = y := Option.some.inj (ht.symm.trans hy)
      exact hm.imp fun _ => And.left
  | valueType hx hk hy hs =>
      obtain ⟨t, ht, -, hm⟩ := h.valueType hx hk
      obtain rfl : t = y := Option.some.inj (ht.symm.trans hy)
      exact hm.resolve_left hs

theorem Needs.of_restrict {x y : String} (h : (g.restrict S).Needs x y) : g.Needs x y := by
  have hdrop : ∀ {z n}, g.restrict S z = some n → g z = some n := fun hn => (restrict_eq_some.mp hn).2
  cases h with
  | reference hn hy => exact .reference (hdrop hn) hy
  | owner hn hy => exact .owner (hdrop hn) hy
  | parent hn hy => exact .parent (hdrop hn) hy
  | source hn hk hy => exact .source (hdrop hn) hk hy
  | target hn hk hy => exact .target (hdrop hn) hk hy
  | valueType hn hk hy hs => exact .valueType (hdrop hn) hk hy hs

theorem closed_of_restrict_sound (h : (g.restrict S).Sound) {x y : String} (hx : S x = true)
    (hxy : g.Needs x y) : S y = true := by
  have hlift : ∀ {n}, g x = some n → g.restrict S x = some n := fun hn => restrict_eq_some.mpr ⟨hx, hn⟩
  have hneeds : (g.restrict S).Needs x y := by
    cases hxy with
    | reference hn hy => exact .reference (hlift hn) hy
    | owner hn hy => exact .owner (hlift hn) hy
    | parent hn hy => exact .parent (hlift hn) hy
    | source hn hk hy => exact .source (hlift hn) hk hy
    | target hn hk hy => exact .target (hlift hn) hk hy
    | valueType hn hk hy hs => exact .valueType (hlift hn) hk hy hs
  obtain ⟨m, hm⟩ := hneeds.exists_target h
  exact (restrict_eq_some.mp hm).1

/-- A subgraph of a sound graph is sound when it is closed under the required
dependencies: acyclicity and compatibility are inherited. -/
theorem Sound.restrict (h : g.Sound) (hS : ∀ x y, S x = true → g.Needs x y → S y = true) :
    (g.restrict S).Sound := by
  have hparent : ∀ p x, (g.restrict S).Parent p x → g.Parent p x := by
    rintro p x ⟨n, hn, hp⟩
    exact ⟨n, (restrict_eq_some.mp hn).2, hp⟩
  have howner : ∀ o x, (g.restrict S).Owner o x → g.Owner o x := by
    rintro o x ⟨n, hn, ho⟩
    exact ⟨n, (restrict_eq_some.mp hn).2, ho⟩
  have hprop : ∀ {o n}, (g.restrict S).Property o n → g.Property o n := by
    rintro o n ⟨⟨id, hid⟩, hk, ho⟩
    exact ⟨⟨id, (restrict_eq_some.mp hid).2⟩, hk, ho⟩
  refine ⟨?_, ?_, ?_, ?_, ?_, ?_, ?_, ?_, ?_⟩
  · intro id n o hn ho
    obtain ⟨hx, hn⟩ := restrict_eq_some.mp hn
    exact restrict_isType.mpr ⟨hS id o hx (.owner hn ho), h.owner hn ho⟩
  · intro id n y hn hy
    obtain ⟨hx, hn⟩ := restrict_eq_some.mp hn
    obtain ⟨m, hm⟩ := h.reference hn hy
    exact ⟨m, restrict_eq_some.mpr ⟨hS id y hx (.reference hn hy), hm⟩⟩
  · intro id n p hn hp
    obtain ⟨hx, hn⟩ := restrict_eq_some.mp hn
    exact restrict_isType.mpr ⟨hS id p hx (.parent hn hp), h.parent hn hp⟩
  · intro id n hn hk
    obtain ⟨hx, hn⟩ := restrict_eq_some.mp hn
    obtain ⟨t, ht, hne, hres⟩ := h.valueType hn hk
    refine ⟨t, ht, hne, or_iff_not_imp_left.mpr fun hs => ?_⟩
    obtain ⟨m, hm⟩ := hres.resolve_left hs
    exact ⟨m, restrict_eq_some.mpr ⟨hS id t hx (.valueType hn hk ht hs), hm⟩⟩
  · intro id n hn hk
    obtain ⟨hx, hn⟩ := restrict_eq_some.mp hn
    obtain ⟨t, ht, hty⟩ := h.source hn hk
    exact ⟨t, ht, restrict_isType.mpr ⟨hS id t hx (.source hn hk ht), hty⟩⟩
  · intro id n hn hk
    obtain ⟨hx, hn⟩ := restrict_eq_some.mp hn
    obtain ⟨t, ht, hty⟩ := h.target hn hk
    exact ⟨t, ht, restrict_isType.mpr ⟨hS id t hx (.target hn hk ht), hty⟩⟩
  · intro id n hn
    exact Subrelation.accessible (fun {a b} => hparent a b) (h.inheritance (restrict_eq_some.mp hn).2)
  · intro id n hn
    exact Subrelation.accessible (fun {a b} => howner a b) (h.ownership (restrict_eq_some.mp hn).2)
  · intro id a n m ha hn hm hd
    exact h.compatible (TransGen.mono hparent a id ha) (hprop hn) (hprop hm) hd

end Graph

end Galadril.Registry.Ontology
