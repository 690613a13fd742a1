import Galadril.Registry.OntologyGraph

namespace Galadril.Registry.Ontology

open Json Lib.Checked Identity Relation

variable {rs : List Resource}

theorem property_iff (hnd : (rs.map (·.id)).Nodup) {owner : String} {n : Node} :
    (graph rs).Property owner n ↔ ∃ r ∈ propertiesOf rs owner, r.node = n := by
  simp only [Graph.Property, graph_eq_some hnd, propertiesOf, List.mem_filter, Bool.and_eq_true,
    decide_eq_true_eq, beq_iff_eq]
  constructor
  · rintro ⟨⟨id, r, hr, -, rfl⟩, hk, ho⟩
    exact ⟨r, ⟨hr, hk, ho⟩, rfl⟩
  · rintro ⟨r, ⟨hr, hk, ho⟩, rfl⟩
    exact ⟨⟨r.id, r, hr, rfl, rfl⟩, hk, ho⟩

theorem validateInheritedProperties_eq_nil :
    validateInheritedProperties rs = [] ↔
      ∀ r ∈ rs, ∀ a ∈ ancestors rs r.id, ∀ own ∈ propertiesOf rs r.id, ∀ inherited ∈ propertiesOf rs a,
        own.displayName = inherited.displayName → own.valueType = inherited.valueType := by
  unfold validateInheritedProperties
  rw [List.flatMap_eq_nil_iff]
  refine forall₂_congr fun r _ => ?_
  split
  next he => simp [List.isEmpty_iff.mp he]
  next he =>
    simp only [List.flatMap_eq_nil_iff]
    refine forall₂_congr fun a _ => forall₂_congr fun own _ => forall₂_congr fun inherited _ => ?_
    split <;> simp_all

theorem resourceIssues_eq_nil {r : Resource} :
    resourceIssues rs r = [] ↔
      (∀ o, r.owner = some o → (graph rs).IsType o) ∧
      (∀ y ∈ r.references, ∃ m, graph rs y = some m) ∧
      (∀ p ∈ r.parents, (graph rs).IsType p) ∧
      (r.kind = "property" →
        ∃ t, r.valueType = some t ∧ t ≠ "" ∧ (t ∈ scalarTypes ∨ ∃ m, graph rs t = some m)) ∧
      (r.kind = "link_type" →
        (∃ t, r.node.source = some t ∧ (graph rs).IsType t) ∧
          ∃ t, r.node.target = some t ∧ (graph rs).IsType t) := by
  have hl : linkIssues rs r = [] ↔ (r.kind = "link_type" →
      (∃ t, r.node.source = some t ∧ (graph rs).IsType t) ∧
        ∃ t, r.node.target = some t ∧ (graph rs).IsType t) := by
    unfold linkIssues
    split
    next hk => simp [hk, validateLinkEndpoint_eq_nil, Resource.node]
    next hk => simp [hk]
  simp only [resourceIssues, List.append_eq_nil_iff, ownerIssues_eq_nil, referenceIssues_eq_nil,
    parentIssues_eq_nil, valueTypeIssues_eq_nil, hl, and_assoc]

theorem detectCycles_eq_nil (hnd : (rs.map (·.id)).Nodup) :
    detectCycles rs = [] ↔
      (∀ r ∈ rs, Acc (graph rs).Parent r.id) ∧ ∀ r ∈ rs, Acc (graph rs).Owner r.id := by
  simp [detectCycles, findCycle_eq_none hnd, below_parents, below_owners]

/-- The validator reports nothing exactly on sound graphs. -/
theorem graphIssues_eq_nil (hnd : (rs.map (·.id)).Nodup) : graphIssues rs = [] ↔ (graph rs).Sound := by
  have hex : ∀ {id n}, graph rs id = some n → ∃ r ∈ rs, r.id = id ∧ r.node = n :=
    (graph_eq_some hnd).mp
  have hin : ∀ r ∈ rs, graph rs r.id = some r.node := fun r hr => (graph_eq_some hnd).mpr ⟨r, hr, rfl, rfl⟩
  simp only [graphIssues, List.append_eq_nil_iff, List.flatMap_eq_nil_iff, resourceIssues_eq_nil,
    detectCycles_eq_nil hnd, validateInheritedProperties_eq_nil]
  constructor
  · rintro ⟨⟨hlocal, hparent, howner⟩, hcompat⟩
    refine ⟨?_, ?_, ?_, ?_, ?_, ?_, ?_, ?_, ?_⟩
    · intro id n o h ho
      obtain ⟨r, hr, rfl, rfl⟩ := hex h
      exact (hlocal r hr).1 o ho
    · intro id n y h hy
      obtain ⟨r, hr, rfl, rfl⟩ := hex h
      exact (hlocal r hr).2.1 y hy
    · intro id n p h hp
      obtain ⟨r, hr, rfl, rfl⟩ := hex h
      exact (hlocal r hr).2.2.1 p hp
    · intro id n h hk
      obtain ⟨r, hr, rfl, rfl⟩ := hex h
      exact (hlocal r hr).2.2.2.1 hk
    · intro id n h hk
      obtain ⟨r, hr, rfl, rfl⟩ := hex h
      exact ((hlocal r hr).2.2.2.2 hk).1
    · intro id n h hk
      obtain ⟨r, hr, rfl, rfl⟩ := hex h
      exact ((hlocal r hr).2.2.2.2 hk).2
    · intro id n h
      obtain ⟨r, hr, rfl, rfl⟩ := hex h
      exact hparent r hr
    · intro id n h
      obtain ⟨r, hr, rfl, rfl⟩ := hex h
      exact howner r hr
    · intro id a n m ha hn hm hd
      obtain ⟨own, hown, rfl⟩ := (property_iff hnd).mp hn
      obtain ⟨inherited, hinh, rfl⟩ := (property_iff hnd).mp hm
      obtain ⟨n, h, -⟩ : ∃ n, graph rs id = some n ∧ True := by
        cases ha with
        | single h => exact ⟨_, h.choose_spec.1, trivial⟩
        | tail _ h => exact ⟨_, h.choose_spec.1, trivial⟩
      obtain ⟨r, hr, rfl, rfl⟩ := hex h
      exact hcompat r hr a ((mem_ancestors hnd).mpr ha) own hown inherited hinh hd
  · intro h
    refine ⟨⟨fun r hr => ⟨fun o ho => h.owner (hin r hr) ho, fun y hy => h.reference (hin r hr) hy,
      fun p hp => h.parent (hin r hr) hp, fun hk => h.valueType (hin r hr) hk,
      fun hk => ⟨h.source (hin r hr) hk, h.target (hin r hr) hk⟩⟩,
      fun r hr => h.inheritance (hin r hr), fun r hr => h.ownership (hin r hr)⟩, ?_⟩
    intro r _ a ha own hown inherited hinh hd
    exact h.compatible ((mem_ancestors hnd).mp ha) ((property_iff hnd).mpr ⟨own, hown, rfl⟩)
      ((property_iff hnd).mpr ⟨inherited, hinh, rfl⟩) hd

theorem parseResource_seen {seen : List String} {v : Value} {r : Resource} :
    parseResource seen v = .ok r ↔ parseResource [] v = .ok r ∧ r.id ∉ seen := by
  simp only [parseResource, bind_eq_ok, ensure_eq_ok, pure_eq_ok, List.contains_nil, Bool.not_false,
    true_and, exists_const]
  constructor
  · rintro ⟨id, h1, h2, h3, kind, h4, h5, name, h6, attributes, h7, references, h8, ext, h9, int, h10, rfl⟩
    exact ⟨⟨id, h1, h2, kind, h4, h5, name, h6, attributes, h7, references, h8, ext, h9, int, h10, rfl⟩,
      by simpa using h3⟩
  · rintro ⟨⟨id, h1, h2, kind, h4, h5, name, h6, attributes, h7, references, h8, ext, h9, int, h10, rfl⟩, hs⟩
    exact ⟨id, h1, h2, by simpa using hs, kind, h4, h5, name, h6, attributes, h7, references, h8, ext, h9,
      int, h10, rfl⟩

/-- A list of resources parses elementwise, with distinct identities. -/
theorem parseAll_eq_ok {seen : List String} {vs : List Value} {rs : List Resource} :
    parseAll seen vs = .ok rs ↔
      List.Forall₂ (fun v r => parseResource [] v = .ok r) vs rs ∧ (rs.map (·.id)).Nodup ∧
        ∀ r ∈ rs, r.id ∉ seen := by
  induction vs generalizing seen rs with
  | nil => cases rs <;> simp [parseAll]
  | cons v vs ih =>
      simp only [parseAll, bind_eq_ok, pure_eq_ok, ih]
      cases rs with
      | nil => simp
      | cons r rs =>
          simp only [List.cons.injEq, List.forall₂_cons, List.map_cons, List.nodup_cons, List.forall_mem_cons]
          constructor
          · rintro ⟨x, hx, xs, ⟨h1, h2, h3⟩, rfl, rfl⟩
            obtain ⟨hx, hs⟩ := parseResource_seen.mp hx
            refine ⟨⟨hx, h1⟩, ⟨fun hm => ?_, h2⟩, hs, fun y hy => ?_⟩
            · obtain ⟨y, hy, he⟩ := List.mem_map.mp hm
              exact h3 y hy (by simp [he])
            · exact fun hm => h3 y hy (List.mem_cons_of_mem _ hm)
          · rintro ⟨⟨hx, h1⟩, ⟨h2, h3⟩, hs, h4⟩
            refine ⟨r, parseResource_seen.mpr ⟨hx, hs⟩, rs, ⟨h1, h3, fun y hy hm => ?_⟩, rfl, rfl⟩
            rcases List.mem_cons.mp hm with he | hm
            · exact h2 (he ▸ List.mem_map_of_mem hy)
            · exact h4 y hy hm

/-- Acceptance in terms of the resources found and the graph they span. -/
theorem validateOntology_iff {o : Value} :
    Accepts (validateOntology o) ↔
      (∃ version, o.getStr "version" = some version ∧ version ≠ "") ∧
        ∃ vs rs, o.getArray "resources" = some vs ∧
          List.Forall₂ (fun v r => parseResource [] v = .ok r) vs rs ∧ (rs.map (·.id)).Nodup ∧
          (graph rs).Sound := by
  simp only [validateOntology, parseResources, accepts_bind, bind_eq_ok, context_eq_ok, ensure_eq_ok,
    accepts_ensure, List.isEmpty_iff, parseAll_eq_ok, bne_iff_ne, exists_const]
  constructor
  · rintro ⟨rs, ⟨version, h1, h2, vs, h3, h4, h5, -⟩, h6⟩
    exact ⟨⟨version, h1, h2⟩, vs, rs, h3, h4, h5, (graphIssues_eq_nil h5).mp h6⟩
  · rintro ⟨⟨version, h1, h2⟩, vs, rs, h3, h4, h5, h6⟩
    exact ⟨rs, ⟨version, h1, h2, vs, h3, h4, h5, by simp⟩, (graphIssues_eq_nil h5).mpr h6⟩

theorem stringArray_canon (v : Option Value) (field : String) :
    stringArray (v.map Value.canon) field = stringArray v field := by
  cases v with
  | none => rfl
  | some v =>
      cases v with
      | array items =>
          simp only [Option.map_some, Value.canon, stringArray, Value.canonItems_eq_map]
          induction items with
          | nil => rfl
          | cons item items ih => simp only [List.map_cons, List.mapM_cons, ih, Value.asStr_canon]
      | _ => rfl

theorem requiredString_canon (v : Value) (field owner : String) :
    requiredString v.canon field owner = requiredString v field owner := by
  simp only [requiredString, Value.getStr_canon]

def Resource.canon (r : Resource) : Resource := { r with attributes := Value.canonMembers r.attributes }

@[simp] theorem Resource.node_canon (r : Resource) : r.canon.node = r.node := by
  have h : ∀ field, (Members.field (Value.canonMembers r.attributes) field).bind Value.asStr =
      (Members.field r.attributes field).bind Value.asStr := by
    intro field
    rw [Value.field_canonMembers]
    cases Members.field r.attributes field <;> simp
  simp [Resource.node, Resource.canon, h]

theorem context_asObject_canon (o : Option Value) (e : String) :
    context ((o.map Value.canon).bind Value.asObject) e = Value.canonMembers <$> context (o.bind Value.asObject) e := by
  cases o with
  | none => rfl
  | some v => cases v <;> rfl

theorem parseResource_canon (v : Value) :
    parseResource [] v.canon = Resource.canon <$> parseResource [] v := by
  simp only [parseResource, map_bind, map_pure, context_asObject_canon, bind_map_left, requiredString_canon,
    Value.get_canon, Value.getStr_canon, Value.field_canonMembers, stringArray_canon]
  rfl

/-- Documents that are equal as JSON parse to the same node. -/
theorem parseResource_congr {v w : Value} {r : Resource} (he : v ≈ w) (h : parseResource [] v = .ok r) :
    ∃ x, parseResource [] w = .ok x ∧ x.id = r.id ∧ x.node = r.node := by
  have hc := parseResource_canon w
  rw [← Value.equiv_iff.mp he, parseResource_canon, h] at hc
  cases hx : parseResource [] w with
  | error e => simp [hx] at hc
  | ok x =>
      rw [hx] at hc
      have hrx : r.canon = x.canon := Except.ok.inj hc
      refine ⟨x, rfl, ?_, by rw [← x.node_canon, ← hrx, r.node_canon]⟩
      have hid : r.canon.id = x.canon.id := by rw [hrx]
      exact hid.symm

/-- The same documents in another order, up to JSON equality. -/
def Rearranged (vs ws : List Value) : Prop := ∃ us, vs.Perm us ∧ List.Forall₂ (· ≈ ·) us ws

theorem parse_rearranged {vs ws : List Value} {rs : List Resource} (h : Rearranged vs ws)
    (hp : List.Forall₂ (fun v r => parseResource [] v = .ok r) vs rs) :
    ∃ xs, List.Forall₂ (fun v r => parseResource [] v = .ok r) ws xs ∧
      (xs.map fun x => (x.id, x.node)).Perm (rs.map fun r => (r.id, r.node)) := by
  obtain ⟨us, hperm, hsame⟩ := h
  obtain ⟨ts, hts, htr⟩ : ∃ ts, List.Forall₂ (fun v r => parseResource [] v = .ok r) us ts ∧ ts.Perm rs := by
    have := List.perm_comp_forall₂ hperm.symm hp
    exact this
  have hxs : ∃ xs, List.Forall₂ (fun v r => parseResource [] v = .ok r) ws xs ∧
      xs.map (fun x => (x.id, x.node)) = ts.map fun r => (r.id, r.node) := by
    clear htr hperm hp
    induction hsame generalizing ts with
    | nil =>
        cases hts
        exact ⟨[], .nil, rfl⟩
    | cons he _ ih =>
        cases hts with
        | cons ht hts =>
            obtain ⟨xs, hxs, hmap⟩ := ih _ hts
            obtain ⟨x, hx, hid, hnode⟩ := parseResource_congr he ht
            exact ⟨x :: xs, .cons hx hxs, by simp [hmap, hid, hnode]⟩
  obtain ⟨xs, hx, hmap⟩ := hxs
  exact ⟨xs, hx, hmap ▸ htr.map _⟩

theorem graph_congr {rs xs : List Resource} (hnd : (rs.map (·.id)).Nodup)
    (h : (xs.map fun x => (x.id, x.node)).Perm (rs.map fun r => (r.id, r.node))) :
    (xs.map (·.id)).Nodup ∧ graph xs = graph rs := by
  have hids : (xs.map (·.id)).Perm (rs.map (·.id)) := by simpa [Function.comp_def] using h.map Prod.fst
  have hnd' := hids.nodup_iff.mpr hnd
  refine ⟨hnd', funext fun id => Option.ext fun n => ?_⟩
  have hm := h.mem_iff (a := (id, n))
  simpa [graph_eq_some hnd, graph_eq_some hnd'] using hm

/-- Validation depends neither on the order of resources nor on the order of
members. -/
theorem validateOntology_rearranged {o p : Value} {vs ws : List Value}
    (hversion : p.getStr "version" = o.getStr "version") (hvs : o.getArray "resources" = some vs)
    (hws : p.getArray "resources" = some ws) (h : Rearranged vs ws) (ho : Accepts (validateOntology o)) :
    Accepts (validateOntology p) := by
  obtain ⟨hv, us, rs, hus, hparse, hnd, hsound⟩ := validateOntology_iff.mp ho
  obtain rfl : vs = us := Option.some.inj (hvs.symm.trans hus)
  obtain ⟨xs, hx, hperm⟩ := parse_rearranged h hparse
  obtain ⟨hnd', hgraph⟩ := graph_congr hnd hperm
  exact validateOntology_iff.mpr ⟨hversion ▸ hv, ws, xs, hws, hx, hnd', hgraph ▸ hsound⟩

end Galadril.Registry.Ontology
