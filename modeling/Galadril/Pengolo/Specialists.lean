import Galadril.Lib.Sha256
import Galadril.Pengolo.Capabilities

namespace Galadril.Pengolo.Capabilities

open Json Lib Lib.Checked Lib.Text Lib.Walks Relation

variable (catalog : CapabilityCatalog)

def CapabilityCatalog.find (id : String) : Option Capability := catalog.capabilities.find? (·.id == id)

structure Record where
  id : String
  ownerId : String
  revision : Nat
  data : Value
  deriving DecidableEq

def offered (skill : Capability) : Bool :=
  skill.pluginId.isSome && skill.kind == .skill && skill.execution == .registered && skill.targets.contains .scribe

def budget (start : Nat) : Nat := start + (catalog.capabilities.map fun item => item.compatibility.requires.length).sum + 1

def specialistDependencies (visited : Nat) (id : String) : Except String (List String) := do
  ensure (visited ≤ 256) "Specialist dependencies exceed limit"
  let item ← context (catalog.find id) "Missing specialist dependency"
  return item.compatibility.requires

def specialistClosure (skill : Capability) : Except String (List String) := do
  let visited ← walk id (specialistDependencies catalog) (budget catalog 1) [] [skill.id]
  return visited.reverse

def specialistRecord (skill : Capability) (skills : List String) : Record where
  id := String.ofList ((Lib.Sha256.sha256 (("galadril-plugin-specialist-v1:" ++ skill.id).toList.flatMap
    String.utf8EncodeChar)).toList.take 32)
  ownerId := ""
  revision := 1
  data := .object [("name", .string skill.name), ("mission", .string skill.description),
    ("skillIds", .array (skills.map .string)), ("readOnly", .bool true),
    ("pluginId", (skill.pluginId.map Value.string).getD .null)]

def isSkill (id : String) : Bool := (catalog.find id).any fun item => item.kind == .skill

def pluginSpecialist (skill : Capability) : Except String Record := do
  let visited ← specialistClosure catalog skill
  let skills := visited.filter (isSkill catalog)
  ensure (skills.length ≤ 8) "Specialist has too many Skills"
  return specialistRecord skill skills

def pluginSpecialists : Except String (List Record) := (catalog.capabilities.filter offered).mapM (pluginSpecialist catalog)

def allowsModel (model : Option String) (item : Capability) : Bool :=
  model.all fun model => item.compatibility.allowedModels.isEmpty || item.compatibility.allowedModels.contains model

def admittedKind (skills : List String) (item : Capability) : Except String Unit :=
  if item.kind = .skill then ensure (skills.contains item.id) "Select the required Skill"
  else ensure (item.kind == .mcp || item.kind == .algorithm) "Unsupported Skill dependency"

def agentDependencies (skills : List String) (model : Option String) (item : Capability) : Except String (List Capability) := do
  ensure (item.execution == .registered && item.targets.contains .scribe && allowsModel model item)
    "Skill or dependency is incompatible with this model"
  admittedKind skills item
  item.compatibility.requires.mapM fun id => context (catalog.find id) "Skill dependency unavailable"

def selectedSkill (id : String) : Except String Capability := do
  let skill ← context (catalog.find id) "Skill unavailable"
  ensure (skill.kind == .skill) "Skill unavailable"
  return skill

def isTool (item : Capability) : Bool := item.kind != .skill && !"core.".toList.isPrefixOf item.id.toList

def agentTools (skills : List String) (model : Option String) : Except String (List String) := do
  let pending ← skills.mapM (selectedSkill catalog)
  let visited ← walk Capability.id (fun _ => agentDependencies catalog skills model) (budget catalog skills.length)
    [] pending.reverse
  let tools := (visited.reverse.filter isTool).map Capability.id
  ensure (tools.length ≤ 32) "Too many agent tools"
  return tools

def validateAgentSkills (skills : List String) (model : Option String) : Except String Unit := do
  let _ ← agentTools catalog skills model
  return ()

section Requirements

variable {catalog : CapabilityCatalog}

def Requires (catalog : CapabilityCatalog) (id required : String) : Prop :=
  ∃ item ∈ catalog.capabilities, item.id = id ∧ required ∈ item.compatibility.requires

def Needed (catalog : CapabilityCatalog) (ids : List String) (id : String) : Prop :=
  ∃ start ∈ ids, ReflTransGen (Requires catalog) start id

def AtMost (n : Nat) (p : String → Prop) : Prop := ∀ ids : List String, ids.Nodup → (∀ id ∈ ids, p id) → ids.length ≤ n

def Tool (catalog : CapabilityCatalog) (ids : List String) (id : String) : Prop :=
  Needed catalog ids id ∧ ∃ item ∈ catalog.capabilities, item.id = id ∧ isTool item

/-- What an agent may depend on, with the skills that were selected. -/
structure Admits (skills : List String) (model : Option String) (item : Capability) : Prop where
  registered : item.execution = .registered
  scribe : .scribe ∈ item.targets
  allowed : allowsModel model item
  kind : item.kind = .skill ∧ item.id ∈ skills ∨ item.kind = .mcp ∨ item.kind = .algorithm

/-- The transitive requirements of the selected skills exist and may be depended
on, and at most 32 of them are tools. -/
structure Usable (catalog : CapabilityCatalog) (skills : List String) (model : Option String) : Prop where
  selected : ∀ id ∈ skills, ∃ item ∈ catalog.capabilities, item.id = id ∧ item.kind = .skill
  admitted : ∀ id, Needed catalog skills id → ∃ item ∈ catalog.capabilities, item.id = id ∧ Admits skills model item
  few : AtMost 32 (Tool catalog skills)

/-- The dependencies of a specialist can all be given to an agent. -/
structure Runnable (catalog : CapabilityCatalog) (id : String) : Prop where
  admitted : ∀ needed, Needed catalog [id] needed → ∃ item ∈ catalog.capabilities, item.id = needed ∧
    item.execution = .registered ∧ .scribe ∈ item.targets ∧ (item.kind = .skill ∨ item.kind = .mcp ∨ item.kind = .algorithm)
  few : AtMost 32 (Tool catalog [id])

theorem find_eq_some (hids : (catalog.capabilities.map Capability.id).Nodup) {id : String} {item : Capability} :
    catalog.find id = some item ↔ item ∈ catalog.capabilities ∧ item.id = id := by
  constructor
  · intro h
    exact ⟨List.mem_of_find?_eq_some h, by simpa using List.find?_some h⟩
  · rintro ⟨hmem, rfl⟩
    obtain ⟨other, hother⟩ : ∃ other, catalog.find item.id = some other := by
      rw [← Option.isSome_iff_exists, CapabilityCatalog.find, List.find?_isSome]
      exact ⟨item, hmem, by simp⟩
    have hid : other.id = item.id := by simpa using List.find?_some hother
    rw [hother, List.inj_on_of_nodup_map hids (List.mem_of_find?_eq_some hother) hmem hid]

theorem required_iff (hids : (catalog.capabilities.map Capability.id).Nodup) {ids : List String} {error : String}
    {items : List Capability} (h : (ids.mapM fun id => context (catalog.find id) error) = .ok items) {item : Capability} :
    item ∈ items ↔ item ∈ catalog.capabilities ∧ item.id ∈ ids := by
  rw [mapM_eq_ok] at h
  induction h with
  | nil => simp
  | @cons id first ids items hfirst _ ih =>
      obtain ⟨hmem, hid⟩ := (find_eq_some hids).mp (context_eq_ok.mp hfirst)
      rw [List.mem_cons, List.mem_cons, ih]
      constructor
      · rintro (rfl | ⟨hitem, hrest⟩)
        · exact ⟨hmem, .inl hid⟩
        · exact ⟨hitem, .inr hrest⟩
      · rintro ⟨hitem, hsame | hrest⟩
        · exact .inl (List.inj_on_of_nodup_map hids hitem hmem (hsame.trans hid.symm))
        · exact .inr ⟨hitem, hrest⟩

theorem lookups_accept (hids : (catalog.capabilities.map Capability.id).Nodup) {ids : List String} {error : String} :
    Accepts (ids.mapM fun id => context (catalog.find id) error) ↔ ∀ id ∈ ids, ∃ item ∈ catalog.capabilities, item.id = id := by
  induction ids with
  | nil => simp [Accepts, pure, Except.pure]
  | cons id ids ih =>
      rw [List.mapM_cons, accepts_bind, List.forall_mem_cons, ← ih]
      constructor
      · rintro ⟨item, hitem, hrest⟩
        obtain ⟨items, hitems, -⟩ := accepts_bind.mp hrest
        obtain ⟨hmem, hid⟩ := (find_eq_some hids).mp (context_eq_ok.mp hitem)
        exact ⟨⟨item, hmem, hid⟩, items, hitems⟩
      · rintro ⟨⟨item, hmem, hid⟩, items, hitems⟩
        exact ⟨item, context_eq_ok.mpr ((find_eq_some hids).mpr ⟨hmem, hid⟩), accepts_bind.mpr ⟨items, hitems, item :: items, rfl⟩⟩

end Requirements

section Agents

variable {catalog : CapabilityCatalog} {skills : List String} {model : Option String}

theorem admittedKind_eq_ok {item : Capability} {u : Unit} : admittedKind skills item = .ok u ↔
    item.kind = .skill ∧ item.id ∈ skills ∨ item.kind = .mcp ∨ item.kind = .algorithm := by
  rw [admittedKind]
  split
  next h => simp [h]
  next h => simp [h]

/-- An entry has its dependencies if and only if an agent may depend on it and
they exist. -/
theorem agentDependencies_accepts (hids : (catalog.capabilities.map Capability.id).Nodup) {item : Capability} :
    Accepts (agentDependencies catalog skills model item) ↔ Admits skills model item ∧
      ∀ id ∈ item.compatibility.requires, ∃ other ∈ catalog.capabilities, other.id = id := by
  rw [agentDependencies, accepts_bind]
  simp only [accepts_bind, ensure_eq_ok, admittedKind_eq_ok, lookups_accept hids, Bool.and_eq_true, beq_iff_eq,
    List.contains_iff_mem]
  constructor
  · rintro ⟨_, ⟨⟨hregistered, hscribe⟩, hallowed⟩, _, hkind, hrequires⟩
    exact ⟨⟨hregistered, hscribe, hallowed, hkind⟩, hrequires⟩
  · rintro ⟨⟨hregistered, hscribe, hallowed, hkind⟩, hrequires⟩
    exact ⟨(), ⟨⟨hregistered, hscribe⟩, hallowed⟩, (), hkind, hrequires⟩

theorem agentDependencies_mem (hids : (catalog.capabilities.map Capability.id).Nodup) {item : Capability} {next : List Capability}
    (h : agentDependencies catalog skills model item = .ok next) :
    next.length = item.compatibility.requires.length ∧
      ∀ other, other ∈ next ↔ other ∈ catalog.capabilities ∧ other.id ∈ item.compatibility.requires := by
  simp only [agentDependencies, bind_eq_ok] at h
  obtain ⟨_, -, _, -, hnext⟩ := h
  exact ⟨(mapM_eq_ok.mp hnext).length_eq.symm, fun other => required_iff hids hnext⟩

def weight (item : Capability) : Nat := item.compatibility.requires.length

theorem agent_walkable (hids : (catalog.capabilities.map Capability.id).Nodup) :
    Walkable Capability.id (fun _ => agentDependencies catalog skills model) (agentDependencies catalog skills model)
      (· ∈ catalog.capabilities) catalog.capabilities weight where
  apart a b ha hb h := List.inj_on_of_nodup_map hids ha hb h
  closed a b ha hedge := by
    obtain ⟨next, hnext, hb⟩ := hedge
    exact ((agentDependencies_mem hids hnext).2 b).mp hb |>.1
  finite a next ha _ := ha
  answers _ _ _ _ _ := Iff.rfl
  bounded a next hnext := (agentDependencies_mem hids hnext).1.le

theorem remaining_budget : remaining Capability.id weight catalog.capabilities [] =
    (catalog.capabilities.map fun item => item.compatibility.requires.length).sum := by
  simp [remaining, weight]

/-- Where every needed entry may be depended on, a requirement is an edge of the
traversal. -/
theorem agent_edge (hids : (catalog.capabilities.map Capability.id).Nodup) {a b : Capability}
    (hedge : Edge (agentDependencies catalog skills model) a b) : b ∈ catalog.capabilities ∧ b.id ∈ a.compatibility.requires := by
  obtain ⟨next, hnext, hb⟩ := hedge
  exact ((agentDependencies_mem hids hnext).2 b).mp hb

theorem agent_reach (hids : (catalog.capabilities.map Capability.id).Nodup) {a b : Capability} (ha : a ∈ catalog.capabilities)
    (h : ReflTransGen (Edge (agentDependencies catalog skills model)) a b) :
    b ∈ catalog.capabilities ∧ ReflTransGen (Requires catalog) a.id b.id := by
  induction h with
  | refl => exact ⟨ha, .refl⟩
  | tail _ hedge ih =>
      obtain ⟨hmem, hreach⟩ := ih
      obtain ⟨hb, hrequired⟩ := agent_edge hids hedge
      exact ⟨hb, hreach.tail ⟨_, hmem, rfl, hrequired⟩⟩

theorem selected_iff (hids : (catalog.capabilities.map Capability.id).Nodup) {pending : List Capability}
    (h : skills.mapM (selectedSkill catalog) = .ok pending) :
    (∀ item ∈ pending, item ∈ catalog.capabilities ∧ item.id ∈ skills) ∧
      ∀ id ∈ skills, ∃ item ∈ pending, item.id = id ∧ item.kind = .skill := by
  rw [mapM_eq_ok] at h
  induction h with
  | nil => simp
  | @cons id item ids items hitem _ ih =>
      simp only [selectedSkill, bind_eq_ok, context_eq_ok, ensure_eq_ok, pure_eq_ok, beq_iff_eq, find_eq_some hids] at hitem
      obtain ⟨_, ⟨hmem, hid⟩, _, hkind, rfl⟩ := hitem
      refine ⟨List.forall_mem_cons.mpr ⟨⟨hmem, hid ▸ List.mem_cons_self⟩, fun other hother => ?_⟩,
        List.forall_mem_cons.mpr ⟨⟨_, List.mem_cons_self, hid, hkind⟩, fun other hother => ?_⟩⟩
      · exact ⟨(ih.1 other hother).1, List.mem_cons_of_mem _ (ih.1 other hother).2⟩
      · obtain ⟨found, hfound, hrest⟩ := ih.2 other hother
        exact ⟨found, List.mem_cons_of_mem _ hfound, hrest⟩

/-- A traversal that ends has visited exactly the needed entries. -/
theorem visited_needed (hids : (catalog.capabilities.map Capability.id).Nodup) {pending visited : List Capability}
    (hpending : skills.mapM (selectedSkill catalog) = .ok pending)
    (h : Progress Capability.id (agentDependencies catalog skills model) (· ∈ catalog.capabilities) pending.reverse
      visited []) {id : String} :
    Needed catalog skills id ↔ ∃ item ∈ visited, item.id = id := by
  obtain ⟨hfound, hall⟩ := selected_iff hids hpending
  constructor
  · rintro ⟨start, hstart, hreach⟩
    induction hreach with
    | refl =>
        obtain ⟨item, hitem, hid, -⟩ := hall start hstart
        exact ⟨item, (h.started item (List.mem_reverse.mpr hitem)).resolve_right List.not_mem_nil, hid⟩
    | tail _ hrequires ih =>
        obtain ⟨item, hitem, hid⟩ := ih
        obtain ⟨other, hother, hsame, hrequired⟩ := hrequires
        obtain ⟨next, hnext, hfollow⟩ := h.followed item hitem
        obtain rfl := List.inj_on_of_nodup_map hids hother (h.nodes item (.inl hitem)) (hsame.trans hid.symm)
        have haccept := (agentDependencies_accepts hids).mp ⟨next, hnext⟩
        obtain ⟨required, hmem, rfl⟩ := haccept.2 _ hrequired
        have hnext' := ((agentDependencies_mem hids hnext).2 required).mpr ⟨hmem, hrequired⟩
        exact ⟨required, (hfollow required hnext').resolve_right List.not_mem_nil, rfl⟩
  · rintro ⟨item, hitem, rfl⟩
    obtain ⟨start, hstart, hreach⟩ := h.mem_iff.mp hitem
    obtain ⟨hmem, hskill⟩ := hfound start (List.mem_reverse.mp hstart)
    exact ⟨start.id, hskill, (agent_reach hids hmem hreach).2⟩

/-- The tools of a traversal are the tools that are needed, each once. -/
theorem tools_spec (hids : (catalog.capabilities.map Capability.id).Nodup) {pending visited : List Capability}
    (hpending : skills.mapM (selectedSkill catalog) = .ok pending)
    (h : Progress Capability.id (agentDependencies catalog skills model) (· ∈ catalog.capabilities) pending.reverse visited []) :
    ((visited.reverse.filter isTool).map Capability.id).Nodup ∧
      ∀ id, id ∈ (visited.reverse.filter isTool).map Capability.id ↔ Tool catalog skills id := by
  refine ⟨?_, fun id => ?_⟩
  · have hdistinct : (visited.reverse.map Capability.id).Nodup := by
      rw [List.map_reverse]
      exact List.nodup_reverse.mpr h.distinct
    exact (List.filter_sublist.map _).nodup hdistinct
  · rw [List.mem_map, Tool, visited_needed hids hpending h]
    constructor
    · rintro ⟨item, hitem, rfl⟩
      obtain ⟨hmem, htool⟩ := List.mem_filter.mp hitem
      have hvisited := List.mem_reverse.mp hmem
      exact ⟨⟨item, hvisited, rfl⟩, item, h.nodes item (.inl hvisited), rfl, htool⟩
    · rintro ⟨⟨item, hvisited, rfl⟩, other, hother, hid, htool⟩
      obtain rfl := List.inj_on_of_nodup_map hids hother (h.nodes item (.inl hvisited)) hid
      exact ⟨other, List.mem_filter.mpr ⟨List.mem_reverse.mpr hvisited, htool⟩, rfl⟩

theorem atMost_iff {n : Nat} {p : String → Prop} {ids : List String} (hnodup : ids.Nodup) (hall : ∀ id, id ∈ ids ↔ p id) :
    AtMost n p ↔ ids.length ≤ n := by
  refine ⟨fun h => h ids hnodup fun id hid => (hall id).mp hid, fun h more hmore hp => ?_⟩
  exact (hmore.subperm fun id hid => (hall id).mpr (hp id hid)).length_le.trans h

theorem agent_started (hids : (catalog.capabilities.map Capability.id).Nodup) {pending : List Capability}
    (hpending : skills.mapM (selectedSkill catalog) = .ok pending) :
    Progress Capability.id (agentDependencies catalog skills model) (· ∈ catalog.capabilities) pending.reverse [] pending.reverse :=
  .start fun item hitem => ((selected_iff hids hpending).1 item (List.mem_reverse.mp hitem)).1

theorem agent_progress (hids : (catalog.capabilities.map Capability.id).Nodup) {pending visited : List Capability}
    (hpending : skills.mapM (selectedSkill catalog) = .ok pending)
    (hwalk : walk Capability.id (fun _ => agentDependencies catalog skills model) (budget catalog skills.length) []
      pending.reverse = .ok visited) :
    Progress Capability.id (agentDependencies catalog skills model) (· ∈ catalog.capabilities) pending.reverse visited [] := by
  have hlength : pending.length = skills.length := (mapM_eq_ok.mp hpending).length_eq.symm
  refine walk_progress (agent_walkable hids) (agent_started hids hpending) ?_ hwalk
  rw [remaining_budget, List.length_reverse, hlength, budget]
  omega

theorem agentTools_eq_ok (hids : (catalog.capabilities.map Capability.id).Nodup) {tools : List String}
    (h : agentTools catalog skills model = .ok tools) :
    Usable catalog skills model ∧ tools.Nodup ∧ ∀ id, id ∈ tools ↔ Tool catalog skills id := by
  simp only [agentTools, bind_eq_ok, ensure_eq_ok, decide_eq_true_eq, pure_eq_ok] at h
  obtain ⟨pending, hpending, visited, hwalk, _, hfew, rfl⟩ := h
  obtain ⟨hfound, hall⟩ := selected_iff hids hpending
  have hprogress := agent_progress hids hpending hwalk
  obtain ⟨hnodup, htools⟩ := tools_spec hids hpending hprogress
  refine ⟨⟨fun id hid => ?_, fun id hid => ?_, (atMost_iff hnodup htools).mpr hfew⟩, hnodup, htools⟩
  · obtain ⟨item, hitem, hrest⟩ := hall id hid
    exact ⟨item, (hfound item hitem).1, hrest⟩
  · obtain ⟨item, hitem, rfl⟩ := (visited_needed hids hpending hprogress).mp hid
    obtain ⟨next, hnext, -⟩ := hprogress.followed item hitem
    exact ⟨item, hprogress.nodes item (.inl hitem), rfl, ((agentDependencies_accepts hids).mp ⟨next, hnext⟩).1⟩

theorem agentTools_accepts (hids : (catalog.capabilities.map Capability.id).Nodup) (h : Usable catalog skills model) :
    Accepts (agentTools catalog skills model) := by
  obtain ⟨hselected, hadmitted, hfew⟩ := h
  obtain ⟨pending, hpending⟩ : Accepts (skills.mapM (selectedSkill catalog)) := by
    clear hadmitted hfew
    induction skills with
    | nil => exact ⟨[], rfl⟩
    | cons id skills ih =>
        obtain ⟨⟨item, hmem, hid, hkind⟩, hrest⟩ := List.forall_mem_cons.mp hselected
        obtain ⟨items, hitems⟩ := ih hrest
        have hfind := (find_eq_some hids).mpr ⟨hmem, hid⟩
        exact ⟨item :: items, by simp [List.mapM_cons, selectedSkill, hfind, hkind, hitems, ok_bind, pure, Except.pure]⟩
  obtain ⟨hfound, hall⟩ := selected_iff hids hpending
  have htotal : ∀ item, (∃ s ∈ pending.reverse, ReflTransGen (Edge (agentDependencies catalog skills model)) s item) →
      Accepts (agentDependencies catalog skills model item) := by
    rintro item ⟨s, hs, hreach⟩
    obtain ⟨hmem, hskill⟩ := hfound s (List.mem_reverse.mp hs)
    obtain ⟨hitem, hneeded⟩ := agent_reach hids hmem hreach
    have hneeded : Needed catalog skills item.id := ⟨s.id, hskill, hneeded⟩
    obtain ⟨other, hother, hid, hadmits⟩ := hadmitted item.id hneeded
    obtain rfl := List.inj_on_of_nodup_map hids hother hitem hid
    refine (agentDependencies_accepts hids).mpr ⟨hadmits, fun id hrequired => ?_⟩
    obtain ⟨start, hstart, hreach⟩ := hneeded
    obtain ⟨required, hrequired, hsame, -⟩ := hadmitted id ⟨start, hstart, hreach.tail ⟨other, hitem, rfl, hrequired⟩⟩
    exact ⟨required, hrequired, hsame⟩
  have hvisits : Accepts (walk Capability.id (fun _ => agentDependencies catalog skills model) (budget catalog skills.length) []
      pending.reverse) := walk_total (agent_walkable hids) (agent_started hids hpending) htotal
  obtain ⟨visited, hwalk⟩ := hvisits
  have hprogress := agent_progress hids hpending hwalk
  obtain ⟨hnodup, htools⟩ := tools_spec hids hpending hprogress
  have hfew := (atMost_iff hnodup htools).mp hfew
  refine ⟨(visited.reverse.filter isTool).map Capability.id, ?_⟩
  simp only [agentTools, hpending, ok_bind, hwalk, decide_eq_true hfew, ensure_true]
  rfl

end Agents

section Offers

variable {catalog : CapabilityCatalog} {skill : Capability}

def requirementsOf (catalog : CapabilityCatalog) (id : String) : Except String (List String) := do
  let item ← context (catalog.find id) "Missing specialist dependency"
  return item.compatibility.requires

theorem requirementsOf_eq_ok (hids : (catalog.capabilities.map Capability.id).Nodup) {id : String} {next : List String} :
    requirementsOf catalog id = .ok next ↔ ∃ item ∈ catalog.capabilities, item.id = id ∧ item.compatibility.requires = next := by
  simp only [requirementsOf, bind_eq_ok, context_eq_ok, pure_eq_ok, find_eq_some hids, and_assoc]

theorem requires_iff (hids : (catalog.capabilities.map Capability.id).Nodup) {a b : String} :
    Edge (requirementsOf catalog) a b ↔ Requires catalog a b := by
  simp only [Edge, requirementsOf_eq_ok hids, Requires]
  constructor
  · rintro ⟨_, ⟨item, hmem, hid, rfl⟩, hb⟩
    exact ⟨item, hmem, hid, hb⟩
  · rintro ⟨item, hmem, hid, hb⟩
    exact ⟨_, ⟨item, hmem, hid, rfl⟩, hb⟩

def weightOf (catalog : CapabilityCatalog) (id : String) : Nat :=
  ((catalog.find id).map fun item => item.compatibility.requires.length).getD 0

theorem specialist_walkable (hids : (catalog.capabilities.map Capability.id).Nodup) (hfew : catalog.capabilities.length ≤ 256) :
    Walkable id (specialistDependencies catalog) (requirementsOf catalog) (fun _ => True) (catalog.capabilities.map Capability.id)
      (weightOf catalog) where
  apart _ _ _ _ h := h
  closed _ _ _ _ := trivial
  finite a next _ hnext := by
    obtain ⟨item, hmem, rfl, -⟩ := (requirementsOf_eq_ok hids).mp hnext
    exact List.mem_map_of_mem hmem
  answers n a next _ hn := by
    rw [specialistDependencies, bind_eq_ok]
    constructor
    · rintro ⟨_, -, hnext⟩
      exact hnext
    · intro hnext
      obtain ⟨item, hmem, rfl, -⟩ := (requirementsOf_eq_ok hids).mp hnext
      have hcount := hn (List.mem_map_of_mem hmem)
      rw [List.length_map] at hcount
      have hlimit : n ≤ 256 := by omega
      exact ⟨(), by rw [decide_eq_true hlimit]; rfl, hnext⟩
  bounded a next hnext := by
    obtain ⟨item, hmem, hid, rfl⟩ := (requirementsOf_eq_ok hids).mp hnext
    rw [weightOf, (find_eq_some hids).mpr ⟨hmem, hid⟩]
    exact le_rfl

theorem specialistClosure_spec (hids : (catalog.capabilities.map Capability.id).Nodup) (hfew : catalog.capabilities.length ≤ 256)
    {closure : List String} (h : specialistClosure catalog skill = .ok closure) (needed : String) :
    (needed ∈ closure ↔ Needed catalog [skill.id] needed) ∧
      (needed ∈ closure → ∃ item ∈ catalog.capabilities, item.id = needed) := by
  simp only [specialistClosure, bind_eq_ok, pure_eq_ok] at h
  obtain ⟨visited, hwalk, rfl⟩ := h
  have hbudget : remaining id (weightOf catalog) (catalog.capabilities.map Capability.id) [] =
      (catalog.capabilities.map fun item => item.compatibility.requires.length).sum := by
    simp only [remaining, List.map_nil, List.not_mem_nil, if_false, List.map_map, Function.comp_def]
    congr 1
    refine List.map_congr_left fun item hitem => ?_
    rw [weightOf, (find_eq_some hids).mpr ⟨hitem, rfl⟩]
    rfl
  have hprogress := walk_progress (specialist_walkable hids hfew) (.start fun _ _ => trivial) (by
    rw [hbudget, budget, List.length_singleton]
    omega) hwalk
  rw [List.mem_reverse]
  refine ⟨?_, fun hmem => ?_⟩
  · rw [hprogress.mem_iff, Needed]
    simp only [funext fun a => funext fun b => propext (requires_iff hids (a := a) (b := b))]
  · obtain ⟨next, hnext, -⟩ := hprogress.followed needed hmem
    obtain ⟨item, hitem, hid, -⟩ := (requirementsOf_eq_ok hids).mp hnext
    exact ⟨item, hitem, hid⟩

def skillIds (r : Record) : Option (List String) := (r.data.getArray "skillIds").bind fun items => items.mapM Value.asStr

theorem skillIds_specialistRecord (skills : List String) : skillIds (specialistRecord skill skills) = some skills := by
  have hall : (skills.map Value.string).mapM Value.asStr = some skills := by
    induction skills with
    | nil => rfl
    | cons s skills ih => rw [List.map_cons, List.mapM_cons, ih]; rfl
  have hdata : (specialistRecord skill skills).data.getArray "skillIds" = some (skills.map Value.string) := rfl
  rw [skillIds, hdata, Option.bind_some, hall]

theorem needed_trans {ids : List String} {a b : String} (ha : Needed catalog ids a) (hb : Needed catalog [a] b) :
    Needed catalog ids b := by
  obtain ⟨start, hstart, hreach⟩ := ha
  obtain ⟨other, hother, hrest⟩ := hb
  obtain rfl := List.mem_singleton.mp hother
  exact ⟨start, hstart, hreach.trans hrest⟩

theorem specialist_usable (hids : (catalog.capabilities.map Capability.id).Nodup) (hfew : catalog.capabilities.length ≤ 256)
    (hskill : skill ∈ catalog.capabilities) (hoffered : offered skill) {r : Record} (h : pluginSpecialist catalog skill = .ok r) :
    ∃ skills, skillIds r = some skills ∧ (Accepts (agentTools catalog skills none) ↔ Runnable catalog skill.id) := by
  simp only [pluginSpecialist, bind_eq_ok, pure_eq_ok] at h
  obtain ⟨closure, hclosure, _, -, rfl⟩ := h
  have hspec := specialistClosure_spec hids hfew hclosure
  refine ⟨closure.filter (isSkill catalog), skillIds_specialistRecord _, ?_⟩
  have hkind : skill.kind = .skill := by
    simp only [offered, Bool.and_eq_true, beq_iff_eq] at hoffered
    exact hoffered.1.1.2
  have hisSkill : ∀ item ∈ catalog.capabilities, isSkill catalog item.id = true ↔ item.kind = .skill := by
    intro item hitem
    rw [isSkill, (find_eq_some hids).mpr ⟨hitem, rfl⟩, Option.any_some, beq_iff_eq]
  have hself : skill.id ∈ closure.filter (isSkill catalog) := by
    refine List.mem_filter.mpr ⟨(hspec skill.id).1.mpr ⟨skill.id, List.mem_singleton_self _, .refl⟩, ?_⟩
    exact (hisSkill skill hskill).mpr hkind
  have hneeded : ∀ id, Needed catalog (closure.filter (isSkill catalog)) id ↔ Needed catalog [skill.id] id := by
    intro id
    constructor
    · rintro ⟨start, hstart, hreach⟩
      have hfirst := (hspec start).1.mp (List.mem_filter.mp hstart).1
      exact needed_trans hfirst ⟨start, List.mem_singleton_self _, hreach⟩
    · rintro ⟨start, hstart, hreach⟩
      exact ⟨skill.id, hself, List.mem_singleton.mp hstart ▸ hreach⟩
  have htool : Tool catalog (closure.filter (isSkill catalog)) = Tool catalog [skill.id] := by
    funext id
    rw [Tool, Tool, hneeded]
  constructor
  · rintro ⟨tools, htools⟩
    obtain ⟨⟨-, hadmitted, hfewTools⟩, -, -⟩ := agentTools_eq_ok hids htools
    refine ⟨fun id hid => ?_, htool ▸ hfewTools⟩
    obtain ⟨item, hitem, hsame, hadmits⟩ := hadmitted id ((hneeded id).mpr hid)
    refine ⟨item, hitem, hsame, hadmits.registered, hadmits.scribe, ?_⟩
    rcases hadmits.kind with ⟨hkind, -⟩ | hkind
    · exact .inl hkind
    · exact .inr hkind
  · rintro ⟨hadmitted, hfewTools⟩
    refine agentTools_accepts hids ⟨fun id hid => ?_, fun id hid => ?_, htool ▸ hfewTools⟩
    · obtain ⟨hmem, hisSkillId⟩ := List.mem_filter.mp hid
      obtain ⟨item, hitem, rfl⟩ := (hspec id).2 hmem
      exact ⟨item, hitem, rfl, (hisSkill item hitem).mp hisSkillId⟩
    · obtain ⟨item, hitem, rfl, hregistered, hscribe, hkinds⟩ := hadmitted id ((hneeded id).mp hid)
      refine ⟨item, hitem, rfl, hregistered, hscribe, rfl, ?_⟩
      rcases hkinds with hskillKind | hother
      · refine .inl ⟨hskillKind, List.mem_filter.mpr ⟨(hspec item.id).1.mpr ((hneeded item.id).mp hid), ?_⟩⟩
        exact (hisSkill item hitem).mpr hskillKind
      · exact .inr hother

/-- An agent gets its tools exactly when the transitive requirements of its
skills allow it. The specialists of a catalog are all accepted if and only if the
dependencies of every skill that is offered can be given to an agent. -/
theorem agents_usable (fromSlice : List UInt8 → Option CapabilityCatalog) (bytes : List UInt8) (catalog : CapabilityCatalog)
    (h : CapabilityCatalog.parse fromSlice bytes = .ok catalog) :
    (∀ skills model, (Accepts (agentTools catalog skills model) ↔ Usable catalog skills model) ∧
      ∀ tools, agentTools catalog skills model = .ok tools → tools.Nodup ∧ ∀ id, id ∈ tools ↔ Tool catalog skills id) ∧
    ∀ records, pluginSpecialists catalog = .ok records →
      ((∀ r ∈ records, ∃ skills, skillIds r = some skills ∧ Accepts (validateAgentSkills catalog skills none)) ↔
        ∀ skill ∈ catalog.capabilities, offered skill → Runnable catalog skill.id) := by
  obtain ⟨hids, hfew⟩ := parse_distinct h
  refine ⟨fun skills model => ⟨⟨?_, agentTools_accepts hids⟩, fun tools htools => (agentTools_eq_ok hids htools).2⟩,
    fun records hrecords => ?_⟩
  · rintro ⟨tools, htools⟩
    exact (agentTools_eq_ok hids htools).1
  · have hvalidate : ∀ skills, Accepts (validateAgentSkills catalog skills none) ↔ Accepts (agentTools catalog skills none) := by
      intro skills
      rw [validateAgentSkills, accepts_bind]
      exact ⟨fun ⟨tools, htools, _⟩ => ⟨tools, htools⟩, fun ⟨tools, htools⟩ => ⟨tools, htools, (), rfl⟩⟩
    rw [pluginSpecialists, mapM_eq_ok] at hrecords
    have hmem : ∀ skill ∈ catalog.capabilities.filter offered, skill ∈ catalog.capabilities ∧ offered skill :=
      fun skill hskill => List.mem_filter.mp hskill
    have hoffers : (∀ skill ∈ catalog.capabilities, offered skill → Runnable catalog skill.id) ↔
        ∀ skill ∈ catalog.capabilities.filter offered, Runnable catalog skill.id :=
      ⟨fun hall skill hskill => hall skill (hmem skill hskill).1 (hmem skill hskill).2,
        fun hall skill hskill hoffered => hall skill (List.mem_filter.mpr ⟨hskill, hoffered⟩)⟩
    rw [hoffers]
    clear hoffers
    generalize catalog.capabilities.filter offered = skills at hrecords hmem
    induction hrecords with
    | nil => simp
    | @cons skill r skills records hfirst _ ih =>
        obtain ⟨⟨hskill, hoffered⟩, hrest⟩ := List.forall_mem_cons.mp hmem
        obtain ⟨listed, hlisted, husable⟩ := specialist_usable hids hfew hskill hoffered hfirst
        have hrecords := ih hrest
        simp only [List.mem_cons, forall_eq_or_imp]
        refine and_congr ⟨?_, fun hrunnable => ⟨listed, hlisted, (hvalidate _).mpr (husable.mpr hrunnable)⟩⟩ hrecords
        rintro ⟨found, hfound, haccepts⟩
        obtain rfl := Option.some.inj (hlisted.symm.trans hfound)
        exact husable.mp ((hvalidate _).mp haccepts)

def lawEntry (id : String) (kind : CapabilityKind) (target : CapabilityTarget) (requires : List String) : Capability where
  id := id
  pluginId := some "law"
  pluginVersion := some "1.0"
  origin := .plugin
  execution := .registered
  compatibility := ⟨[], requires⟩
  kind := kind
  targets := [target]
  name := "n"
  description := "d"
  parametersSchema := .object [("type", .string "object")]
  stepType := none
  modelClass := none

def lawCatalog (target : CapabilityTarget) : CapabilityCatalog :=
  ⟨1, [lawEntry "law.skill" .skill .scribe ["law.tool"], lawEntry "law.tool" .algorithm target []]⟩

def lawText (target : CapabilityTarget) : List UInt8 :=
  let entry (id kind target : String) (requires : List Value) : Value :=
    .object [("id", .string id), ("plugin_id", .string "law"), ("plugin_version", .string "1.0"), ("kind", .string kind),
      ("targets", .array [.string target]), ("name", .string "n"), ("description", .string "d"),
      ("parameters_schema", .object [("type", .string "object")]), ("compatibility", .object [("requires", .array requires)])]
  (Value.object [("schema_version", .number (.int 1)), ("capabilities", .array [
    entry "law.skill" "skill" "scribe" [.string "law.tool"],
    entry "law.tool" "algorithm" (match target with | .pipeline => "pipeline" | .scribe => "scribe") []])]).toVec

def lawReader (target : CapabilityTarget) (bytes : List UInt8) : Option CapabilityCatalog :=
  if bytes = lawText target then some (lawCatalog target) else none

theorem parse_lawText (target : CapabilityTarget) :
    CapabilityCatalog.parse (lawReader target) (lawText target) = .ok (lawCatalog target) := by
  have hshort : (lawText target).length ≤ 262144 := by cases target <;> decide +kernel
  have hread : context (lawReader target (lawText target)) "Invalid capability catalog" = .ok (lawCatalog target) := by
    rw [lawReader, if_pos rfl]
    rfl
  have hsupported : ((lawCatalog target).schemaVersion == 1 && (lawCatalog target).capabilities.length ≤ 256) = true := by
    cases target <;> decide +kernel
  have hvalid : validateCapabilities [] (lawCatalog target).capabilities = .ok () := by cases target <;> decide +kernel
  simp only [CapabilityCatalog.parse, bind_eq_ok, pure_eq_ok, ensure_eq_ok]
  exact ⟨(), decide_eq_true hshort, _, hread, (), hsupported, (), hvalid, rfl⟩

theorem agents_usable_law : Usable (lawCatalog .scribe) ["law.skill"] none := by
  have hparse := parse_lawText .scribe
  exact ((agents_usable _ _ _ hparse).1 ["law.skill"] none).1.mp (by decide +kernel)

/-- A skill is offered although its tool is for pipelines only. -/
theorem unusable_specialist : ¬ ∀ (fromSlice : List UInt8 → Option CapabilityCatalog) (bytes : List UInt8)
    (catalog : CapabilityCatalog) (records : List Record), CapabilityCatalog.parse fromSlice bytes = .ok catalog →
    pluginSpecialists catalog = .ok records →
    ∀ r ∈ records, ∃ skills, skillIds r = some skills ∧ Accepts (validateAgentSkills catalog skills none) := by
  intro h
  have hparse := parse_lawText .pipeline
  have hrecords : pluginSpecialists (lawCatalog .pipeline) =
      .ok [specialistRecord (lawEntry "law.skill" .skill .scribe ["law.tool"]) ["law.skill"]] := rfl
  obtain ⟨skills, hskills, haccepts⟩ := h _ _ _ _ hparse hrecords _ (List.mem_singleton_self _)
  rw [skillIds_specialistRecord] at hskills
  obtain rfl := Option.some.inj hskills
  revert haccepts
  decide +kernel

end Offers

end Galadril.Pengolo.Capabilities
