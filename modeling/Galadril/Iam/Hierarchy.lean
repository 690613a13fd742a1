import Galadril.Iam.Roles

namespace Galadril.Iam

open Json Lib Lib.Checked Lib.Chains Lib.Transitions

variable (t : Tables)

/-- The transactions on the roles of a tenant, one at a time under its lock,
and changes of its accounts and settings. -/
inductive Command
  | createRoles (names : List String)
  | deleteRole (role : String)
  | setParent (role parent : String) (enabled : Bool)
  | setMembership (user role : String) (enabled : Bool)
  | configure (config : FederationConfig)
  | synchronize (user connection : String) (profile : Value) (writer delivered : Bool)
  | account (user : String) (account : Account)
  | settings (connections : List String) (permissionImport : Bool)

def synchronize (user connection : String) (profile : Value) (writer delivered : Bool) : Except String Tables := do
  match ← reconcile t user connection profile writer with
  | none => return t
  | some r => do
      ensure (r.revoked.isEmpty || delivered) "authorization unavailable"
      return r.tables

def execute : Command → Except String Tables
  | .createRoles names => createRoles t names
  | .deleteRole role => deleteRole t role
  | .setParent role parent enabled => setParent t role parent enabled
  | .setMembership user role enabled => setMembership t user role enabled
  | .configure config => configureApprovedRoles t config
  | .synchronize user connection profile writer delivered => synchronize t user connection profile writer delivered
  | .account user account => .ok { t with users := Function.update t.users user (some account) }
  | .settings connections permissionImport =>
      .ok { t with connections := connections, permissionImport := permissionImport }

/-- A transaction that fails rolls back. -/
def Tables.step (c : Command) : Tables :=
  match execute t c with
  | .ok t' => t'
  | .error _ => t

def Tables.empty (users : String → Option Account) (connections : List String) (permissionImport : Bool) : Tables where
  users := users
  roles := .empty
  memberships := .empty
  federated := .empty
  parents := .empty
  configs := .empty
  connections := connections
  permissionImport := permissionImport

section Forest

variable {t t' : Tables}

def Inherits (t : Tables) (role parent : String) : Prop := ⟨role, parent⟩ ∈ t.parents.rows

theorem mem_parentsOf (t : Tables) (a b : String) : b ∈ parentsOf t a ↔ Inherits t a b := by
  simp only [parentsOf, List.mem_map, List.mem_filter, beq_iff_eq, Inherits]
  constructor
  · rintro ⟨⟨role, parent⟩, ⟨hmem, rfl⟩, rfl⟩
    exact hmem
  · exact fun h => ⟨⟨a, b⟩, ⟨h, rfl⟩, rfl⟩

theorem mem_childrenOf (t : Tables) (a b : String) : b ∈ childrenOf t a ↔ Function.swap (Inherits t) a b := by
  simp only [childrenOf, List.mem_map, List.mem_filter, beq_iff_eq, Inherits, Function.swap]
  constructor
  · rintro ⟨⟨role, parent⟩, ⟨hmem, rfl⟩, rfl⟩
    exact hmem
  · exact fun h => ⟨⟨b, a⟩, ⟨h, rfl⟩, rfl⟩

/-- The hierarchy has no cycle, and no chain of more than 16 edges. -/
structure Forest (t : Tables) : Prop where
  acyclic : Acyclic (Inherits t)
  bounded : Bounded (Inherits t) levelLimit

theorem Forest.mono (h : Forest t) (hsub : ∀ e ∈ t'.parents.rows, e ∈ t.parents.rows) : Forest t' :=
  ⟨h.acyclic.mono fun _ _ he => hsub _ he, h.bounded.mono fun _ _ he => hsub _ he⟩

/-- The recursive queries look at every chain of a forest. -/
theorem Forest.fuel (h : Forest t) : Bounded (Inherits t) t.parents.rows.length := by
  have hsources : ∀ a b, Inherits t a b → a ∈ t.parents.rows.map ParentRow.role :=
    fun a b he => List.mem_map.mpr ⟨⟨a, b⟩, he, rfl⟩
  simpa using h.acyclic.bounded hsources

theorem Forest.reaches_iff (h : Forest t) {role parent : String} :
    reaches (parentsOf t) t.parents.rows.length [parent] role = true ↔ ∃ n, Chain (Inherits t) n parent role := by
  rw [Chains.reaches_iff (mem_parentsOf t)]
  constructor
  · rintro ⟨a, ha, n, -, hn⟩
    obtain rfl := List.mem_singleton.mp ha
    exact ⟨n, hn⟩
  · rintro ⟨n, hn⟩
    exact ⟨parent, List.mem_singleton_self _, n, h.fuel n _ _ hn, hn⟩

/-- What the depth check adds up: the longest chain above the parent and the
longest chain below the role. -/
theorem Forest.depth_iff (h : Forest t) {role parent : String} {k : Nat} :
    depth (parentsOf t) t.parents.rows.length [parent] + depth (childrenOf t) t.parents.rows.length [role] + 1 ≤ k ↔
      ∀ i j a b, Chain (Inherits t) i a role → Chain (Inherits t) j parent b → i + j + 1 ≤ k := by
  constructor
  · intro hle i j a b hi hj
    have hup := le_depth (mem_parentsOf t) (List.mem_singleton_self parent) (h.fuel j _ _ hj) hj
    have hdown := le_depth (mem_childrenOf t) (List.mem_singleton_self role) (h.fuel i _ _ hi) hi.flip
    omega
  · intro hall
    obtain ⟨_, hp, b, hup⟩ := exists_depth (mem_parentsOf t) t.parents.rows.length (List.cons_ne_nil parent [])
    obtain ⟨_, hr, a, hdown⟩ := exists_depth (mem_childrenOf t) t.parents.rows.length (List.cons_ne_nil role [])
    obtain rfl := List.mem_singleton.mp hp
    obtain rfl := List.mem_singleton.mp hr
    have hle := hall _ _ a b hdown.flip hup
    omega

def Extended (t : Tables) (role parent : String) : Prop :=
  Acyclic (Joined (Inherits t) role parent) ∧ Bounded (Joined (Inherits t) role parent) levelLimit

theorem Forest.extended_iff (h : Forest t) {role parent : String} :
    Extended t role parent ↔ reaches (parentsOf t) t.parents.rows.length [parent] role = false ∧
      depth (parentsOf t) t.parents.rows.length [parent] + depth (childrenOf t) t.parents.rows.length [role] + 1 ≤ levelLimit := by
  rw [Extended, acyclic_joined h.acyclic, h.depth_iff, Bool.eq_false_iff, Ne, h.reaches_iff, not_exists]
  exact and_congr_right fun hback => bounded_joined h.bounded hback

theorem insertParent_eq_ok {role parent : String} (h : insertParent t role parent = .ok t') :
    t' = { t with parents := t.parents.insert ⟨role, parent⟩ } ∧ t.live role = true ∧ t.live parent = true ∧
      reaches (parentsOf t) t.parents.rows.length [parent] role = false ∧
      depth (parentsOf t) t.parents.rows.length [parent] + depth (childrenOf t) t.parents.rows.length [role] + 1 ≤ levelLimit := by
  simp only [insertParent, bind_eq_ok, ensure_eq_ok, pure_eq_ok, Bool.and_eq_true, Bool.not_eq_true', decide_eq_true_eq] at h
  obtain ⟨_, -, _, ⟨hr, hp⟩, _, -, _, hback, _, hdepth, rfl⟩ := h
  exact ⟨rfl, hr, hp, hback, hdepth⟩

theorem Forest.insertParent (h : Forest t) {role parent : String} (hok : insertParent t role parent = .ok t') : Forest t' := by
  obtain ⟨rfl, -, -, hback, hdepth⟩ := insertParent_eq_ok hok
  obtain ⟨hacyclic, hbounded⟩ := h.extended_iff.mpr ⟨hback, hdepth⟩
  have hsub : ∀ a b, Inherits { t with parents := t.parents.insert ⟨role, parent⟩ } a b → Joined (Inherits t) role parent a b := by
    intro a b hab
    rcases Table.mem_insert hab with hab | ⟨heq, -⟩
    · exact .inl hab
    · exact .inr ⟨congrArg ParentRow.role heq, congrArg ParentRow.parent heq⟩
  exact ⟨hacyclic.mono hsub, hbounded.mono hsub⟩

/-- An insertion is refused for a role that does not exist, a second parent, or
a hierarchy that would be no such forest. -/
theorem Forest.refused (h : Forest t) {role parent : String} {e : String} (herr : Iam.insertParent t role parent = .error e) :
    t.live role = false ∨ t.live parent = false ∨ (∃ q, q ≠ parent ∧ Inherits t role q) ∨ ¬ Extended t role parent := by
  by_contra hall
  simp only [not_or, not_exists, not_and, not_not, Bool.not_eq_false] at hall
  obtain ⟨hr, hp, hother, hext⟩ := hall
  obtain ⟨hback, hdepth⟩ := h.extended_iff.mp hext
  have hne : (role != parent) = true := by
    rw [bne_iff_ne]
    rintro rfl
    exact hext.1 0 role (.step (.inr ⟨rfl, rfl⟩) (.refl _))
  have hsingle : (!t.parents.rows.any fun e => e.role == role && e.parent != parent) = true := by
    rw [Bool.not_eq_true', List.any_eq_false]
    rintro ⟨r, q⟩ hmem hcond
    simp only [Bool.and_eq_true, beq_iff_eq, bne_iff_ne] at hcond
    obtain ⟨rfl, hq⟩ := hcond
    exact hother q hq hmem
  have hok : Iam.insertParent t role parent = .ok { t with parents := t.parents.insert ⟨role, parent⟩ } := by
    simp only [Iam.insertParent, hne, hr, hp, hsingle, hback, hdepth, Bool.and_self, Bool.not_false, decide_true, ensure_true]
    rfl
  rw [hok] at herr
  cases herr

end Forest

section Names

variable {t t' : Tables}

theorem mem_insertRoles {names : List String} {roles : Table RoleRow.name} {r : RoleRow}
    (h : r ∈ (insertRoles roles names).rows) :
    r ∈ roles.rows ∨ (r.name ∈ names ∧ roles.find r.name = none ∧ r.deleted = false) := by
  induction names generalizing roles with
  | nil => exact .inl h
  | cons name rest ih =>
      rcases ih h with hr | ⟨hname, hnone, hlive⟩
      · rcases Table.mem_insert hr with hr | ⟨rfl, hnone⟩
        · exact .inl hr
        · exact .inr ⟨List.mem_cons_self, hnone, rfl⟩
      · refine .inr ⟨List.mem_cons_of_mem _ hname, ?_, hlive⟩
        exact Table.find_eq_none.mpr fun x hx => Table.find_eq_none.mp hnone x (Table.subset_insert _ _ hx)

theorem subset_insertRoles (names : List String) (roles : Table RoleRow.name) :
    ∀ r ∈ roles.rows, r ∈ (insertRoles roles names).rows := by
  induction names generalizing roles with
  | nil => exact fun r hr => hr
  | cons name rest ih => exact fun r hr => ih _ r (Table.subset_insert _ _ hr)

theorem find_insertRoles {names : List String} {roles : Table RoleRow.name} {name : String} {r : RoleRow}
    (h : roles.find name = some r) : (insertRoles roles names).find name = some r := by
  obtain ⟨hr, hname⟩ := Table.find_eq_some.mp h
  exact Table.find_eq_some.mpr ⟨subset_insertRoles names roles r hr, hname⟩

theorem length_insertRoles (names : List String) (roles : Table RoleRow.name) :
    (insertRoles roles names).rows.length ≤
      roles.rows.length + (names.dedup.filter fun name => (roles.find name).isNone).length := by
  have hsub : (insertRoles roles names).rows.map RoleRow.name ⊆
      roles.rows.map RoleRow.name ++ names.dedup.filter fun name => (roles.find name).isNone := by
    intro name hname
    obtain ⟨r, hr, rfl⟩ := List.mem_map.mp hname
    rcases mem_insertRoles hr with hr | ⟨hnew, hnone, -⟩
    · exact List.mem_append_left _ (List.mem_map.mpr ⟨r, hr, rfl⟩)
    · exact List.mem_append_right _ (List.mem_filter.mpr ⟨List.mem_dedup.mpr hnew, by simp [hnone]⟩)
  simpa using ((insertRoles roles names).keyed.subperm hsub).length_le

theorem createRoles_eq_ok {names : List String} (h : createRoles t names = .ok t') :
    t' = { t with roles := insertRoles t.roles names } ∧ t'.roles.rows.length ≤ roleLimit := by
  simp only [createRoles, bind_eq_ok, ensure_eq_ok, pure_eq_ok, decide_eq_true_eq] at h
  obtain ⟨_, -, _, -, _, hquota, _, -, rfl⟩ := h
  exact ⟨rfl, (length_insertRoles names t.roles).trans hquota⟩

theorem not_tombstoned_of_live {role : String} (h : t.live role = true) : t.tombstoned role = false := by
  cases hf : t.roles.find role with
  | none => simp [Tables.tombstoned, hf]
  | some r => simpa [Tables.live, Tables.tombstoned, hf] using h

theorem not_live_of_tombstoned {role : String} (h : t.tombstoned role = true) : t.live role = false := by
  rw [Bool.eq_false_iff]
  intro hl
  simp [not_tombstoned_of_live hl] at h

structure Grows (t t' : Tables) : Prop where
  live : ∀ role, t.live role = true → t'.live role = true
  tombstoned : ∀ role, t.tombstoned role = true → t'.tombstoned role = true
  names : t.roles.rows.length ≤ roleLimit → t'.roles.rows.length ≤ roleLimit

theorem Grows.same (h : t'.roles = t.roles) : Grows t t' := by
  refine ⟨fun role hr => ?_, fun role hr => ?_, fun hn => by rw [h]; exact hn⟩
  · simpa [Tables.live, h] using hr
  · simpa [Tables.tombstoned, h] using hr

theorem Grows.createRoles {names : List String} (h : createRoles t names = .ok t') : Grows t t' := by
  obtain ⟨rfl, hlen⟩ := createRoles_eq_ok h
  refine ⟨fun role hr => ?_, fun role hr => ?_, fun _ => hlen⟩
  · cases hf : t.roles.find role with
    | none => simp [Tables.live, hf] at hr
    | some r => simpa [Tables.live, find_insertRoles hf, hf] using hr
  · cases hf : t.roles.find role with
    | none => simp [Tables.tombstoned, hf] at hr
    | some r => simpa [Tables.tombstoned, find_insertRoles hf, hf] using hr

structure Alive (t : Tables) : Prop where
  edges : ∀ e ∈ t.parents.rows, t.live e.role = true ∧ t.live e.parent = true
  members : ∀ m ∈ t.memberships.rows, t.live m.role = true
  names : t.roles.rows.length ≤ roleLimit

theorem Alive.grows (h : Alive t) (hg : Grows t t') (hp : t'.parents = t.parents)
    (hm : ∀ m ∈ t'.memberships.rows, t.live m.role = true) : Alive t' := by
  refine ⟨fun e he => ?_, fun m hmem => hg.live _ (hm m hmem), hg.names h.names⟩
  obtain ⟨hr, hpar⟩ := h.edges e (hp ▸ he)
  exact ⟨hg.live _ hr, hg.live _ hpar⟩

end Names

section Steps

variable {t t' : Tables}

theorem deleteRole_eq_ok {role : String} (h : deleteRole t role = .ok t') :
    (∀ e ∈ t.parents.rows, e.role ≠ role ∧ e.parent ≠ role) ∧ t' =
      { t with
        memberships := t.memberships.delete fun m => m.role == role
        roles := t.roles.update (fun r => r.name == role) (fun r => { r with deleted := true }) fun _ => rfl } := by
  simp only [deleteRole, roleDeletionUsers, bind_eq_ok, ensure_eq_ok, pure_eq_ok] at h
  obtain ⟨_, ⟨_, -, _, hedges, -⟩, rfl⟩ := h
  refine ⟨fun e he => ?_, rfl⟩
  simp only [Bool.not_eq_true', List.any_eq_false, Bool.or_eq_true, beq_iff_eq, not_or] at hedges
  exact hedges e he

theorem find_tombstone (t : Tables) {role other : String} (hne : other ≠ role) :
    (t.roles.update (fun r => r.name == role) (fun r => { r with deleted := true }) fun _ => rfl).find other =
      t.roles.find other := by
  rw [Table.find_update]
  cases hf : t.roles.find other with
  | none => rfl
  | some r => simp [Table.key_of_find hf, hne]

theorem Alive.deleteRole (h : Alive t) {role : String} (hok : deleteRole t role = .ok t') : Alive t' := by
  obtain ⟨hedges, rfl⟩ := deleteRole_eq_ok hok
  have hlive : ∀ other, other ≠ role → t.live other = true →
      ((t.roles.update (fun r => r.name == role) (fun r => { r with deleted := true }) fun _ => rfl).find other).any
        (fun r => !r.deleted) = true := by
    intro other hne hl
    rw [find_tombstone t hne]
    exact hl
  refine ⟨fun e he => ?_, fun m hm => ?_, ?_⟩
  · obtain ⟨hr, hp⟩ := hedges e he
    exact ⟨hlive _ hr (h.edges e he).1, hlive _ hp (h.edges e he).2⟩
  · obtain ⟨hm, hne⟩ := List.mem_filter.mp hm
    exact hlive _ (by simpa using hne) (h.members m hm)
  · simpa [Table.update] using h.names

theorem tombstoned_deleteRole {role other : String} (hok : deleteRole t role = .ok t') (h : t.tombstoned other = true) :
    t'.tombstoned other = true := by
  obtain ⟨-, rfl⟩ := deleteRole_eq_ok hok
  rw [Tables.tombstoned, Table.find_update]
  cases hf : t.roles.find other with
  | none => simp [Tables.tombstoned, hf] at h
  | some r =>
      have hdel : r.deleted = true := by simpa [Tables.tombstoned, hf] using h
      by_cases hr : r.name = role <;> simp [hr, hdel]

theorem configureApprovedRoles_eq_ok {c : FederationConfig} (h : configureApprovedRoles t c = .ok t') :
    Grows t t' ∧ t'.parents = t.parents ∧ t'.memberships = t.memberships ∧ t'.federated = t.federated ∧
      ∃ configs, t' = { t with roles := t'.roles, configs := configs } := by
  simp only [configureApprovedRoles, configure, bind_eq_ok, pure_eq_ok] at h
  obtain ⟨_, -, m, hm, _, -, _, -, _, -, _, -, rfl⟩ := h
  have hg := Grows.createRoles hm
  obtain ⟨rfl, -⟩ := createRoles_eq_ok hm
  exact ⟨⟨hg.live, hg.tombstoned, hg.names⟩, rfl, rfl, rfl, _, rfl⟩

structure Imported (user connection : String) (desired : List String) (t t' : Tables) : Prop where
  rest : t' = { t with memberships := t'.memberships, federated := t'.federated }
  kept : ∀ m ∈ t.memberships.rows, m ∈ t'.memberships.rows
  added : ∀ m ∈ t'.memberships.rows, m ∈ t.memberships.rows ∨
    (m.user = user ∧ m.role ∈ desired ∧ m.manual = false ∧ t.live m.role = true ∧ t.memberships.find (user, m.role) = none)
  federated : ∀ f, f ∈ t'.federated.rows ↔ f ∈ t.federated.rows ∨ ∃ role ∈ desired, f = ⟨user, connection, role⟩
  present : ∀ role ∈ desired, ∃ m ∈ t'.memberships.rows, m.user = user ∧ m.role = role

theorem importRole_eq_ok {user connection role : String} (h : importRole user connection t role = .ok t') :
    Imported user connection [role] t t' := by
  simp only [importRole, bind_eq_ok, ensure_eq_ok, pure_eq_ok] at h
  obtain ⟨_, hlive, _, -, rfl⟩ := h
  refine ⟨rfl, fun m hm => Table.subset_insert _ _ hm, fun m hm => ?_, fun f => ?_, fun r hr => ?_⟩
  · rcases Table.mem_insert hm with hm | ⟨rfl, hnone⟩
    · exact .inl hm
    · exact .inr ⟨rfl, List.mem_singleton_self _, rfl, hlive, hnone⟩
  · simp only [List.mem_singleton, exists_eq_left]
    exact Table.mem_insert_iff_of_id
  · obtain rfl := List.mem_singleton.mp hr
    exact Table.exists_key_insert t.memberships ⟨user, r, false⟩ fun m hk => ⟨congrArg Prod.fst hk, congrArg Prod.snd hk⟩

theorem Imported.trans {user connection : String} {first second : List String} {a b c : Tables}
    (hab : Imported user connection first a b) (hbc : Imported user connection second b c) :
    Imported user connection (first ++ second) a c := by
  have hlive : ∀ role, b.live role = a.live role := fun role => by rw [hab.rest]; rfl
  refine ⟨by rw [hbc.rest, hab.rest], fun m hm => hbc.kept m (hab.kept m hm), fun m hm => ?_, fun f => ?_, fun r hr => ?_⟩
  · rcases hbc.added m hm with hm | ⟨hu, hrole, hmanual, hl, hnone⟩
    · exact (hab.added m hm).imp_right fun ⟨hu, hrole, hrest⟩ => ⟨hu, List.mem_append_left _ hrole, hrest⟩
    · refine .inr ⟨hu, List.mem_append_right _ hrole, hmanual, hlive m.role ▸ hl, ?_⟩
      exact Table.find_eq_none.mpr fun x hx => Table.find_eq_none.mp hnone x (hab.kept x hx)
  · rw [hbc.federated, hab.federated]
    simp only [List.mem_append, or_and_right, exists_or, or_assoc]
  · rcases List.mem_append.mp hr with hr | hr
    · obtain ⟨m, hm, hk⟩ := hab.present r hr
      exact ⟨m, hbc.kept m hm, hk⟩
    · exact hbc.present r hr

theorem importRoles_eq_ok {user connection : String} {desired : List String}
    (h : desired.foldlM (importRole user connection) t = .ok t') : Imported user connection desired t t' := by
  induction desired generalizing t with
  | nil =>
      cases h
      exact ⟨rfl, fun _ hm => hm, fun _ hm => .inl hm, fun f => by simp, fun _ hr => by cases hr⟩
  | cons role rest ih =>
      rw [List.foldlM_cons, bind_eq_ok] at h
      obtain ⟨m, hm, hrest⟩ := h
      exact (importRole_eq_ok hm).trans (ih hrest)

theorem reconcile_eq_some {user connection : String} {profile : Value} {writer : Bool} {r : Reconciled}
    (h : reconcile t user connection profile writer = .ok (some r)) :
    ∃ c, t.configs.find connection = some c ∧ c.enabled = true ∧ t.permissionImport = true ∧
      desiredRoles c profile = .ok r.desired ∧
      r.desired.foldlM (importRole user connection) (dropOrphans (dropFederated t user connection r.desired) user) = .ok r.tables ∧
      r.revoked = ((dropFederated t user connection r.desired).memberships.rows.filter
        (orphaned (dropFederated t user connection r.desired) user)).map MembershipRow.role := by
  rw [reconcile] at h
  cases hc : t.configs.find connection with
  | none => simp [hc] at h
  | some c =>
      simp only [hc] at h
      split at h
      · cases h
      · next hon =>
          simp only [bind_eq_ok, pure_eq_ok, Option.some.injEq] at h
          obtain ⟨desired, hd, _, -, tables, ht, rfl⟩ := h
          obtain ⟨he, hi⟩ : c.enabled = true ∧ t.permissionImport = true := by simpa using hon
          exact ⟨c, rfl, he, hi, hd, ht, rfl⟩

theorem synchronize_eq_ok {user connection : String} {profile : Value} {writer delivered : Bool}
    (h : synchronize t user connection profile writer delivered = .ok t') :
    t' = t ∨ ∃ r, reconcile t user connection profile writer = .ok (some r) ∧ t' = r.tables := by
  simp only [synchronize, bind_eq_ok] at h
  obtain ⟨o, ho, h⟩ := h
  cases o with
  | none => exact .inl (pure_eq_ok.mp h).symm
  | some r =>
      simp only [bind_eq_ok, pure_eq_ok] at h
      obtain ⟨_, -, rfl⟩ := h
      exact .inr ⟨r, ho, rfl⟩

structure Sound (t : Tables) : Prop where
  forest : Forest t
  alive : Alive t

theorem Sound.synchronize (h : Sound t) {user connection : String} {profile : Value} {writer delivered : Bool}
    (hok : synchronize t user connection profile writer delivered = .ok t') : Sound t' ∧ Grows t t' := by
  rcases synchronize_eq_ok hok with rfl | ⟨r, hr, rfl⟩
  · exact ⟨h, .same rfl⟩
  · obtain ⟨c, -, -, -, -, himport, -⟩ := reconcile_eq_some hr
    have himported := importRoles_eq_ok himport
    have hroles : r.tables.roles = t.roles := by rw [himported.rest]; rfl
    have hparents : r.tables.parents = t.parents := by rw [himported.rest]; rfl
    have hg : Grows t r.tables := .same hroles
    refine ⟨⟨h.forest.mono fun e he => hparents ▸ he, h.alive.grows hg hparents fun m hm => ?_⟩, hg⟩
    rcases himported.added m hm with hm | ⟨-, -, -, hl, -⟩
    · exact h.alive.members m (List.mem_filter.mp hm).1
    · exact hl

theorem Sound.setMembership (h : Sound t) {user role : String} {enabled : Bool}
    (hok : setMembership t user role enabled = .ok t') : Sound t' ∧ Grows t t' := by
  rw [Iam.setMembership] at hok
  split at hok
  · simp only [assignMembership, bind_eq_ok, ensure_eq_ok, pure_eq_ok, Bool.and_eq_true] at hok
    obtain ⟨_, ⟨-, hlive⟩, rfl⟩ := hok
    refine ⟨⟨h.forest.mono fun e he => he, h.alive.grows (.same rfl) rfl fun m hm => ?_⟩, .same rfl⟩
    rcases Table.mem_insert hm with hm | ⟨rfl, -⟩
    · obtain ⟨old, hold, rfl⟩ := List.mem_map.mp hm
      have hl := h.alive.members old hold
      split <;> exact hl
    · exact hlive
  · simp only [unassignMembership, bind_eq_ok, pure_eq_ok] at hok
    obtain ⟨_, -, rfl⟩ := hok
    refine ⟨⟨h.forest.mono fun e he => he, h.alive.grows (.same rfl) rfl fun m hm => ?_⟩, .same rfl⟩
    exact h.alive.members m (List.mem_filter.mp hm).1

theorem Sound.setParent (h : Sound t) {role parent : String} {enabled : Bool}
    (hok : setParent t role parent enabled = .ok t') : Sound t' ∧ Grows t t' := by
  rw [Iam.setParent] at hok
  split at hok
  · have hforest := h.forest.insertParent hok
    obtain ⟨rfl, hr, hp, -⟩ := insertParent_eq_ok hok
    refine ⟨⟨hforest, fun e he => ?_, h.alive.members, h.alive.names⟩, .same rfl⟩
    rcases Table.mem_insert he with he | ⟨rfl, -⟩
    · exact h.alive.edges e he
    · exact ⟨hr, hp⟩
  · simp only [removeParent, bind_eq_ok, pure_eq_ok] at hok
    obtain ⟨_, -, rfl⟩ := hok
    have hsub : ∀ e ∈ (t.parents.delete fun e => e.role == role && e.parent == parent).rows, e ∈ t.parents.rows :=
      fun e he => (List.mem_filter.mp he).1
    exact ⟨⟨h.forest.mono hsub, fun e he => h.alive.edges e (hsub e he), h.alive.members, h.alive.names⟩, .same rfl⟩

def Archived (t t' : Tables) : Prop := ∀ role, t.tombstoned role = true → t'.tombstoned role = true

theorem Archived.refl (t : Tables) : Archived t t := fun _ h => h

theorem Archived.trans (a b c : Tables) (hab : Archived a b) (hbc : Archived b c) : Archived a c :=
  fun role h => hbc role (hab role h)

theorem Sound.execute (h : Sound t) {c : Command} (hok : execute t c = .ok t') : Sound t' ∧ Archived t t' := by
  have hgrows : Sound t' ∧ Grows t t' → Sound t' ∧ Archived t t' := fun ⟨hs, hg⟩ => ⟨hs, hg.tombstoned⟩
  cases c with
  | createRoles names =>
      have hg := Grows.createRoles hok
      obtain ⟨rfl, -⟩ := createRoles_eq_ok hok
      exact hgrows ⟨⟨h.forest.mono fun e he => he, h.alive.grows hg rfl h.alive.members⟩, hg⟩
  | deleteRole role =>
      refine ⟨⟨?_, h.alive.deleteRole hok⟩, fun other => tombstoned_deleteRole hok⟩
      obtain ⟨-, rfl⟩ := deleteRole_eq_ok hok
      exact h.forest.mono fun e he => he
  | setParent role parent enabled => exact hgrows (h.setParent hok)
  | setMembership user role enabled => exact hgrows (h.setMembership hok)
  | configure config =>
      obtain ⟨hg, hp, hm, -⟩ := configureApprovedRoles_eq_ok hok
      exact hgrows ⟨⟨h.forest.mono fun e he => hp ▸ he, h.alive.grows hg hp (by rw [hm]; exact h.alive.members)⟩, hg⟩
  | synchronize user connection profile writer delivered => exact hgrows (h.synchronize hok)
  | account user account =>
      cases hok
      exact hgrows ⟨⟨h.forest.mono fun e he => he, h.alive.grows (.same rfl) rfl h.alive.members⟩, .same rfl⟩
  | settings connections permissionImport =>
      cases hok
      exact hgrows ⟨⟨h.forest.mono fun e he => he, h.alive.grows (.same rfl) rfl h.alive.members⟩, .same rfl⟩

theorem Sound.step (h : Sound t) (c : Command) : Sound (t.step c) ∧ Archived t (t.step c) := by
  rw [Tables.step]
  cases hok : Iam.execute t c with
  | ok t' => exact h.execute hok
  | error e => exact ⟨h, .refl t⟩

end Steps

variable (users : String → Option Account) (connections : List String) (permissionImport : Bool)

def tenantAfter (commands : List Command) : Tables :=
  run Tables.step (.empty users connections permissionImport) commands

theorem sound_empty : Sound (.empty users connections permissionImport) := by
  have hnone : ∀ a b, ¬ Inherits (.empty users connections permissionImport) a b := fun _ _ h => by cases h
  refine ⟨⟨?_, ?_⟩, ⟨fun _ h => (by cases h), fun _ h => (by cases h), Nat.zero_le _⟩⟩
  · intro n a h
    cases h with
    | step edge rest => exact hnone _ _ edge
  · intro n a b h
    cases h with
    | refl => exact Nat.zero_le _
    | step edge rest => exact absurd edge (hnone _ _)

theorem tenantAfter_sound (commands : List Command) : Sound (tenantAfter users connections permissionImport commands) :=
  run_invariant_always (fun _ c h => (h.step c).1) (sound_empty users connections permissionImport) commands

/-- The role hierarchy of a tenant is a forest of live roles of at most 16
levels, and an edge is refused only if it names no live role, would be a second
parent or would leave no such forest. -/
theorem hierarchy_bounded (commands later : List Command) :
    let t := tenantAfter users connections permissionImport commands
    (∀ role p q, Inherits t role p → Inherits t role q → p = q) ∧
    Acyclic (Inherits t) ∧ Bounded (Inherits t) 16 ∧
    (∀ role parent, Inherits t role parent → t.live role = true ∧ t.live parent = true) ∧
    (∀ m ∈ t.memberships.rows, t.tombstoned m.role = false) ∧
    t.roles.rows.length ≤ 256 ∧
    (∀ role, t.tombstoned role = true →
      (tenantAfter users connections permissionImport (commands ++ later)).live role = false) ∧
    ∀ role parent e, insertParent t role parent = .error e → t.live role = false ∨ t.live parent = false ∨
      (∃ q, q ≠ parent ∧ Inherits t role q) ∨ ¬ Extended t role parent := by
  intro t
  have hs : Sound t := tenantAfter_sound users connections permissionImport commands
  refine ⟨fun role p q hp hq => ?_, hs.forest.acyclic, hs.forest.bounded, fun role parent h => hs.alive.edges _ h,
    fun m hm => ?_, hs.alive.names, fun role hr => ?_, fun role parent e he => hs.forest.refused he⟩
  · exact congrArg ParentRow.parent (Table.eq_of_key hp hq rfl)
  · exact not_tombstoned_of_live (hs.alive.members m hm)
  · have hlater := run_related Archived.refl Archived.trans (fun _ c h => h.step c) hs later role hr
    rw [tenantAfter, run_append]
    exact not_live_of_tombstoned hlater

end Galadril.Iam
