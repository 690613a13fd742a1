import Galadril.Iam.Hierarchy

namespace Galadril.Iam

open Json Lib Lib.Checked Lib.Chains Lib.Transitions

/-- The tables, with the assignments made by hand and not taken back since. -/
structure Ledger where
  tables : Tables
  hand : String → String → Bool

def Ledger.step (l : Ledger) (c : Command) : Ledger where
  tables := l.tables.step c
  hand := match c with
    | .setMembership user role enabled =>
        if Accepts (execute l.tables c) then fun u r => if u = user ∧ r = role then enabled else l.hand u r else l.hand
    | _ => l.hand

def Command.keepsRoles : Command → Bool
  | .deleteRole _ => false
  | _ => true

structure Accounted (t : Tables) (hand : String → String → Bool) : Prop where
  flag : ∀ m ∈ t.memberships.rows, m.manual = hand m.user m.role
  hand : ∀ u r, hand u r = true → ∃ m ∈ t.memberships.rows, m.user = u ∧ m.role = r
  imported : ∀ f ∈ t.federated.rows, ∃ m ∈ t.memberships.rows, m.user = f.user ∧ m.role = f.role
  source : ∀ m ∈ t.memberships.rows, m.manual = true ∨ ∃ f ∈ t.federated.rows, f.user = m.user ∧ f.role = m.role

variable {t t' : Tables} {hand : String → String → Bool}

theorem Accounted.congr (h : Accounted t hand) (hm : t'.memberships = t.memberships) (hf : t'.federated = t.federated) :
    Accounted t' hand := by
  refine ⟨?_, ?_, ?_, ?_⟩
  · rw [hm]
    exact h.flag
  · rw [hm]
    exact h.hand
  · rw [hm, hf]
    exact h.imported
  · rw [hm, hf]
    exact h.source

theorem Accounted.assign (h : Accounted t hand) {user role : String} (hok : assignMembership t user role = .ok t') :
    Accounted t' fun u r => if u = user ∧ r = role then true else hand u r := by
  simp only [assignMembership, bind_eq_ok, pure_eq_ok] at hok
  obtain ⟨_, -, rfl⟩ := hok
  have hold : ∀ m ∈ t.memberships.rows, ∃ m' ∈ ((t.memberships.update (fun m => m.key == (user, role))
      (fun m => { m with manual := true }) fun _ => rfl).insert ⟨user, role, true⟩).rows, m'.user = m.user ∧ m'.role = m.role := by
    intro m hm
    refine ⟨_, Table.subset_insert _ _ (List.mem_map.mpr ⟨m, hm, rfl⟩), ?_⟩
    split <;> exact ⟨rfl, rfl⟩
  refine ⟨fun m hm => ?_, fun u r hur => ?_, fun f hf => ?_, fun m hm => ?_⟩
  · rcases Table.mem_insert hm with hm | ⟨rfl, -⟩
    · obtain ⟨old, hold, rfl⟩ := List.mem_map.mp hm
      by_cases hk : old.key = (user, role)
      · obtain ⟨hu, hr⟩ := Prod.mk.inj hk
        simp [hk, hu, hr]
      · have hne : ¬ (old.user = user ∧ old.role = role) := fun hsame => hk (Prod.ext hsame.1 hsame.2)
        simp [hk, hne, h.flag old hold]
    · simp
  · by_cases hsame : u = user ∧ r = role
    · obtain ⟨rfl, rfl⟩ := hsame
      exact Table.exists_key_insert _ _ fun m hk => ⟨congrArg Prod.fst hk, congrArg Prod.snd hk⟩
    · obtain ⟨m, hm, rfl, rfl⟩ := h.hand u r (by simpa [hsame] using hur)
      exact hold m hm
  · obtain ⟨m, hm, hu, hr⟩ := h.imported f hf
    obtain ⟨m', hm', hu', hr'⟩ := hold m hm
    exact ⟨m', hm', hu'.trans hu, hr'.trans hr⟩
  · rcases Table.mem_insert hm with hm | ⟨rfl, -⟩
    · obtain ⟨old, hold, rfl⟩ := List.mem_map.mp hm
      split
      · exact .inl rfl
      · exact h.source old hold
    · exact .inl rfl

theorem Accounted.unassign (h : Accounted t hand) {user role : String} (hok : unassignMembership t user role = .ok t') :
    Accounted t' fun u r => if u = user ∧ r = role then false else hand u r := by
  simp only [unassignMembership, bind_eq_ok, pure_eq_ok, ensure_eq_ok] at hok
  obtain ⟨_, himported, rfl⟩ := hok
  have hfree : ∀ f ∈ t.federated.rows, ¬ (f.user = user ∧ f.role = role) := by
    simpa using himported
  have hmem : ∀ m, m ∈ (t.memberships.delete fun m => m.key == (user, role)).rows ↔
      m ∈ t.memberships.rows ∧ ¬ (m.user = user ∧ m.role = role) := by
    intro m
    simp [Table.delete, MembershipRow.key]
  refine ⟨fun m hm => ?_, fun u r hur => ?_, fun f hf => ?_, fun m hm => ?_⟩
  · obtain ⟨hm, hne⟩ := (hmem m).mp hm
    rw [if_neg hne]
    exact h.flag m hm
  · by_cases hsame : u = user ∧ r = role
    · simp [hsame] at hur
    · rw [if_neg hsame] at hur
      obtain ⟨m, hm, rfl, rfl⟩ := h.hand u r hur
      exact ⟨m, (hmem m).mpr ⟨hm, hsame⟩, rfl, rfl⟩
  · obtain ⟨m, hm, hu, hr⟩ := h.imported f hf
    refine ⟨m, (hmem m).mpr ⟨hm, fun hsame => hfree f hf ?_⟩, hu, hr⟩
    exact ⟨hu.symm.trans hsame.1, hr.symm.trans hsame.2⟩
  · exact h.source m ((hmem m).mp hm).1

variable {user connection : String}

theorem mem_dropFederated {desired : List String} {f : FederatedRow} :
    f ∈ (dropFederated t user connection desired).federated.rows ↔
      f ∈ t.federated.rows ∧ (f.user = user → f.connection = connection → f.role ∈ desired) := by
  simp only [dropFederated, Table.delete, List.mem_filter, Bool.not_eq_true', Bool.and_eq_false_imp, Bool.and_eq_true,
    beq_iff_eq, Bool.not_eq_false', List.contains_iff_mem, and_imp]

theorem mem_dropOrphans {m : MembershipRow} :
    m ∈ (dropOrphans t user).memberships.rows ↔ m ∈ t.memberships.rows ∧
      (m.user = user → m.manual = true ∨ ∃ f ∈ t.federated.rows, f.user = user ∧ f.role = m.role) := by
  simp only [dropOrphans, Table.delete, List.mem_filter, orphaned, Bool.not_eq_true', Bool.and_eq_false_imp, Bool.and_eq_true,
    beq_iff_eq, Bool.not_eq_false', List.any_eq_true]
  refine and_congr_right fun _ => ⟨fun h hu => ?_, fun h hu => ?_⟩
  · by_cases hmanual : m.manual = true
    · exact .inl hmanual
    · exact .inr (h ⟨hu, by simpa using hmanual⟩)
  · rcases h hu.1 with hmanual | hf
    · simp [hmanual] at hu
    · exact hf

/-- Once orphans are gone, what the tables hold is accounted for again. -/
theorem Accounted.dropped (h : Accounted t hand) (desired : List String) :
    Accounted (dropOrphans (dropFederated t user connection desired) user) hand := by
  refine ⟨fun m hm => h.flag m (mem_dropOrphans.mp hm).1, fun u r hur => ?_, fun f hf => ?_, fun m hm => ?_⟩
  · obtain ⟨m, hm, rfl, rfl⟩ := h.hand u r hur
    exact ⟨m, mem_dropOrphans.mpr ⟨hm, fun _ => .inl ((h.flag m hm).trans hur)⟩, rfl, rfl⟩
  · obtain ⟨m, hm, hu, hr⟩ := h.imported f (mem_dropFederated.mp hf).1
    refine ⟨m, mem_dropOrphans.mpr ⟨hm, fun huser => .inr ⟨f, hf, hu.symm.trans huser, hr.symm⟩⟩, hu, hr⟩
  · obtain ⟨hm, hkept⟩ := mem_dropOrphans.mp hm
    by_cases hu : m.user = user
    · exact (hkept hu).imp_right fun ⟨f, hf, hfu, hfr⟩ => ⟨f, hf, hfu.trans hu.symm, hfr⟩
    · refine (h.source m hm).imp_right fun ⟨f, hf, hfu, hfr⟩ => ?_
      exact ⟨f, mem_dropFederated.mpr ⟨hf, fun hfuser => absurd (hfu.symm.trans hfuser) hu⟩, hfu, hfr⟩

theorem Accounted.imports (h : Accounted t hand) {desired : List String} (hi : Imported user connection desired t t') :
    Accounted t' hand := by
  have hfed : ∀ f ∈ t.federated.rows, f ∈ t'.federated.rows := fun f hf => (hi.federated f).mpr (.inl hf)
  refine ⟨fun m hm => ?_, fun u r hur => ?_, fun f hf => ?_, fun m hm => ?_⟩
  · rcases hi.added m hm with hm | ⟨rfl, -, hmanual, -, hnone⟩
    · exact h.flag m hm
    · rw [hmanual, eq_comm, Bool.eq_false_iff]
      intro hhand
      obtain ⟨x, hx, hu, hr⟩ := h.hand _ _ hhand
      exact Table.find_eq_none.mp hnone x hx (Prod.ext hu hr)
  · obtain ⟨m, hm, hk⟩ := h.hand u r hur
    exact ⟨m, hi.kept m hm, hk⟩
  · rcases (hi.federated f).mp hf with hf | ⟨role, hrole, rfl⟩
    · obtain ⟨m, hm, hk⟩ := h.imported f hf
      exact ⟨m, hi.kept m hm, hk⟩
    · exact hi.present role hrole
  · rcases hi.added m hm with hm | ⟨hu, hrole, -⟩
    · exact (h.source m hm).imp_right fun ⟨f, hf, hk⟩ => ⟨f, hfed f hf, hk⟩
    · exact .inr ⟨⟨user, connection, m.role⟩, (hi.federated _).mpr (.inr ⟨m.role, hrole, rfl⟩), hu.symm, rfl⟩

theorem mem_mappedRoles {groups : List Value} {mappings : List FederationMapping} {desired : List String} {role : String} :
    role ∈ mappedRoles groups mappings desired ↔
      role ∈ desired ∨ ∃ m ∈ mappings, m.roleName = role ∧ .string m.externalGroup ∈ groups := by
  induction mappings generalizing desired with
  | nil => simp [mappedRoles]
  | cons m rest ih =>
      have hgroup : (groups.any fun group => group.asStr == some m.externalGroup) = true ↔ .string m.externalGroup ∈ groups := by
        rw [List.any_eq_true]
        constructor
        · rintro ⟨group, hmem, heq⟩
          cases group with
          | string s =>
              obtain rfl : s = m.externalGroup := by simpa [Value.asStr] using heq
              exact hmem
          | null | bool | number | array | object => simp [Value.asStr] at heq
        · exact fun hmem => ⟨_, hmem, by simp [Value.asStr]⟩
      rw [mappedRoles]
      split
      · next hnew =>
          simp only [Bool.and_eq_true, hgroup] at hnew
          rw [ih]
          simp only [List.mem_append, List.mem_cons, List.not_mem_nil, or_false, exists_eq_or_imp, hnew.1, and_true, or_assoc,
            eq_comm (a := role)]
      · next hold =>
          rw [ih]
          simp only [List.mem_cons, exists_eq_or_imp]
          constructor
          · exact fun h => h.imp_right .inr
          · rintro (h | ⟨rfl, hg⟩ | h)
            · exact .inl h
            · have hin : m.roleName ∈ desired := by
                by_contra hout
                exact hold (by simp [hgroup.mpr hg, hout])
              exact .inl hin
            · exact .inr h

def Mapped (c : FederationConfig) (profile : Value) (role : String) : Prop :=
  ∃ groups, claimedGroups c.claim profile = some groups ∧
    ∃ m ∈ c.mappings, m.roleName = role ∧ .string m.externalGroup ∈ groups

def WellFormed (c : FederationConfig) (profile : Value) : Prop :=
  ∃ groups, claimedGroups c.claim profile = some groups ∧ groups.length ≤ 256 ∧ ∀ group ∈ groups, validGroup group = true

theorem desiredRoles_eq_ok {c : FederationConfig} (hc : c.enabled = true) {profile : Value} {desired : List String}
    (h : desiredRoles c profile = .ok desired) : WellFormed c profile ∧ ∀ role, role ∈ desired ↔ Mapped c profile role := by
  simp only [desiredRoles, hc, bind_eq_ok, Bool.true_eq_false, if_false, context_eq_ok, ensure_eq_ok, pure_eq_ok,
    decide_eq_true_eq, List.all_eq_true] at h
  obtain ⟨_, -, groups, hg, _, hlen, _, hvalid, rfl⟩ := h
  refine ⟨⟨groups, hg, hlen, hvalid⟩, fun role => ?_⟩
  rw [mem_mappedRoles]
  constructor
  · rintro (h | h)
    · cases h
    · exact ⟨groups, hg, h⟩
  · rintro ⟨groups', hg', h⟩
    obtain rfl := Option.some.inj (hg.symm.trans hg')
    exact .inr h

structure Confined (t t' : Tables) (user connection : String) : Prop where
  rest : t' = { t with memberships := t'.memberships, federated := t'.federated }
  manual : ∀ m, m.manual = true → (m ∈ t'.memberships.rows ↔ m ∈ t.memberships.rows)
  others : ∀ m, m.user ≠ user → (m ∈ t'.memberships.rows ↔ m ∈ t.memberships.rows)
  connections : ∀ f : FederatedRow, ¬ (f.user = user ∧ f.connection = connection) →
    (f ∈ t'.federated.rows ↔ f ∈ t.federated.rows)

theorem Confined.refl (t : Tables) (user connection : String) : Confined t t user connection :=
  ⟨rfl, fun _ _ => Iff.rfl, fun _ _ => Iff.rfl, fun _ _ => Iff.rfl⟩

theorem reconcile_confined {profile : Value} {writer : Bool} {r : Reconciled}
    (h : reconcile t user connection profile writer = .ok (some r)) : Confined t r.tables user connection := by
  obtain ⟨c, -, -, -, -, himport, -⟩ := reconcile_eq_some h
  have hi := importRoles_eq_ok himport
  have hold : ∀ m, m.manual = true ∨ m.user ≠ user →
      (m ∈ r.tables.memberships.rows ↔ m ∈ t.memberships.rows) := by
    intro m hm
    constructor
    · intro hmem
      rcases hi.added m hmem with hmem | ⟨hu, -, hmanual, -⟩
      · exact (mem_dropOrphans.mp hmem).1
      · rcases hm with hm | hm
        · simp [hmanual] at hm
        · exact absurd hu hm
    · intro hmem
      exact hi.kept m (mem_dropOrphans.mpr ⟨hmem, fun hu => hm.elim .inl fun hne => absurd hu hne⟩)
  refine ⟨?_, fun m hm => hold m (.inl hm), fun m hm => hold m (.inr hm), fun f hf => ?_⟩
  · rw [hi.rest]
    rfl
  · rw [hi.federated]
    constructor
    · rintro (hmem | ⟨role, -, rfl⟩)
      · exact (mem_dropFederated.mp hmem).1
      · exact absurd ⟨rfl, rfl⟩ hf
    · exact fun hmem => .inl (mem_dropFederated.mpr ⟨hmem, fun hu hc => absurd ⟨hu, hc⟩ hf⟩)

/-- The imports of a connection are what its configuration maps. -/
theorem reconcile_exact {profile : Value} {writer : Bool} {r : Reconciled}
    (h : reconcile t user connection profile writer = .ok (some r)) {c : FederationConfig}
    (hc : t.configs.find connection = some c) (role : String) :
    ⟨user, connection, role⟩ ∈ r.tables.federated.rows ↔ Mapped c profile role := by
  obtain ⟨c', hc', hon, -, hdesired, himport, -⟩ := reconcile_eq_some h
  obtain rfl := Option.some.inj (hc.symm.trans hc')
  rw [← (desiredRoles_eq_ok hon hdesired).2, (importRoles_eq_ok himport).federated]
  constructor
  · rintro (hmem | ⟨other, hother, heq⟩)
    · exact (mem_dropFederated.mp hmem).2 rfl rfl
    · obtain rfl : role = other := congrArg FederatedRow.role heq
      exact hother
  · exact fun hrole => .inr ⟨role, hrole, rfl⟩

variable {l : Ledger}

theorem Accounted.synchronize {t t' : Tables} {hand : String → String → Bool} (h : Accounted t hand) {user connection : String}
    {profile : Value} {writer delivered : Bool} (hok : synchronize t user connection profile writer delivered = .ok t') :
    Accounted t' hand := by
  rcases synchronize_eq_ok hok with rfl | ⟨r, hr, rfl⟩
  · exact h
  · obtain ⟨c, -, -, -, -, himport, -⟩ := reconcile_eq_some hr
    exact (h.dropped r.desired).imports (importRoles_eq_ok himport)

theorem Accounted.step (h : Accounted l.tables l.hand) {c : Command} (hc : c.keepsRoles = true) :
    Accounted (l.step c).tables (l.step c).hand := by
  simp only [Ledger.step, Tables.step]
  cases hok : execute l.tables c with
  | error e => cases c <;> simpa [hok] using h
  | ok t' =>
      have hsame : t'.memberships = l.tables.memberships → t'.federated = l.tables.federated → Accounted t' l.hand := h.congr
      cases c with
      | createRoles names =>
          obtain ⟨rfl, -⟩ := createRoles_eq_ok hok
          exact hsame rfl rfl
      | deleteRole role => cases hc
      | setParent role parent enabled =>
          simp only [execute, setParent] at hok
          split at hok
          · obtain ⟨rfl, -⟩ := insertParent_eq_ok hok
            exact hsame rfl rfl
          · simp only [removeParent, bind_eq_ok, pure_eq_ok] at hok
            obtain ⟨_, -, rfl⟩ := hok
            exact hsame rfl rfl
      | setMembership user role enabled =>
          simp only [accepts_ok, if_true]
          simp only [execute, setMembership] at hok
          cases enabled with
          | true => exact h.assign hok
          | false => exact h.unassign hok
      | configure config =>
          obtain ⟨-, -, hm, hf, -⟩ := configureApprovedRoles_eq_ok hok
          exact hsame hm hf
      | synchronize user connection profile writer delivered => exact h.synchronize hok
      | account user account =>
          cases hok
          exact hsame rfl rfl
      | settings connections permissionImport =>
          cases hok
          exact hsame rfl rfl

/-- A sign-in without configuration, while import is paused, or with a claim
that is missing or malformed. -/
def Unusable (t : Tables) (connection : String) (profile : Value) : Prop :=
  ∀ c, t.configs.find connection = some c → c.enabled = true → t.permissionImport = true → ¬ WellFormed c profile

theorem synchronize_unusable {t : Tables} {user connection : String} {profile : Value} {writer delivered : Bool}
    (h : Unusable t connection profile) : t.step (.synchronize user connection profile writer delivered) = t := by
  rw [Tables.step]
  cases hok : execute t (.synchronize user connection profile writer delivered) with
  | error e => rfl
  | ok t' =>
      rcases synchronize_eq_ok hok with rfl | ⟨r, hr, rfl⟩
      · rfl
      · obtain ⟨c, hc, hon, himport, hdesired, -⟩ := reconcile_eq_some hr
        exact absurd (desiredRoles_eq_ok hon hdesired).1 (h c hc hon himport)

theorem synchronize_confined {t : Tables} (user connection : String) (profile : Value) (writer delivered : Bool) :
    Confined t (t.step (.synchronize user connection profile writer delivered)) user connection := by
  rw [Tables.step]
  cases hok : execute t (.synchronize user connection profile writer delivered) with
  | error e => exact .refl t user connection
  | ok t' =>
      rcases synchronize_eq_ok hok with rfl | ⟨r, hr, rfl⟩
      · exact .refl _ user connection
      · exact reconcile_confined hr

theorem synchronize_exact {t t' : Tables} {user connection : String} {profile : Value} {writer delivered : Bool}
    (hok : synchronize t user connection profile writer delivered = .ok t') {c : FederationConfig}
    (hc : t.configs.find connection = some c) (hon : c.enabled = true) (himport : t.permissionImport = true) (role : String) :
    ⟨user, connection, role⟩ ∈ t'.federated.rows ↔ Mapped c profile role := by
  simp only [synchronize, bind_eq_ok] at hok
  obtain ⟨o, ho, hok⟩ := hok
  cases o with
  | none =>
      simp only [reconcile, hc, hon, himport, Bool.and_self, Bool.true_eq_false, if_false, bind_eq_ok, pure_eq_ok] at ho
      obtain ⟨_, -, _, -, _, -, hnone⟩ := ho
      cases hnone
  | some r =>
      simp only [bind_eq_ok, pure_eq_ok] at hok
      obtain ⟨_, -, rfl⟩ := hok
      exact reconcile_exact ho hc role

/-- Memberships are what was assigned by hand and what is imported. A sign-in
sets the imports of its user and connection to what is mapped, and touches
nothing else. -/
theorem synchronization_owns {start : Tables} (hm : start.memberships = .empty) (hf : start.federated = .empty)
    {commands : List Command} (hc : ∀ c ∈ commands, c.keepsRoles = true) :
    let l := run Ledger.step ⟨start, fun _ _ => false⟩ commands
    (∀ user role, (∃ m ∈ l.tables.memberships.rows, m.user = user ∧ m.role = role) ↔
      l.hand user role = true ∨ ∃ connection, ⟨user, connection, role⟩ ∈ l.tables.federated.rows) ∧
    ∀ user connection profile writer delivered,
      (∀ t' c, synchronize l.tables user connection profile writer delivered = .ok t' →
        l.tables.configs.find connection = some c → c.enabled = true → l.tables.permissionImport = true →
        ∀ role, ⟨user, connection, role⟩ ∈ t'.federated.rows ↔ Mapped c profile role) ∧
      Confined l.tables (l.tables.step (.synchronize user connection profile writer delivered)) user connection ∧
      (Unusable l.tables connection profile →
        l.tables.step (.synchronize user connection profile writer delivered) = l.tables) := by
  intro l
  have hstart : Accounted start fun _ _ => false := by
    refine ⟨?_, ?_, ?_, ?_⟩
    · rw [hm]
      exact fun _ h => by cases h
    · exact fun _ _ h => by cases h
    · rw [hf]
      exact fun _ h => by cases h
    · rw [hm]
      exact fun _ h => by cases h
  have hstep : ∀ (l : Ledger) (c : Command), Accounted l.tables l.hand → c.keepsRoles = true →
      Accounted (l.step c).tables (l.step c).hand := fun l c h hok => h.step hok
  have hl : Accounted l.tables l.hand := run_invariant hstep hstart (along_of_forall hc)
  refine ⟨fun user role => ⟨?_, ?_⟩, fun user connection profile writer delivered => ⟨?_, ?_, ?_⟩⟩
  · rintro ⟨m, hm, rfl, rfl⟩
    rcases hl.source m hm with hmanual | ⟨f, hf, hu, hr⟩
    · exact .inl ((hl.flag m hm).symm.trans hmanual)
    · exact .inr ⟨f.connection, by rw [← hu, ← hr]; exact hf⟩
  · rintro (hhand | ⟨connection, hf⟩)
    · exact hl.hand user role hhand
    · exact hl.imported _ hf
  · exact fun t' c hok hconfig hon himport role => synchronize_exact hok hconfig hon himport role
  · exact synchronize_confined user connection profile writer delivered
  · exact synchronize_unusable

def signins : List Command :=
  [.configure ⟨"idp", "raw.groups", [⟨"Finance", "analyst"⟩], true⟩,
    .synchronize "alice" "idp" (.object [("raw", .object [("groups", .array [.string "Finance"])])]) true true]

def organization : Tables := .empty (fun user => if user = "alice" then some ⟨true, false⟩ else none) ["idp"] true

theorem synchronization_owns_signin :
    ∃ m ∈ (run Ledger.step ⟨organization, fun _ _ => false⟩ signins).tables.memberships.rows,
      m.user = "alice" ∧ m.role = "analyst" := by
  have howns := @synchronization_owns organization rfl rfl signins (by decide)
  exact (howns.1 "alice" "analyst").mpr (.inr ⟨"idp", by decide +kernel⟩)

end Galadril.Iam
