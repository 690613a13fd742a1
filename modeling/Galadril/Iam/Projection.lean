import Galadril.Iam.Federation

namespace Galadril.Iam

open Json Lib Lib.Checked Lib.Chains Lib.Transitions

structure Relations where
  member : String → String → Bool
  inherits : String → String → Bool

/-- One request of a locked section: the commit of its transaction, or a write
of relations. -/
inductive Action
  | commit (tables : Tables)
  | member (role user : String) (enabled : Bool)
  | inherits (role parent : String) (enabled : Bool)
  | revokeAll (role : String) (users : List String)

def Action.tables (t : Tables) : Action → Tables
  | .commit t' => t'
  | _ => t

def Action.relations (rel : Relations) : Action → Relations
  | .commit _ => rel
  | .member role user enabled =>
      { rel with member := fun r u => if r = role ∧ u = user then enabled else rel.member r u }
  | .inherits role parent enabled =>
      { rel with inherits := fun r p => if r = role ∧ p = parent then enabled else rel.inherits r p }
  | .revokeAll role users =>
      { rel with member := fun r u => if r = role ∧ u ∈ users then false else rel.member r u }

/-- Changes of roles that are projected. A sign-in also says what it reads
back after its commit, if it can. -/
inductive Operation
  | setMembership (user role : String) (enabled : Bool)
  | setParent (role parent : String) (enabled : Bool)
  | deleteRole (role : String)
  | synchronize (user connection : String) (profile : Value) (writer : Bool) (current : Option (List String))

def granting (tables : Except String Tables) (grant : Action) : List Action :=
  match tables with
  | .ok t => [.commit t, grant]
  | .error _ => []

def revoking (tables : Except String Tables) (revoke : Action) : List Action :=
  match tables with
  | .ok t => [revoke, .commit t]
  | .error _ => []

def memberships (roles : List String) (user : String) (enabled : Bool) : List Action :=
  roles.map fun role => .member role user enabled

/-- Granted roles that are not read back are revoked again. -/
def unconfirmed (desired : List String) : Option (List String) → List String
  | none => desired
  | some current => desired.filter fun role => !current.contains role

def interrupted (t : Tables) (user connection : String) (profile : Value) (writer : Bool) : List String :=
  match t.configs.find connection with
  | none => []
  | some c =>
      match (if c.enabled && t.permissionImport && writer then desiredRoles c profile else .error "") with
      | .error _ => []
      | .ok desired =>
          let dropped := dropFederated t user connection desired
          (dropped.memberships.rows.filter (orphaned dropped user)).map MembershipRow.role

/-- The requests of an operation, as the tables are when it gets the lock. -/
def program (t : Tables) : Operation → List Action
  | .setMembership user role enabled =>
      if enabled then granting (assignMembership t user role) (.member role user true)
      else revoking (unassignMembership t user role) (.member role user false)
  | .setParent role parent enabled =>
      if enabled then granting (insertParent t role parent) (.inherits role parent true)
      else revoking (removeParent t role parent) (.inherits role parent false)
  | .deleteRole role =>
      match roleDeletionUsers t role with
      | .ok users => revoking (deleteRole t role) (.revokeAll role users)
      | .error _ => []
  | .synchronize user connection profile writer current =>
      match reconcile t user connection profile writer with
      | .ok (some r) => memberships r.revoked user false ++ .commit r.tables ::
          (memberships r.desired user true ++ memberships (unconfirmed r.desired current) user false)
      | .ok none => []
      | .error _ => memberships (interrupted t user connection profile writer) user false

/-- The two stores, and what the holder of the tenant's lock has left to do. -/
structure Projected where
  tables : Tables
  relations : Relations
  holder : Option (List Action)

/-- Transactions that neither take a role away nor are projected. -/
def Command.administrative : Command → Bool
  | .createRoles _ | .configure _ | .account _ _ | .settings _ _ => true
  | _ => false

/-- The lock is taken, its holder makes its next request, or it gives up the
lock: at its end, on a failure, or in a crash. A request that fails has taken
effect or not. -/
inductive Progressed
  | acquired (operation : Operation)
  | requested
  | released
  | administered (command : Command)

def Projected.step (s : Projected) : Progressed → Projected
  | .acquired operation =>
      match s.holder with
      | none => { s with holder := some (program s.tables operation) }
      | some _ => s
  | .requested =>
      match s.holder with
      | some (a :: rest) => ⟨a.tables s.tables, a.relations s.relations, some rest⟩
      | _ => s
  | .released => { s with holder := none }
  | .administered command =>
      if s.holder.isNone && command.administrative then { s with tables := s.tables.step command } else s

variable {t t' : Tables} {rel : Relations}

structure Approved (t : Tables) (rel : Relations) : Prop where
  member : ∀ role user, rel.member role user = true → ∃ m ∈ t.memberships.rows, m.user = user ∧ m.role = role
  inherits : ∀ role parent, rel.inherits role parent = true → Inherits t role parent

def Safe : Tables → Relations → List Action → Prop
  | t, rel, [] => Sound t ∧ Approved t rel
  | t, rel, a :: rest => (Sound t ∧ Approved t rel) ∧ Safe (a.tables t) (a.relations rel) rest

theorem Safe.now {actions : List Action} (h : Safe t rel actions) : Sound t ∧ Approved t rel := by
  cases actions with
  | nil => exact h
  | cons a rest => exact h.1

theorem Approved.fewer {rel' : Relations} (h : Approved t rel)
    (hm : ∀ role user, rel'.member role user = true → rel.member role user = true)
    (hi : ∀ role parent, rel'.inherits role parent = true → rel.inherits role parent = true) : Approved t rel' :=
  ⟨fun role user hr => h.member role user (hm role user hr), fun role parent hr => h.inherits role parent (hi role parent hr)⟩

theorem Approved.more (h : Approved t rel)
    (hm : ∀ m ∈ t.memberships.rows, ∃ m' ∈ t'.memberships.rows, m'.user = m.user ∧ m'.role = m.role)
    (hp : ∀ e ∈ t.parents.rows, e ∈ t'.parents.rows) : Approved t' rel := by
  refine ⟨fun role user hr => ?_, fun role parent hr => hp _ (h.inherits role parent hr)⟩
  obtain ⟨m, hmem, rfl, rfl⟩ := h.member role user hr
  exact hm m hmem

theorem Safe.revokes (roles : List String) (user : String) {rest : List Action} (hs : Sound t) (h : Approved t rel)
    (hrest : ∀ rel', Approved t rel' → (∀ role ∈ roles, rel'.member role user = false) → Safe t rel' rest) :
    Safe t rel (memberships roles user false ++ rest) := by
  -- what is revoked stays revoked, so the hypothesis carries what was not granted before
  have hall : ∀ rel, Approved t rel → (∀ rel', Approved t rel' → (∀ role ∈ roles, rel'.member role user = false) →
      (∀ role, rel'.member role user = true → rel.member role user = true) → Safe t rel' rest) →
      Safe t rel (memberships roles user false ++ rest) := by
    clear hrest h
    induction roles with
    | nil => exact fun rel h hrest => hrest rel h (by simp) fun _ hr => hr
    | cons first roles ih =>
        intro rel h hrest
        have hfewer : ∀ role u, (Action.relations rel (.member first user false)).member role u = true →
            rel.member role u = true ∧ ¬ (role = first ∧ u = user) := by
          intro role u hr
          simp only [Action.relations] at hr
          split at hr
          · cases hr
          · next hne => exact ⟨hr, hne⟩
        refine ⟨⟨hs, h⟩, ih _ (h.fewer (fun role u hr => (hfewer role u hr).1) fun _ _ hr => hr) ?_⟩
        intro rel' happroved hnone hless
        refine hrest rel' happroved (fun role hrole => ?_) fun role hr => (hfewer role user (hless role hr)).1
        rcases List.mem_cons.mp hrole with rfl | hrole
        · exact Bool.eq_false_iff.mpr fun hr => (hfewer role user (hless role hr)).2 ⟨rfl, rfl⟩
        · exact hnone role hrole
  exact hall rel h fun rel' h' hnone _ => hrest rel' h' hnone

theorem Safe.grants (roles : List String) (user : String) {rest : List Action} (hs : Sound t) (h : Approved t rel)
    (hrows : ∀ role ∈ roles, ∃ m ∈ t.memberships.rows, m.user = user ∧ m.role = role)
    (hrest : ∀ rel', Approved t rel' → Safe t rel' rest) : Safe t rel (memberships roles user true ++ rest) := by
  induction roles generalizing rel with
  | nil => exact hrest rel h
  | cons first roles ih =>
      refine ⟨⟨hs, h⟩, ih ⟨fun role u hr => ?_, h.inherits⟩ fun role hrole => hrows role (List.mem_cons_of_mem _ hrole)⟩
      simp only [Action.relations] at hr
      split at hr
      · next hsame =>
          obtain ⟨rfl, rfl⟩ := hsame
          exact hrows role List.mem_cons_self
      · exact h.member role u hr

theorem Safe.commit {rest : List Action} (hs : Sound t) (h : Approved t rel) (hrest : Safe t' rel rest) :
    Safe t rel (.commit t' :: rest) :=
  ⟨⟨hs, h⟩, hrest⟩

variable {user role parent : String}

theorem safe_assign (hs : Sound t) (h : Approved t rel) (hok : assignMembership t user role = .ok t') :
    Safe t rel [.commit t', .member role user true] := by
  have hs' : Sound t' := (hs.setMembership (show setMembership t user role true = .ok t' from hok)).1
  simp only [assignMembership, bind_eq_ok, pure_eq_ok] at hok
  obtain ⟨_, -, rfl⟩ := hok
  refine .commit hs h (Safe.grants [role] user hs' (h.more (fun m hm => ?_) fun _ he => he) (fun r hr => ?_)
    fun _ happroved => ⟨hs', happroved⟩)
  · refine ⟨_, Table.subset_insert _ _ (List.mem_map_of_mem hm), ?_⟩
    split <;> exact ⟨rfl, rfl⟩
  · obtain rfl := List.mem_singleton.mp hr
    exact Table.exists_key_insert _ (⟨user, r, true⟩ : MembershipRow) fun m hk =>
      (⟨congrArg Prod.fst hk, congrArg Prod.snd hk⟩ : m.user = user ∧ m.role = r)

theorem safe_unassign (hs : Sound t) (h : Approved t rel) (hok : unassignMembership t user role = .ok t') :
    Safe t rel [.member role user false, .commit t'] := by
  have hs' : Sound t' := (hs.setMembership (show setMembership t user role false = .ok t' from hok)).1
  simp only [unassignMembership, bind_eq_ok, pure_eq_ok] at hok
  obtain ⟨_, -, rfl⟩ := hok
  refine Safe.revokes [role] user hs h fun rel' h' hnone => .commit hs h' ⟨hs', fun r u hr => ?_, h'.inherits⟩
  obtain ⟨m, hm, rfl, rfl⟩ := h'.member r u hr
  refine ⟨m, List.mem_filter.mpr ⟨hm, ?_⟩, rfl, rfl⟩
  -- the deleted row is no longer granted
  have hne : ¬ (m.user = user ∧ m.role = role) := by
    rintro ⟨hu, hrole⟩
    rw [hu, hnone _ (List.mem_singleton.mpr hrole)] at hr
    cases hr
  simpa [MembershipRow.key] using hne

theorem inherits_insertParent (hok : insertParent t role parent = .ok t') : Inherits t' role parent := by
  simp only [insertParent, bind_eq_ok, ensure_eq_ok, pure_eq_ok] at hok
  obtain ⟨_, -, _, -, _, hother, _, -, _, -, rfl⟩ := hok
  obtain ⟨e, he, hrole⟩ := Table.exists_key_insert t.parents ⟨role, parent⟩ fun e (hk : e.role = role) => hk
  have hparent : e.parent = parent := by
    rcases Table.mem_insert he with hmem | ⟨rfl, -⟩
    · by_contra hne
      simp only [Bool.not_eq_true', List.any_eq_false] at hother
      exact hother e hmem (by simp [hrole, hne])
    · rfl
  obtain rfl : e = ⟨role, parent⟩ := by rw [← hrole, ← hparent]
  exact he

theorem safe_insertParent (hs : Sound t) (h : Approved t rel) (hok : insertParent t role parent = .ok t') :
    Safe t rel [.commit t', .inherits role parent true] := by
  have hs' : Sound t' := (hs.setParent (show setParent t role parent true = .ok t' from hok)).1
  have hrow := inherits_insertParent hok
  obtain ⟨rfl, -⟩ := insertParent_eq_ok hok
  have hkept : Approved { t with parents := t.parents.insert ⟨role, parent⟩ } rel :=
    h.more (fun m hm => ⟨m, hm, rfl, rfl⟩) fun e he => Table.subset_insert _ _ he
  refine .commit hs h ⟨⟨hs', hkept⟩, hs', hkept.member, fun r p hr => ?_⟩
  simp only [Action.relations] at hr
  split at hr
  · next hsame =>
      obtain ⟨rfl, rfl⟩ := hsame
      exact hrow
  · exact hkept.inherits r p hr

theorem safe_removeParent (hs : Sound t) (h : Approved t rel) (hok : removeParent t role parent = .ok t') :
    Safe t rel [.inherits role parent false, .commit t'] := by
  have hs' : Sound t' := (hs.setParent (show setParent t role parent false = .ok t' from hok)).1
  simp only [removeParent, bind_eq_ok, pure_eq_ok] at hok
  obtain ⟨_, -, rfl⟩ := hok
  have hfewer : ∀ r p, (Action.relations rel (.inherits role parent false)).inherits r p = true →
      rel.inherits r p = true ∧ ¬ (r = role ∧ p = parent) := by
    intro r p hr
    simp only [Action.relations] at hr
    split at hr
    · cases hr
    · next hne => exact ⟨hr, hne⟩
  have hrevoked : Approved t (Action.relations rel (.inherits role parent false)) :=
    h.fewer (fun _ _ hr => hr) fun r p hr => (hfewer r p hr).1
  refine ⟨⟨hs, h⟩, .commit hs hrevoked ⟨hs', hrevoked.member, fun r p hr => ?_⟩⟩
  exact List.mem_filter.mpr ⟨h.inherits r p (hfewer r p hr).1, by simpa [Decidable.imp_iff_not_or] using (hfewer r p hr).2⟩

theorem safe_deleteRole (hs : Sound t) (h : Approved t rel) {users : List String} (husers : roleDeletionUsers t role = .ok users)
    (hok : deleteRole t role = .ok t') : Safe t rel [.revokeAll role users, .commit t'] := by
  have hs' : Sound t' := (hs.execute (c := .deleteRole role) hok).1
  simp only [roleDeletionUsers, bind_eq_ok, pure_eq_ok] at husers
  obtain ⟨_, -, _, -, _, -, _, -, husers⟩ := husers
  obtain ⟨-, rfl⟩ := deleteRole_eq_ok hok
  have hfewer : ∀ r u, (Action.relations rel (.revokeAll role users)).member r u = true →
      rel.member r u = true ∧ ¬ (r = role ∧ u ∈ users) := by
    intro r u hr
    simp only [Action.relations] at hr
    split at hr
    · cases hr
    · next hne => exact ⟨hr, hne⟩
  have hrevoked : Approved t (Action.relations rel (.revokeAll role users)) :=
    h.fewer (fun r u hr => (hfewer r u hr).1) fun _ _ hr => hr
  refine ⟨⟨hs, h⟩, .commit hs hrevoked ⟨hs', fun r u hr => ?_, hrevoked.inherits⟩⟩
  obtain ⟨hgranted, hne⟩ := hfewer r u hr
  obtain ⟨m, hm, rfl, rfl⟩ := h.member r u hgranted
  refine ⟨m, List.mem_filter.mpr ⟨hm, ?_⟩, rfl, rfl⟩
  have hother : m.role ≠ role := by
    intro hrole
    refine hne ⟨hrole, ?_⟩
    rw [← husers]
    exact List.mem_map_of_mem (List.mem_filter.mpr ⟨hm, by simpa using hrole⟩)
  simpa using hother

/-- A row that a sign-in drops is one whose role it revokes. -/
theorem reconcile_kept {connection : String} {profile : Value} {writer : Bool} {r : Reconciled}
    (hr : reconcile t user connection profile writer = .ok (some r)) {m : MembershipRow} (hm : m ∈ t.memberships.rows)
    (hkept : m.user = user → m.role ∉ r.revoked) : m ∈ r.tables.memberships.rows := by
  obtain ⟨c, -, -, -, -, himport, hrevoked⟩ := reconcile_eq_some hr
  refine (importRoles_eq_ok himport).kept m (List.mem_filter.mpr ⟨hm, ?_⟩)
  by_contra horphan
  have horphan : orphaned (dropFederated t user connection r.desired) user m = true := by simpa using horphan
  have huser : m.user = user := by
    simp only [orphaned, Bool.and_eq_true, beq_iff_eq] at horphan
    exact horphan.1.1
  refine hkept huser ?_
  rw [hrevoked]
  exact List.mem_map_of_mem (List.mem_filter.mpr ⟨hm, horphan⟩)

theorem safe_revocations (hs : Sound t) (h : Approved t rel) (roles : List String) :
    Safe t rel (memberships roles user false) := by
  rw [← List.append_nil (memberships roles user false)]
  exact Safe.revokes roles user hs h fun _ happroved _ => ⟨hs, happroved⟩

/-- What is granted to a user that a sign-in does not revoke is kept by its
commit. -/
theorem Approved.reconcile {connection : String} {profile : Value} {writer : Bool} {r : Reconciled} (h : Approved t rel)
    (hr : reconcile t user connection profile writer = .ok (some r)) (hnone : ∀ role ∈ r.revoked, rel.member role user = false) :
    Approved r.tables rel := by
  refine ⟨fun role u hmember => ?_, fun role parent hinherits => ?_⟩
  · obtain ⟨m, hm, rfl, rfl⟩ := h.member role u hmember
    refine ⟨m, reconcile_kept hr hm fun hu hrevoked => ?_, rfl, rfl⟩
    rw [hu, hnone _ hrevoked] at hmember
    cases hmember
  · rw [Inherits, (reconcile_confined hr).rest]
    exact h.inherits role parent hinherits

theorem safe_reconcile (hs : Sound t) (h : Approved t rel) {connection : String} {profile : Value} {writer : Bool}
    {r : Reconciled} (hr : reconcile t user connection profile writer = .ok (some r)) (undone : List String) :
    Safe t rel (memberships r.revoked user false ++ .commit r.tables ::
      (memberships r.desired user true ++ memberships undone user false)) := by
  have hsync : synchronize t user connection profile writer true = .ok r.tables := by
    simp [synchronize, hr, ok_bind]
  have hs' : Sound r.tables := (hs.synchronize hsync).1
  obtain ⟨c, -, -, -, -, himport, -⟩ := reconcile_eq_some hr
  refine Safe.revokes r.revoked user hs h fun rel' h' hnone => .commit hs h' ?_
  exact Safe.grants r.desired user hs' (h'.reconcile hr hnone) (importRoles_eq_ok himport).present
    fun _ happroved => safe_revocations hs' happroved undone

/-- Whatever an operation finds, relations stay approved at each of its
requests. -/
theorem safe_program (hs : Sound t) (h : Approved t rel) (operation : Operation) : Safe t rel (program t operation) := by
  have hnothing : Safe t rel [] := ⟨hs, h⟩
  cases operation with
  | setMembership user role enabled =>
      cases enabled with
      | true =>
          cases hok : assignMembership t user role with
          | ok t' => simpa [program, granting, hok] using safe_assign hs h hok
          | error e => simpa [program, granting, hok] using hnothing
      | false =>
          cases hok : unassignMembership t user role with
          | ok t' => simpa [program, revoking, hok] using safe_unassign hs h hok
          | error e => simpa [program, revoking, hok] using hnothing
  | setParent role parent enabled =>
      cases enabled with
      | true =>
          cases hok : insertParent t role parent with
          | ok t' => simpa [program, granting, hok] using safe_insertParent hs h hok
          | error e => simpa [program, granting, hok] using hnothing
      | false =>
          cases hok : removeParent t role parent with
          | ok t' => simpa [program, revoking, hok] using safe_removeParent hs h hok
          | error e => simpa [program, revoking, hok] using hnothing
  | deleteRole role =>
      cases husers : roleDeletionUsers t role with
      | error e => simpa [program, husers] using hnothing
      | ok users =>
          cases hok : deleteRole t role with
          | ok t' => simpa [program, revoking, husers, hok] using safe_deleteRole hs h husers hok
          | error e => simpa [program, revoking, husers, hok] using hnothing
  | synchronize user connection profile writer current =>
      rw [program]
      split
      · next r hr => exact safe_reconcile hs h hr _
      · exact hnothing
      · exact safe_revocations hs h _

variable {s : Projected}

def Projected.Safe (s : Projected) : Prop := Iam.Safe s.tables s.relations (s.holder.getD [])

theorem Approved.administer {t : Tables} {rel : Relations} (h : Approved t rel) {c : Command} (hc : c.administrative = true) :
    Approved (t.step c) rel := by
  have hkept : (t.step c).memberships = t.memberships ∧ (t.step c).parents = t.parents := by
    rw [Tables.step]
    cases hok : execute t c with
    | error e => exact ⟨rfl, rfl⟩
    | ok t' =>
        cases c with
        | createRoles names =>
            obtain ⟨rfl, -⟩ := createRoles_eq_ok hok
            exact ⟨rfl, rfl⟩
        | configure config =>
            obtain ⟨-, hp, hm, -⟩ := configureApprovedRoles_eq_ok hok
            exact ⟨hm, hp⟩
        | account user account =>
            cases hok
            exact ⟨rfl, rfl⟩
        | settings connections permissionImport =>
            cases hok
            exact ⟨rfl, rfl⟩
        | deleteRole role => cases hc
        | setParent role parent enabled => cases hc
        | setMembership user role enabled => cases hc
        | synchronize user connection profile writer delivered => cases hc
  refine h.more (fun m hm => ⟨m, ?_, rfl, rfl⟩) fun e he => ?_
  · rw [hkept.1]
    exact hm
  · rw [hkept.2]
    exact he

theorem Projected.Safe.step (h : s.Safe) (e : Progressed) : (s.step e).Safe := by
  obtain ⟨hs, happroved⟩ := Iam.Safe.now h
  cases e with
  | acquired operation =>
      rw [Projected.step]
      split
      · exact safe_program hs happroved operation
      · exact h
  | requested =>
      rw [Projected.step]
      split
      · next a rest hholder =>
          rw [Projected.Safe, hholder] at h
          exact h.2
      · exact h
  | released => exact ⟨hs, happroved⟩
  | administered command =>
      rw [Projected.step]
      split
      · next hfree =>
          obtain ⟨hfree, hc⟩ : s.holder.isNone = true ∧ command.administrative = true := by simpa using hfree
          rw [Projected.Safe, Option.isNone_iff_eq_none.mp hfree]
          exact ⟨(hs.step command).1, happroved.administer hc⟩
      · exact h

variable (users : String → Option Account) (connections : List String) (permissionImport : Bool)

def projectedAfter (events : List Progressed) : Projected :=
  run Projected.step
    ⟨.empty users connections permissionImport, ⟨fun _ _ => false, fun _ _ => false⟩, none⟩ events

/-- A relation that the authorization service holds has its row, and names
live roles, also while a section is under way or after it was cut off. -/
theorem relations_approved (events : List Progressed) :
    let s := projectedAfter users connections permissionImport events
    (∀ role user, s.relations.member role user = true →
      (∃ m ∈ s.tables.memberships.rows, m.user = user ∧ m.role = role) ∧ s.tables.tombstoned role = false) ∧
    (∀ role parent, s.relations.inherits role parent = true →
      Inherits s.tables role parent ∧ s.tables.tombstoned role = false ∧ s.tables.tombstoned parent = false) := by
  intro s
  have hstart : Projected.Safe
      ⟨.empty users connections permissionImport, ⟨fun _ _ => false, fun _ _ => false⟩, none⟩ :=
    ⟨sound_empty users connections permissionImport, fun _ _ hr => (by cases hr), fun _ _ hr => (by cases hr)⟩
  have hsafe : s.Safe := run_invariant_always (fun _ e h => h.step e) hstart events
  obtain ⟨hs, happroved⟩ := hsafe.now
  refine ⟨fun role user hr => ?_, fun role parent hr => ?_⟩
  · obtain ⟨m, hm, hu, rfl⟩ := happroved.member role user hr
    exact ⟨⟨m, hm, hu, rfl⟩, not_tombstoned_of_live (hs.alive.members m hm)⟩
  · have hrow := happroved.inherits role parent hr
    obtain ⟨hrole, hparent⟩ := hs.alive.edges _ hrow
    exact ⟨hrow, not_tombstoned_of_live hrole, not_tombstoned_of_live hparent⟩

end Galadril.Iam
