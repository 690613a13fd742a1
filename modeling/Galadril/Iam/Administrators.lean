import Galadril.Iam.Accounts

namespace Galadril.Iam

open Lib.Checked Lib.Transitions

variable {s : State}

theorem mem_set_of_mem {α : Type} {xs : List α} {i : Nat} {x y z : α} (hx : x ∈ xs) (hi : xs[i]? = some y) :
    x = y ∨ x ∈ xs.set i z := by
  obtain ⟨j, hj⟩ := List.mem_iff_getElem?.mp hx
  by_cases hij : i = j
  · subst hij
    exact .inl (Option.some.inj (hj.symm.trans hi))
  · exact .inr (List.mem_iff_getElem?.mpr ⟨j, by rw [List.getElem?_set_ne hij, hj]⟩)

def Begun (s : State) (user : String) : Prop :=
  ∃ actor stage, (Call.deleteUser actor user, stage) ∈ s.calls ∧ stage.pending = true

def Removed (s : Stores) (user : String) : Prop := ∃ account, s.users user = some account ∧ account.deleted = true

def HasAdministrator (s : Stores) : Prop := ∃ user, s.active user = true ∧ s.administrator user = true

def Call.activates : Call → Bool
  | .createUser _ _ active | .updateUser _ _ active => active
  | _ => false

def Steady (s : State) : Event → Prop
  | .advanced i => ∀ call, s.calls[i]? = some (call, .authorized) → call.activates = true → ¬ Begun s call.user
  | .authorized _ => True

/-- Callers that lost their authority are disabled for good. -/
structure Guarded (s : State) : Prop where
  kept : HasAdministrator s.stores
  halted : ∀ user, Begun s user → ∃ account, s.stores.users user = some account ∧ account.active = false
  entitled : ∀ c ∈ s.calls, s.stores.administrator c.1.actor = true ∨ Begun s c.1.actor ∨ Removed s.stores c.1.actor

theorem Guarded.inactive (h : Guarded s) {user : String} (hb : Begun s user) : s.stores.active user = false := by
  obtain ⟨account, ha, hoff⟩ := h.halted user hb
  simp [Stores.active, ha, Account.current, hoff]

theorem Removed.inactive {s : Stores} {user : String} (h : Removed s user) : s.active user = false := by
  obtain ⟨account, ha, hdel⟩ := h
  simp [Stores.active, ha, Account.current, hdel]

/-- An active caller still holds the relation that authorized it. -/
theorem Guarded.administrator (h : Guarded s) {c : Call × Stage} (hc : c ∈ s.calls)
    (ha : s.stores.active c.1.actor = true) : s.stores.administrator c.1.actor = true := by
  rcases h.entitled c hc with hadmin | hb | hr
  · exact hadmin
  · exact absurd ha (by simp [h.inactive hb])
  · exact absurd ha (by simp [hr.inactive])

theorem Guarded.authorize (h : Guarded s) (call : Call) : Guarded (s.step (.authorized call)) := by
  rw [State.step]
  split
  · next hauth =>
      have hmono : ∀ user, Begun s user → Begun { s with calls := s.calls ++ [(call, .authorized)] } user :=
        fun user ⟨actor, stage, hmem, hp⟩ => ⟨actor, stage, List.mem_append_left _ hmem, hp⟩
      refine ⟨h.kept, ?_, ?_⟩
      · rintro user ⟨actor, stage, hmem, hp⟩
        rcases List.mem_append.mp hmem with hmem | hmem
        · exact h.halted user ⟨actor, stage, hmem, hp⟩
        · obtain ⟨-, rfl⟩ := Prod.mk.inj (List.mem_singleton.mp hmem)
          cases hp
      · intro c hc
        rcases List.mem_append.mp hc with hc | hc
        · exact (h.entitled c hc).imp_right (Or.imp_left (hmono _))
        · obtain rfl := List.mem_singleton.mp hc
          exact .inl (Bool.and_eq_true_iff.mp hauth).1
  · exact h

variable {i : Nat} {call : Call} {stage next : Stage} {stores : Stores}

theorem mem_set_self (hi : s.calls[i]? = some (call, stage)) : (call, next) ∈ s.calls.set i (call, next) :=
  List.mem_iff_getElem?.mpr ⟨i, by simp [(List.getElem?_eq_some_iff.mp hi).1]⟩

theorem begun_of_set {user : String} (h : Begun ⟨stores, s.calls.set i (call, next)⟩ user) :
    Begun s user ∨ ∃ actor, call = .deleteUser actor user ∧ next.pending = true := by
  obtain ⟨actor, stage, hmem, hp⟩ := h
  rcases List.mem_or_eq_of_mem_set hmem with hmem | heq
  · exact .inl ⟨actor, stage, hmem, hp⟩
  · obtain ⟨rfl, rfl⟩ := Prod.mk.inj heq
    exact .inr ⟨actor, rfl, hp⟩

theorem begun_set (hi : s.calls[i]? = some (call, stage)) {user : String} (h : Begun s user)
    (hlast : ∀ actor, call = .deleteUser actor user → stage.pending = true → next.pending = true ∨ Removed stores user) :
    Begun ⟨stores, s.calls.set i (call, next)⟩ user ∨ Removed stores user := by
  obtain ⟨actor, old, hmem, hp⟩ := h
  rcases mem_set_of_mem (z := (call, next)) hmem hi with heq | hmem
  · obtain ⟨rfl, rfl⟩ := Prod.mk.inj heq
    exact (hlast actor rfl hp).imp_left fun hp => ⟨actor, next, mem_set_self hi, hp⟩
  · exact .inl ⟨actor, old, hmem, hp⟩

/-- What a step has to keep: the disabled stay disabled, the tombstoned stay
tombstoned, and only the deletion of a user takes its authority. -/
theorem Guarded.advanced (h : Guarded s) (hi : s.calls[i]? = some (call, stage)) (hkept : HasAdministrator stores)
    (hold : ∀ user, Begun s user → ∃ account, stores.users user = some account ∧ account.active = false)
    (hnew : ∀ actor user, call = .deleteUser actor user → next.pending = true →
      ∃ account, stores.users user = some account ∧ account.active = false)
    (hadmin : ∀ user, s.stores.administrator user = true → stores.administrator user = true ∨
      ∃ actor, call = .deleteUser actor user ∧ next.pending = true)
    (hremoved : ∀ user, Removed s.stores user → Removed stores user)
    (hlast : ∀ actor user, call = .deleteUser actor user → stage.pending = true → next.pending = true ∨ Removed stores user) :
    Guarded ⟨stores, s.calls.set i (call, next)⟩ := by
  refine ⟨hkept, ?_, ?_⟩
  · intro user hb
    rcases begun_of_set hb with hb | ⟨actor, hc, hp⟩
    · exact hold user hb
    · exact hnew actor user hc hp
  · intro c hc
    obtain ⟨c', hc', hsame⟩ : ∃ c' ∈ s.calls, c'.1 = c.1 := by
      rcases List.mem_or_eq_of_mem_set hc with hc | rfl
      · exact ⟨c, hc, rfl⟩
      · exact ⟨_, List.mem_of_getElem? hi, rfl⟩
    rw [← hsame]
    rcases h.entitled c' hc' with ha | hb | hr
    · rcases hadmin _ ha with ha | ⟨actor, hcall, hp⟩
      · exact .inl ha
      · refine .inr (.inl ⟨actor, next, ?_, hp⟩)
        rw [← hcall]
        exact mem_set_self hi
    · exact .inr (begun_set hi hb fun actor => hlast actor _)
    · exact .inr (.inr (hremoved _ hr))

/-- A step that leaves accounts and administrators alone. -/
theorem Guarded.unchanged (h : Guarded s) (hi : s.calls[i]? = some (call, stage))
    (husers : stores.users = s.stores.users) (hadmin : stores.administrator = s.stores.administrator)
    (hnext : next.pending = true → stage.pending = true)
    (hlast : ∀ actor user, call = .deleteUser actor user → stage.pending = true → next.pending = true ∨ Removed stores user) :
    Guarded ⟨stores, s.calls.set i (call, next)⟩ := by
  have hactive : stores.active = s.stores.active := by
    funext user
    simp [Stores.active, husers]
  refine h.advanced hi ?_ ?_ ?_ ?_ ?_ hlast
  · simpa only [HasAdministrator, hactive, hadmin] using h.kept
  · simpa only [husers] using h.halted
  · rintro actor user rfl hp
    rw [husers]
    exact h.halted user ⟨actor, stage, List.mem_of_getElem? hi, hnext hp⟩
  · intro user ha
    exact .inl (by rw [hadmin]; exact ha)
  · intro user hr
    simpa only [Removed, husers] using hr

theorem active_withUser_of_ne {s : Stores} {user other : String} (account : Account) (h : other ≠ user) :
    (s.withUser user account).active other = s.active other := by
  simp [Stores.active, Stores.withUser, Function.update_of_ne h]

theorem active_withUser_self (s : Stores) (user : String) (account : Account) :
    (s.withUser user account).active user = account.current := by
  simp [Stores.active, Stores.withUser]

/-- An account write by an active caller, who is not disabled by it. -/
theorem Guarded.setUser (h : Guarded s) (hi : s.calls[i]? = some (call, .authorized)) {active upsert : Bool}
    (hok : setUserGuarded s.stores call.actor call.user active upsert = .ok stores)
    (hsteady : active = true → ¬ Begun s call.user) (hdelete : ∀ actor user, call = .deleteUser actor user → active = false) :
    Guarded ⟨stores, s.calls.set i (call, .written)⟩ := by
  obtain ⟨rfl, hactor, hself, hrow⟩ := setUserGuarded_eq_ok hok
  refine h.advanced hi ?_ ?_ ?_ ?_ ?_ ?_
  · refine ⟨call.actor, ?_, h.administrator (List.mem_of_getElem? hi) hactor⟩
    by_cases hsame : call.actor = call.user
    · rw [hsame, active_withUser_self]
      rcases hself with rfl | hne
      · rfl
      · exact absurd hsame hne
    · rwa [active_withUser_of_ne _ hsame]
  · intro user hb
    by_cases hsame : user = call.user
    · subst hsame
      refine ⟨⟨active, false⟩, by simp [Stores.withUser], ?_⟩
      cases active with
      | false => rfl
      | true => exact absurd hb (hsteady rfl)
    · obtain ⟨account, ha, hoff⟩ := h.halted user hb
      exact ⟨account, by simpa [Stores.withUser, Function.update_of_ne hsame] using ha, hoff⟩
  · rintro actor user hcall -
    refine ⟨⟨active, false⟩, ?_, hdelete actor user hcall⟩
    rw [show user = call.user by rw [hcall]; rfl]
    simp [Stores.withUser]
  · exact fun user ha => .inl ha
  · rintro user ⟨account, ha, hdel⟩
    have hne : user ≠ call.user := by
      rintro rfl
      exact absurd hdel (by simp [hrow account ha])
    exact ⟨account, by simpa [Stores.withUser, Function.update_of_ne hne] using ha, hdel⟩
  · intro actor user _ hp
    cases hp

theorem Guarded.write (h : Guarded s) (hi : s.calls[i]? = some (call, .authorized))
    (hsteady : call.activates = true → ¬ Begun s call.user) (hok : call.write s.stores = .ok stores) :
    Guarded ⟨stores, s.calls.set i (call, .written)⟩ := by
  cases call with
  | createUser actor user active => exact h.setUser hi hok hsteady (fun _ _ hc => by cases hc)
  | updateUser actor user active => exact h.setUser hi hok hsteady (fun _ _ hc => by cases hc)
  | deleteUser actor user => exact h.setUser hi hok (fun hf => by cases hf) (fun _ _ _ => rfl)
  | assignRoleToUser actor user role =>
      obtain ⟨-, -, rfl⟩ := assignRole_eq_ok hok
      refine h.advanced hi h.kept h.halted ?_ (fun user ha => .inl ha) (fun user hr => hr) ?_
      · rintro _ _ ⟨⟩
      · rintro _ _ ⟨⟩

/-- The relations of a disabled account go before its tombstone. -/
theorem Guarded.demote (h : Guarded s) {actor user : String} (hi : s.calls[i]? = some (.deleteUser actor user, .demoting)) :
    Guarded ⟨s.stores.withoutAdministrator user, s.calls.set i (.deleteUser actor user, .removing)⟩ := by
  have hb : Begun s user := ⟨actor, .demoting, List.mem_of_getElem? hi, rfl⟩
  refine h.advanced hi ?_ h.halted ?_ ?_ (fun _ hr => hr) ?_
  · obtain ⟨other, ha, hd⟩ := h.kept
    have hne : other ≠ user := by
      rintro rfl
      simp [h.inactive hb] at ha
    exact ⟨other, ha, by simpa [Stores.withoutAdministrator, Function.update_of_ne hne] using hd⟩
  · rintro _ _ ⟨⟩ -
    exact h.halted user hb
  · intro other ha
    by_cases hne : other = user
    · exact .inr ⟨actor, by rw [hne], rfl⟩
    · exact .inl (by simpa [Stores.withoutAdministrator, Function.update_of_ne hne] using ha)
  · exact fun _ _ _ _ => .inl rfl

theorem Guarded.remove (h : Guarded s) {actor user : String} (hi : s.calls[i]? = some (.deleteUser actor user, .removing))
    (hok : deleteUser s.stores user = .ok stores) :
    Guarded ⟨stores, s.calls.set i (.deleteUser actor user, .finished)⟩ := by
  have hb : Begun s user := ⟨actor, .removing, List.mem_of_getElem? hi, rfl⟩
  obtain rfl := deleteUser_eq_ok hok
  have hrow : ∀ other, other ≠ user → Function.update s.stores.users user (some ⟨false, true⟩) other = s.stores.users other :=
    fun other hne => Function.update_of_ne hne _ _
  refine h.advanced hi ?_ ?_ ?_ (fun _ ha => .inl ha) ?_ ?_
  · obtain ⟨other, ha, hd⟩ := h.kept
    have hne : other ≠ user := by
      rintro rfl
      simp [h.inactive hb] at ha
    exact ⟨other, by simpa [Stores.active, Stores.withUser, hrow other hne] using ha, hd⟩
  · intro other ho
    by_cases hne : other = user
    · exact ⟨⟨false, true⟩, by simp [Stores.withUser, hne], rfl⟩
    · simpa [Stores.withUser, hrow other hne] using h.halted other ho
  · rintro _ _ _ ⟨⟩
  · rintro other ⟨account, ha, hdel⟩
    by_cases hne : other = user
    · exact ⟨⟨false, true⟩, by simp [Stores.withUser, hne], rfl⟩
    · exact ⟨account, by simpa [Stores.withUser, hrow other hne] using ha, hdel⟩
  · rintro _ _ ⟨⟩ -
    exact .inr ⟨⟨false, true⟩, by simp [Stores.withUser], rfl⟩

theorem removed_of_refused {s : Stores} {user : String} {e : String} (h : deleteUser s user = .error e) {account : Account}
    (ha : s.users user = some account) : Removed s user := by
  refine ⟨account, ha, ?_⟩
  rw [deleteUser, bind_eq_error] at h
  rcases h with h | ⟨_, -, h⟩
  · simpa [ha] using (ensure_eq_error.mp h).1
  · cases h

theorem Guarded.advance (h : Guarded s) (hi : s.calls[i]? = some (call, stage))
    (hsteady : stage = .authorized → call.activates = true → ¬ Begun s call.user) :
    Guarded ⟨(call.advance s.stores stage).1, s.calls.set i (call, (call.advance s.stores stage).2)⟩ := by
  have hsame : ∀ stores next, stores.users = s.stores.users → stores.administrator = s.stores.administrator →
      next.pending = stage.pending → Guarded ⟨stores, s.calls.set i (call, next)⟩ := by
    intro stores next hu ha hp
    exact h.unchanged hi hu ha (by rw [hp]; exact id) fun _ _ _ hs => .inl (hp.trans hs)
  cases stage with
  | authorized =>
      simp only [Call.advance]
      cases hok : call.write s.stores with
      | ok stores => exact h.write hi (hsteady rfl) hok
      | error e => exact hsame _ _ rfl rfl (by rfl)
  | written =>
      cases call with
      | createUser | updateUser | assignRoleToUser => exact h.unchanged hi rfl rfl (fun _ => rfl) (by rintro _ _ ⟨⟩)
      | deleteUser => exact hsame _ _ rfl rfl (by rfl)
  | revoking roles =>
      cases roles with
      | nil => cases call <;> exact hsame _ _ rfl rfl (by rfl)
      | cons role roles => cases call <;> exact hsame _ _ rfl rfl (by rfl)
  | demoting =>
      cases call with
      | createUser | updateUser | assignRoleToUser => exact hsame _ _ rfl rfl (by rfl)
      | deleteUser actor user => exact h.demote hi
  | removing =>
      cases call with
      | createUser | updateUser | assignRoleToUser => exact hsame _ _ rfl rfl (by rfl)
      | deleteUser actor user =>
          simp only [Call.advance]
          cases hok : deleteUser s.stores user with
          | ok stores => exact h.remove hi hok
          | error e =>
              refine h.unchanged hi rfl rfl (fun hp => by cases hp) ?_
              rintro _ _ ⟨⟩ -
              obtain ⟨account, ha, -⟩ := h.halted user ⟨actor, .removing, List.mem_of_getElem? hi, rfl⟩
              exact .inr (removed_of_refused hok ha)
  | finished | failed => exact hsame _ _ rfl rfl (by rfl)

theorem Guarded.step (h : Guarded s) {e : Event} (hsteady : Steady s e) : Guarded (s.step e) := by
  cases e with
  | authorized call => exact h.authorize call
  | advanced i =>
      simp only [State.step]
      split
      · next call stage hi =>
          refine h.advance hi ?_
          rintro rfl
          exact hsteady call hi
      · exact h

/-- A tenant keeps an administrator as long as no account is enabled again
while its deletion is under way. -/
theorem administrator_kept {s : State} (hidle : s.calls = []) (hs : HasAdministrator s.stores) {events : List Event}
    (h : Along State.step Steady s events) : HasAdministrator (run State.step s events).stores := by
  have hguarded : Guarded s := by
    refine ⟨hs, ?_, by simp [hidle]⟩
    rintro user ⟨actor, stage, hmem, -⟩
    simp [hidle] at hmem
  have hstep : ∀ s e, Guarded s → Steady s e → Guarded (s.step e) := fun _ _ h hok => h.step hok
  exact (run_invariant hstep hguarded h).kept

def pair : State where
  stores :=
    { users := fun user => if user = "ada" ∨ user = "bob" then some ⟨true, false⟩ else none
      assigned := []
      liveRoles := []
      member := fun user => user = "ada" ∨ user = "bob"
      administrator := fun user => user = "ada" ∨ user = "bob"
      roleMember := fun _ _ => false }
  calls := []

theorem pair_administrator : HasAdministrator pair.stores := ⟨"ada", by decide, by decide⟩

/-- Ada and Bob delete each other. Bob's call comes second and fails, and Ada
enables a new account before hers is through. -/
def crossedDeletions : List Event :=
  [.authorized (.deleteUser "ada" "bob"), .authorized (.deleteUser "bob" "ada"), .advanced 0, .advanced 1,
    .authorized (.createUser "ada" "cleo" true), .advanced 0, .advanced 2, .advanced 0, .advanced 0, .advanced 2, .advanced 0]

theorem administrator_kept_deletion : HasAdministrator (run State.step pair crossedDeletions).stores := by
  refine administrator_kept rfl pair_administrator
    ⟨trivial, trivial, ?_, ?_, trivial, ?_, ?_, ?_, ?_, ?_, ?_, trivial⟩
  case refine_1 | refine_2 =>
    rintro call ⟨⟩ hc
    cases hc
  case refine_4 =>
    -- nobody deletes the account that is enabled
    rintro call ⟨⟩ - ⟨actor, stage, hmem, -⟩
    rcases List.mem_cons.mp hmem with heq | hmem
    · exact absurd (Call.deleteUser.inj (Prod.mk.inj heq).1).2 (by decide)
    · rcases List.mem_cons.mp hmem with heq | hmem
      · exact absurd (Call.deleteUser.inj (Prod.mk.inj heq).1).2 (by decide)
      · cases List.mem_singleton.mp hmem
  all_goals rintro call ⟨⟩

/-- Ada deletes Bob and enables him again. Before his deletion goes on, Bob
deletes Ada. -/
def takeover : List Event :=
  [.authorized (.deleteUser "ada" "bob"), .advanced 0, .authorized (.updateUser "ada" "bob" true), .advanced 1,
    .authorized (.deleteUser "bob" "ada"), .advanced 2, .advanced 0, .advanced 0, .advanced 0]

theorem last_administrator_lost :
    HasAdministrator pair.stores ∧ ¬ HasAdministrator (run State.step pair takeover).stores := by
  refine ⟨pair_administrator, ?_⟩
  rintro ⟨user, ha, hd⟩
  have hd : Function.update pair.stores.administrator "bob" false user = true := hd
  by_cases hb : user = "bob"
  · subst hb
    simp at hd
  · rw [Function.update_of_ne hb] at hd
    obtain rfl | rfl : user = "ada" ∨ user = "bob" := by simpa [pair] using hd
    · exact absurd ha (by decide)
    · exact hb rfl

end Galadril.Iam
