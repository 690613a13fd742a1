import Galadril.Iam.Administrators

namespace Galadril.Iam

open Lib.Checked Lib.Transitions

structure Settled (s : Stores) (user : String) : Prop where
  member : ∀ account, s.users user = some account → s.member user = account.current
  deleted : Removed s user → s.administrator user = false ∧ ∀ role, s.roleMember role user = false
  roles : ∀ role, s.roleMember role user = true → (user, role) ∈ s.assigned ∧ role ∈ s.liveRoles

def Progress (s : Stores) (user : String) : Call → Stage → Prop
  | .createUser _ _ active, .written | .updateUser _ _ active, .written =>
      s.users user = some ⟨active, false⟩ ∧ ∀ role, s.roleMember role user = true → (user, role) ∈ s.assigned ∧ role ∈ s.liveRoles
  | .assignRoleToUser _ _ role, .written => Settled s user ∧ ¬ Removed s user ∧ (user, role) ∈ s.assigned ∧ role ∈ s.liveRoles
  | .deleteUser _ _, .written =>
      s.users user = some ⟨false, false⟩ ∧ ∀ role, s.roleMember role user = true → (user, role) ∈ s.assigned ∧ role ∈ s.liveRoles
  | .deleteUser _ _, .revoking roles =>
      s.users user = some ⟨false, false⟩ ∧ ∀ role, s.roleMember role user = true → role ∈ roles
  | .deleteUser _ _, .demoting =>
      s.users user = some ⟨false, false⟩ ∧ (∀ role, s.roleMember role user = false) ∧ s.member user = false
  | .deleteUser _ _, .removing =>
      s.users user = some ⟨false, false⟩ ∧ (∀ role, s.roleMember role user = false) ∧ s.member user = false ∧
        s.administrator user = false
  | _, _ => False

def Serial (user : String) (s : State) : Event → Prop
  | .advanced i => ∀ call, s.calls[i]? = some (call, .authorized) → call.user = user →
      ∀ c ∈ s.calls, c.1.user = user → c.2.pending = false
  | .authorized _ => True

structure Orderly (user : String) (s : State) : Prop where
  alone : ∀ (i j : Nat) (c d : Call × Stage), s.calls[i]? = some c → s.calls[j]? = some d → c.1.user = user → d.1.user = user →
    c.2.pending = true → d.2.pending = true → i = j
  settled : (∀ c ∈ s.calls, c.1.user = user → c.2.pending = false) → Settled s.stores user
  progress : ∀ c ∈ s.calls, c.1.user = user → c.2.pending = true → Progress s.stores user c.1 c.2

structure SameUser (s s' : Stores) (user : String) : Prop where
  users : s'.users user = s.users user
  member : s'.member user = s.member user
  administrator : s'.administrator user = s.administrator user
  roleMember : ∀ role, s'.roleMember role user = s.roleMember role user
  assigned : ∀ role, (user, role) ∈ s'.assigned ↔ (user, role) ∈ s.assigned
  liveRoles : s'.liveRoles = s.liveRoles

variable {s s' : Stores} {user : String}

theorem SameUser.refl (s : Stores) (user : String) : SameUser s s user :=
  ⟨rfl, rfl, rfl, fun _ => rfl, fun _ => Iff.rfl, rfl⟩

theorem SameUser.settled (h : SameUser s s' user) (hs : Settled s user) : Settled s' user := by
  refine ⟨fun account ha => ?_, fun hr => ?_, fun role hm => ?_⟩
  · rw [h.member]
    exact hs.member account (h.users ▸ ha)
  · rw [h.administrator]
    simp only [h.roleMember]
    exact hs.deleted (by simpa only [Removed, h.users] using hr)
  · rw [h.assigned, h.liveRoles]
    exact hs.roles role (h.roleMember role ▸ hm)

theorem SameUser.progress (h : SameUser s s' user) {call : Call} {stage : Stage} (hp : Progress s user call stage) :
    Progress s' user call stage := by
  have hremoved : Removed s' user ↔ Removed s user := by simp only [Removed, h.users]
  cases call <;> cases stage <;>
    simp only [Progress, h.users, h.member, h.administrator, h.roleMember, h.assigned, h.liveRoles, hremoved] at hp ⊢ <;>
    first
    | exact hp
    | exact ⟨h.settled hp.1, hp.2⟩

theorem sameUser_withUser {other : String} (account : Account) (h : user ≠ other) : SameUser s (s.withUser other account) user :=
  ⟨Function.update_of_ne h _ _, rfl, rfl, fun _ => rfl, fun _ => Iff.rfl, rfl⟩

theorem sameUser_withMember {other : String} (enabled : Bool) (h : user ≠ other) :
    SameUser s (s.withMember other enabled) user :=
  ⟨rfl, Function.update_of_ne h _ _, rfl, fun _ => rfl, fun _ => Iff.rfl, rfl⟩

theorem sameUser_withRole {other : String} (role : String) (enabled : Bool) (h : user ≠ other) :
    SameUser s (s.withRole role other enabled) user :=
  ⟨rfl, rfl, rfl, fun r => by simp [Stores.withRole, h], fun _ => Iff.rfl, rfl⟩

theorem sameUser_write {call : Call} (hne : user ≠ call.user) (h : call.write s = .ok s') : SameUser s s' user := by
  cases call with
  | createUser actor other active =>
      obtain ⟨rfl, -⟩ := setUserGuarded_eq_ok h
      exact sameUser_withUser _ hne
  | updateUser actor other active =>
      obtain ⟨rfl, -⟩ := setUserGuarded_eq_ok h
      exact sameUser_withUser _ hne
  | deleteUser actor other =>
      obtain ⟨rfl, -⟩ := setUserGuarded_eq_ok h
      exact sameUser_withUser _ hne
  | assignRoleToUser actor other role =>
      obtain ⟨-, -, rfl⟩ := assignRole_eq_ok h
      refine ⟨rfl, rfl, rfl, fun _ => rfl, fun r => ?_, rfl⟩
      have hne : ¬ (user = other ∧ r = role) := fun hsame => hne hsame.1
      by_cases hmem : (other, role) ∈ s.assigned <;> simp [hmem, hne]

theorem sameUser_delete {other : String} (hne : user ≠ other) (h : deleteUser s other = .ok s') : SameUser s s' user := by
  obtain rfl := deleteUser_eq_ok h
  refine ⟨Function.update_of_ne hne _ _, rfl, rfl, fun _ => rfl, fun role => ?_, rfl⟩
  simp [hne]

theorem sameUser_advance {call : Call} {stage : Stage} (hne : user ≠ call.user) :
    SameUser s (call.advance s stage).1 user := by
  cases stage with
  | authorized =>
      simp only [Call.advance]
      cases hok : call.write s with
      | ok s' => exact sameUser_write hne hok
      | error e => exact .refl s user
  | written =>
      cases call with
      | createUser | updateUser => exact sameUser_withMember _ hne
      | deleteUser => exact .refl s user
      | assignRoleToUser => exact sameUser_withRole _ _ hne
  | revoking roles =>
      cases roles with
      | nil =>
          cases call with
          | deleteUser => exact sameUser_withMember _ hne
          | createUser | updateUser | assignRoleToUser => exact .refl s user
      | cons role roles =>
          cases call with
          | deleteUser => exact sameUser_withRole _ _ hne
          | createUser | updateUser | assignRoleToUser => exact .refl s user
  | demoting =>
      cases call with
      | deleteUser actor other => exact ⟨rfl, rfl, Function.update_of_ne hne _ _, fun _ => rfl, fun _ => Iff.rfl, rfl⟩
      | createUser | updateUser | assignRoleToUser => exact .refl s user
  | removing =>
      cases call with
      | deleteUser actor other =>
          simp only [Call.advance]
          cases hok : deleteUser s other with
          | ok s' => exact sameUser_delete hne hok
          | error e => exact .refl s user
      | createUser | updateUser | assignRoleToUser => exact .refl s user
  | finished | failed => cases call <;> exact .refl s user

theorem Progress.write (h : Settled s user) {call : Call} (huser : call.user = user) (hok : call.write s = .ok s') :
    Progress s' user call .written := by
  cases call with
  | createUser actor other active =>
      obtain rfl : other = user := huser
      obtain ⟨rfl, -⟩ := setUserGuarded_eq_ok hok
      exact ⟨by simp [Stores.withUser], h.roles⟩
  | updateUser actor other active =>
      obtain rfl : other = user := huser
      obtain ⟨rfl, -⟩ := setUserGuarded_eq_ok hok
      exact ⟨by simp [Stores.withUser], h.roles⟩
  | deleteUser actor other =>
      obtain rfl : other = user := huser
      obtain ⟨rfl, -⟩ := setUserGuarded_eq_ok hok
      exact ⟨by simp [Stores.withUser], h.roles⟩
  | assignRoleToUser actor other role =>
      obtain rfl : other = user := huser
      obtain ⟨hactive, hlive, rfl⟩ := assignRole_eq_ok hok
      have hassigned : ∀ r, (other, r) ∈ s.assigned → (other, r) ∈
          (if (other, role) ∈ s.assigned then s.assigned else (other, role) :: s.assigned) := by
        intro r hr
        split
        · exact hr
        · exact List.mem_cons_of_mem _ hr
      refine ⟨⟨h.member, h.deleted, fun r hr => ⟨hassigned r (h.roles r hr).1, (h.roles r hr).2⟩⟩, ?_, ?_, hlive⟩
      · intro hr
        have hinactive : s.active other = false := hr.inactive
        rw [hactive] at hinactive
        cases hinactive
      · by_cases hmem : (other, role) ∈ s.assigned <;> simp [hmem]

def Reached (s : Stores) (user : String) (call : Call) (stage : Stage) : Prop :=
  if stage.pending = true then Progress s user call stage else Settled s user

theorem roleNamesForUser_mem {role : String} (h : (user, role) ∈ s.assigned) (hlive : role ∈ s.liveRoles) :
    role ∈ roleNamesForUser s user := by
  refine List.mem_filter.mpr ⟨List.mem_map.mpr ⟨(user, role), List.mem_filter.mpr ⟨h, by simp⟩, rfl⟩, ?_⟩
  simpa using hlive

/-- An active flag and the relation that follows from it. -/
theorem settled_withMember {active : Bool} (hrow : s.users user = some ⟨active, false⟩)
    (hroles : ∀ role, s.roleMember role user = true → (user, role) ∈ s.assigned ∧ role ∈ s.liveRoles) :
    Settled (s.withMember user active) user := by
  refine ⟨fun account ha => ?_, fun hr => ?_, hroles⟩
  · obtain rfl := Option.some.inj (hrow.symm.trans ha)
    simp [Stores.withMember, Account.current]
  · obtain ⟨account, ha, hdel⟩ := hr
    obtain rfl := Option.some.inj (hrow.symm.trans ha)
    cases hdel

theorem Reached.deletion {actor : String} {stage : Stage} (h : Progress s user (.deleteUser actor user) stage) :
    Reached (Call.advance s (.deleteUser actor user) stage).1 user (.deleteUser actor user)
      (Call.advance s (.deleteUser actor user) stage).2 := by
  cases stage with
  | authorized | finished | failed => exact h.elim
  | written => exact ⟨h.1, fun role hm => roleNamesForUser_mem (h.2 role hm).1 (h.2 role hm).2⟩
  | revoking roles =>
      obtain ⟨hrow, hroles⟩ := h
      cases roles with
      | nil =>
          refine ⟨hrow, fun role => ?_, by simp [Stores.withMember, Call.advance]⟩
          exact Bool.eq_false_iff.mpr fun hm => absurd (hroles role hm) (by simp)
      | cons first roles =>
          refine ⟨hrow, fun role hm => ?_⟩
          by_cases hfirst : role = first
          · simp [Call.advance, Stores.withRole, hfirst] at hm
          · have hm : s.roleMember role user = true := by simpa [Call.advance, Stores.withRole, hfirst] using hm
            exact (List.mem_cons.mp (hroles role hm)).resolve_left hfirst
  | demoting => exact ⟨h.1, h.2.1, h.2.2, by simp [Call.advance, Stores.withoutAdministrator]⟩
  | removing =>
      obtain ⟨hrow, hroles, hmember, hadmin⟩ := h
      have hok : deleteUser s user = .ok { s.withUser user ⟨false, true⟩ with
          assigned := s.assigned.filter fun row => row.1 != user } := by
        simp [deleteUser, hrow]
      simp only [Call.advance, hok, commit, Reached]
      refine ⟨fun account ha => ?_, fun _ => ⟨hadmin, hroles⟩, fun role hm => ?_⟩
      · obtain rfl : ⟨false, true⟩ = account := by simpa [Stores.withUser] using ha
        exact hmember
      · exact absurd hm (by simp [hroles, Stores.withUser])

theorem Reached.advance {call : Call} {stage : Stage} (huser : call.user = user) (h : Progress s user call stage) :
    Reached (call.advance s stage).1 user call (call.advance s stage).2 := by
  cases call with
  | deleteUser actor other =>
      obtain rfl : other = user := huser
      exact Reached.deletion h
  | createUser actor other active =>
      obtain rfl : other = user := huser
      cases stage with
      | written => exact settled_withMember h.1 h.2
      | authorized | revoking | demoting | removing | finished | failed => exact h.elim
  | updateUser actor other active =>
      obtain rfl : other = user := huser
      cases stage with
      | written => exact settled_withMember h.1 h.2
      | authorized | revoking | demoting | removing | finished | failed => exact h.elim
  | assignRoleToUser actor other role =>
      obtain rfl : other = user := huser
      cases stage with
      | written =>
          obtain ⟨hs, hr, hassigned, hlive⟩ := h
          refine ⟨hs.member, fun hremoved => absurd hremoved hr, fun r hm => ?_⟩
          by_cases hsame : r = role
          · subst hsame
            exact ⟨hassigned, hlive⟩
          · exact hs.roles r (by simpa [Call.advance, Stores.withRole, hsame] using hm)
      | authorized | revoking | demoting | removing | finished | failed => exact h.elim

section Runs

variable {user : String} {s : State} {i : Nat} {call : Call} {stage : Stage}

theorem getElem?_set_cases {α : Type} {xs : List α} {i j : Nat} {x y : α} (h : (xs.set i x)[j]? = some y) :
    (i = j ∧ y = x) ∨ (i ≠ j ∧ xs[j]? = some y) := by
  by_cases hij : i = j
  · subst hij
    have hlt : i < xs.length := by
      by_contra hlt
      rw [List.getElem?_eq_none (by simpa using hlt)] at h
      cases h
    rw [List.getElem?_set_self hlt] at h
    exact .inl ⟨rfl, (Option.some.inj h).symm⟩
  · rw [List.getElem?_set_ne hij] at h
    exact .inr ⟨hij, h⟩

theorem set_of_getElem? {α : Type} {xs : List α} {i : Nat} {x : α} (h : xs[i]? = some x) : xs.set i x = xs := by
  obtain ⟨hlt, rfl⟩ := List.getElem?_eq_some_iff.mp h
  exact List.set_getElem_self hlt

theorem Orderly.other (h : Orderly user s) (hi : s.calls[i]? = some (call, stage)) (hne : user ≠ call.user) :
    Orderly user ⟨(call.advance s.stores stage).1, s.calls.set i (call, (call.advance s.stores stage).2)⟩ := by
  have hsame : SameUser s.stores (call.advance s.stores stage).1 user := sameUser_advance hne
  have hold : ∀ (j : Nat) (d : Call × Stage), (s.calls.set i (call, (call.advance s.stores stage).2))[j]? = some d →
    d.1.user = user →
      s.calls[j]? = some d := by
    intro j d hj hd
    rcases getElem?_set_cases hj with ⟨-, rfl⟩ | ⟨-, hj⟩
    · exact absurd hd.symm hne
    · exact hj
  refine ⟨?_, ?_, ?_⟩
  · intro j k c d hj hk hc hd
    exact h.alone j k c d (hold j c hj hc) (hold k d hk hd) hc hd
  · intro hidle
    refine hsame.settled (h.settled fun c hc hu => ?_)
    rcases mem_set_of_mem (z := (call, (call.advance s.stores stage).2)) hc hi with rfl | hc
    · exact absurd hu.symm hne
    · exact hidle c hc hu
  · intro c hc hu hp
    obtain ⟨j, hj⟩ := List.mem_iff_getElem?.mp hc
    exact hsame.progress (h.progress c (List.mem_of_getElem? (hold j c hj hu)) hu hp)

theorem Orderly.own (hi : s.calls[i]? = some (call, stage)) (huser : call.user = user)
    (honly : ∀ (j : Nat) (d : Call × Stage), i ≠ j → s.calls[j]? = some d → d.1.user = user → d.2.pending = false)
    {stores : Stores} {next : Stage} (hreached : Reached stores user call next) :
    Orderly user ⟨stores, s.calls.set i (call, next)⟩ := by
  have hpending : ∀ (j : Nat) (d : Call × Stage), (s.calls.set i (call, next))[j]? = some d → d.1.user = user → d.2.pending = true →
      i = j ∧ d = (call, next) := by
    intro j d hj hd hp
    rcases getElem?_set_cases hj with hj | ⟨hij, hj⟩
    · exact hj
    · exact absurd hp (by simp [honly j d hij hj hd])
  refine ⟨?_, ?_, ?_⟩
  · intro j k c d hj hk hc hd hpc hpd
    exact (hpending j c hj hc hpc).1.symm.trans (hpending k d hk hd hpd).1
  · intro hidle
    have hlast : next.pending = false := hidle (call, next) (mem_set_self hi) huser
    simpa [Reached, hlast] using hreached
  · intro c hc hu hp
    obtain ⟨j, hj⟩ := List.mem_iff_getElem?.mp hc
    obtain ⟨-, rfl⟩ := hpending j c hj hu hp
    simpa [Reached, hp] using hreached

theorem Orderly.advance (h : Orderly user s) (hi : s.calls[i]? = some (call, stage))
    (hserial : stage = .authorized → call.user = user → ∀ c ∈ s.calls, c.1.user = user → c.2.pending = false) :
    Orderly user ⟨(call.advance s.stores stage).1, s.calls.set i (call, (call.advance s.stores stage).2)⟩ := by
  by_cases huser : user = call.user
  · by_cases hp : stage.pending = true
    · refine Orderly.own hi huser.symm (fun j d hij hj hd => ?_) ?_
      · exact Bool.eq_false_iff.mpr fun hpd => hij (h.alone i j _ d hi hj huser.symm hd hp hpd)
      · exact Reached.advance huser.symm (h.progress _ (List.mem_of_getElem? hi) huser.symm hp)
    · cases stage with
      | written | revoking | demoting | removing => exact absurd rfl hp
      | finished | failed =>
          have hstay := set_of_getElem? hi
          cases call <;> exact (congrArg (Orderly user ⟨s.stores, ·⟩) hstay).mpr h
      | authorized =>
          have hidle := hserial rfl huser.symm
          have hs := h.settled hidle
          refine Orderly.own hi huser.symm (fun j d _ hj hd => hidle d (List.mem_of_getElem? hj) hd) ?_
          simp only [Call.advance]
          cases hok : call.write s.stores with
          | ok stores => exact Progress.write hs huser.symm hok
          | error e => exact hs
  · exact h.other hi huser

theorem Orderly.authorize (h : Orderly user s) (call : Call) : Orderly user (s.step (.authorized call)) := by
  rw [State.step]
  split
  · have hold : ∀ (j : Nat) (d : Call × Stage), (s.calls ++ [(call, Stage.authorized)])[j]? = some d → d.2.pending = true →
        s.calls[j]? = some d := by
      intro j d hj hp
      rw [List.getElem?_append] at hj
      split at hj
      · exact hj
      · obtain rfl := List.mem_singleton.mp (List.mem_of_getElem? hj)
        cases hp
    refine ⟨?_, ?_, ?_⟩
    · intro j k c d hj hk hc hd hpc hpd
      exact h.alone j k c d (hold j c hj hpc) (hold k d hk hpd) hc hd hpc hpd
    · exact fun hidle => h.settled fun c hc => hidle c (List.mem_append_left _ hc)
    · intro c hc hu hp
      obtain ⟨j, hj⟩ := List.mem_iff_getElem?.mp hc
      exact h.progress c (List.mem_of_getElem? (hold j c hj hp)) hu hp
  · exact h

theorem Orderly.step (h : Orderly user s) {e : Event} (hserial : Serial user s e) : Orderly user (s.step e) := by
  cases e with
  | authorized call => exact h.authorize call
  | advanced i =>
      simp only [State.step]
      split
      · next call stage hi =>
          refine h.advance hi ?_
          rintro rfl
          exact hserial call hi
      · exact h

/-- The relations of a user follow the account when its calls come one after
the other. -/
theorem suspension_wins {user : String} {s : State} (hidle : s.calls = []) (hs : Settled s.stores user)
    {events : List Event} (h : Along State.step (Serial user) s events)
    (hdone : ∀ c ∈ (run State.step s events).calls, c.1.user = user → c.2 = .finished) :
    (∀ account, (run State.step s events).stores.users user = some account →
      (run State.step s events).stores.member user = account.current) ∧
    (Removed (run State.step s events).stores user → (run State.step s events).stores.administrator user = false ∧
      ∀ role, (run State.step s events).stores.roleMember role user = false) := by
  have horderly : Orderly user s := ⟨by simp [hidle], fun _ => hs, by simp [hidle]⟩
  have hstep : ∀ s e, Orderly user s → Serial user s e → Orderly user (s.step e) := fun _ _ h hok => h.step hok
  have hend := run_invariant hstep horderly h
  have hsettled := hend.settled fun c hc hu => by rw [hdone c hc hu]; rfl
  exact ⟨hsettled.member, hsettled.deleted⟩

def analysts : State where
  stores :=
    { pair.stores with
      assigned := [("bob", "analyst")]
      liveRoles := ["analyst"]
      roleMember := fun role user => role = "analyst" ∧ user = "bob" }
  calls := []

theorem analysts_settled : Settled analysts.stores "bob" := by
  refine ⟨?_, ?_, ?_⟩
  · rintro account ⟨⟩
    decide
  · rintro ⟨account, ⟨⟩, hdel⟩
    cases hdel
  · intro role hr
    obtain rfl : role = "analyst" := by simpa [analysts] using hr
    decide

/-- Ada enables Bob and suspends him once that call is through. In between she
opens another account. -/
def suspension : List Event :=
  [.authorized (.updateUser "ada" "bob" true), .authorized (.updateUser "ada" "bob" false), .advanced 0,
    .authorized (.createUser "ada" "cleo" true), .advanced 2, .advanced 0, .advanced 1, .advanced 2, .advanced 1]

theorem suspension_wins_update : (run State.step analysts suspension).stores.member "bob" = false := by
  have hserial : Along State.step (Serial "bob") analysts suspension := by
    refine ⟨trivial, trivial, ?_, trivial, ?_, ?_, ?_, ?_, ?_, trivial⟩
    case refine_1 =>
      rintro call ⟨⟩ - c hc -
      rcases List.mem_cons.mp hc with rfl | hc
      · rfl
      · obtain rfl := List.mem_singleton.mp hc
        rfl
    case refine_2 =>
      rintro call ⟨⟩ huser
      exact absurd huser (by decide)
    case refine_4 =>
      -- the first update is through, and the new account is not Bob's
      rintro call ⟨⟩ - c hc huser
      rcases List.mem_cons.mp hc with rfl | hc
      · rfl
      · rcases List.mem_cons.mp hc with rfl | hc
        · rfl
        · obtain rfl := List.mem_singleton.mp hc
          exact absurd huser (by decide)
    all_goals rintro call ⟨⟩
  have hdone : ∀ c ∈ (run State.step analysts suspension).calls, c.1.user = "bob" → c.2 = .finished := by
    intro c hc _
    rcases List.mem_cons.mp hc with rfl | hc
    · rfl
    · rcases List.mem_cons.mp hc with rfl | hc
      · rfl
      · obtain rfl := List.mem_singleton.mp hc
        rfl
  exact (suspension_wins rfl analysts_settled hserial hdone).1 ⟨false, false⟩ (by decide)

/-- Ada suspends Bob while she enables him, and the relation of the earlier
write comes last. -/
def crossing : List Event :=
  [.authorized (.updateUser "ada" "bob" true), .authorized (.updateUser "ada" "bob" false), .advanced 0, .advanced 1,
    .advanced 1, .advanced 0]

/-- Both calls succeed, and the suspended user is a member. -/
theorem suspension_lost :
    (∀ c ∈ (run State.step analysts crossing).calls, c.2 = .finished) ∧
    (run State.step analysts crossing).stores.users "bob" = some ⟨false, false⟩ ∧
    (run State.step analysts crossing).stores.member "bob" = true := by
  refine ⟨?_, by decide, by decide⟩
  intro c hc
  rcases List.mem_cons.mp hc with rfl | hc
  · rfl
  · obtain rfl := List.mem_singleton.mp hc
    rfl

end Runs

end Galadril.Iam
