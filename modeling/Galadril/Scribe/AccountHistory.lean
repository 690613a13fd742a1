import Galadril.Scribe.AccountCalls
import Galadril.Scribe.AccountRows

namespace Galadril.Scribe

open Lib Lib.Checked Lib.Transitions

abbrev Log := List (Nat × Event)

def Began (log : Log) (state owner : String) (registration : Option String) : Prop :=
  ∃ issued time, (issued, .begun owner registration) ∈ log ∧ (time, .launched state issued) ∈ log

def Event.stores (owner id : String) : Event → Bool
  | .published _ o i | .renewed o i | .disconnected o i => o == owner && i == id
  | _ => false

def Event.consumed? : Event → Option String
  | .consumed state => some state
  | _ => none

def issuedAfter (log : Log) (state : String) (time : Nat) : Bool := log.any fun p =>
  match p.2 with
  | .launched s issued => s == state && decide (time < issued)
  | _ => false

/-- A disconnection at the given time was followed by the completion of a
sign-in that was begun after it. -/
def lifted (log : Log) (owner id : String) (time : Nat) : Bool := log.any fun p =>
  match p.2 with
  | .published state o i => o == owner && i == id && issuedAfter log state time
  | _ => false

def inForce (log : Log) (owner id : String) : List Nat :=
  (log.filter fun p => p.2 == .disconnected owner id && !lifted log owner id p.1).map Prod.fst

def Call.lease? : Call → Option String
  | .accessing _ lease | .renewing _ _ lease _ | .ending _ _ _ lease _ _ _ => some lease
  | _ => none

def Call.claim? : Call → Option (String × String × String × Nat)
  | .renewing owner saved lease claimed | .ending owner saved _ lease _ _ claimed => some (owner, saved.id, lease, claimed)
  | _ => none

theorem Call.claim?_lease {c : Call} {owner id lease : String} {claimed : Nat}
    (h : c.claim? = some (owner, id, lease, claimed)) : c.lease? = some lease := by
  cases c <;> simp_all [Call.claim?, Call.lease?]

variable {w w' : Accounts} {k : Nat}

def Call.Traced (db : Database) (log : Log) : Call → Prop
  | .reading owner _ registration issued => (issued, .begun owner (some registration)) ∈ log
  | .reserving owner _ saved issued => (issued, .begun owner (saved.map Registration.id)) ∈ log ∧ Known db owner saved
  | .exchanging state owner clientId pending =>
      Began log state owner (pending.registration.map Registration.id) ∧ Known db owner pending.registration ∧
        ∀ s, pending.registration = some s → clientId = s.clientId
  | .publishing state owner saved registration =>
      Began log state owner (saved.map Registration.id) ∧ Known db owner saved ∧ registration.tokens.isSome = true ∧
        ∀ s, saved = some s →
          registration.id = s.id ∧ registration.clientId = s.clientId ∧ registration.subject = s.subject
  | .ending _ saved registration _ _ _ _ => registration.id = saved.id
  | _ => True

structure PendingRow.Traced (w : Accounts) (p : PendingRow) : Prop where
  drawn : p.state ∈ w.drawn
  unused : ∀ q ∈ w.log, q.2 ≠ .consumed p.state
  began : Began w.log p.state p.owner (p.payload.registration.map Registration.id)
  known : Known w.db p.owner p.payload.registration

structure Sound (w : Accounts) : Prop where
  kept : Kept w.db w.drawn
  pending : ∀ p ∈ w.db.pending.rows, p.Traced w
  calls : ∀ k c, w.calls k = some c → c.Traced w.db w.log
  once : (w.log.filterMap fun p => p.2.consumed?).Nodup
  consumed : ∀ q ∈ w.log, ∀ s, q.2 = .consumed s → s ∈ w.drawn
  disconnected : ∀ q ∈ w.log, ∀ o i, q.2 = .disconnected o i → i ∈ w.drawn
  times : ∀ q ∈ w.log, q.1 < w.steps
  leases : ∀ k c l, w.calls k = some c → c.lease? = some l → l ∈ w.drawn
  distinct : ∀ k k' c c' l, w.calls k = some c → w.calls k' = some c' → c.lease? = some l → c'.lease? = some l → k = k'
  /-- Nothing is stored while a renewal holds its lease. -/
  quiet : ∀ k c owner id lease claimed, w.calls k = some c → c.claim? = some (owner, id, lease, claimed) →
    ∀ row, w.db.accounts.find (owner, id) = some row → row.lease = some lease →
      ∀ q ∈ w.log, q.2.stores owner id = true → q.1 < claimed

theorem Began.mono {log log' : Log} {state owner : String} {registration : Option String} (h : Began log state owner registration)
    (hlog : log ⊆ log') : Began log' state owner registration := by
  obtain ⟨issued, time, hbegun, hlaunched⟩ := h
  exact ⟨issued, time, hlog hbegun, hlog hlaunched⟩

theorem Call.Traced.mono {db db' : Database} {log log' : Log} {c : Call} (h : c.Traced db log) (hdb : Keeps db db')
    (hlog : log ⊆ log') : c.Traced db' log' := by
  cases c with
  | reading => exact hlog h
  | reserving => exact ⟨hlog h.1, h.2.mono hdb⟩
  | exchanging => exact ⟨h.1.mono hlog, h.2.1.mono hdb, h.2.2⟩
  | publishing => exact ⟨h.1.mono hlog, h.2.1.mono hdb, h.2.2⟩
  | accessing | renewing => trivial
  | ending => exact h

structure Records (w w' : Accounts) (e : Event) : Prop where
  log : w'.log = (w.steps, e) :: w.log
  consumed : ∀ s, e = .consumed s →
    s ∈ w'.drawn ∧ (∀ q ∈ w.log, q.2 ≠ .consumed s) ∧ ∀ p ∈ w'.db.pending.rows, p.state ≠ s
  disconnected : ∀ o i, e = .disconnected o i → i ∈ w'.drawn
  stores : ∀ o i, e.stores o i = true → ∀ row, w'.db.accounts.find (o, i) = some row → row.lease = none

/-- What becomes of a call: it holds no lease, goes on with its lease, draws a
new one or makes its claim. -/
inductive Passes (w w' : Accounts) (k : Nat) (c : Call) : Prop
  | idle : c.lease? = none → Passes w w' k c
  | goesOn {old : Call} : w.calls k = some old → old.lease? = c.lease? → old.claim? = c.claim? → Passes w w' k c
  | draws {lease : String} : c.lease? = some lease → lease ∉ w.drawn → lease ∈ w'.drawn → c.claim? = none → Passes w w' k c
  | claims {old : Call} {owner id lease : String} : w.calls k = some old → old.lease? = c.lease? →
      c.claim? = some (owner, id, lease, w.steps) → Passes w w' k c

/-- What one step does to an installation, as far as the invariants go. -/
structure Advances (w w' : Accounts) (k : Nat) : Prop where
  kept : Kept w'.db w'.drawn
  keeps : Keeps w.db w'.db
  pending : ∀ p ∈ w'.db.pending.rows, p ∈ w.db.pending.rows ∨ p.Traced w'
  drawn : w.drawn ⊆ w'.drawn
  log : w'.log = w.log ∨ ∃ e, Records w w' e
  steps : w'.steps = w.steps
  calls : ∀ j c, w'.calls j = some c → w.calls j = some c ∨ j = k ∧ c.Traced w'.db w'.log ∧ Passes w w' k c
  leases : ∀ key row, w'.db.accounts.find key = some row → row.lease = none ∨
    (∃ old, w.db.accounts.find key = some old ∧ old.lease = row.lease) ∨
    ∃ c owner id lease, w'.calls k = some c ∧ c.claim? = some (owner, id, lease, w.steps) ∧ row.lease = some lease

theorem Advances.subset (h : Advances w w' k) : w.log ⊆ w'.log := by
  rcases h.log with heq | ⟨e, he⟩
  · rw [heq]
    exact List.Subset.refl _
  · rw [he.log]
    exact List.subset_cons_self _ _

theorem Advances.mem_log (h : Advances w w' k) {q : Nat × Event} (hq : q ∈ w'.log) :
    q ∈ w.log ∨ q.1 = w.steps ∧ Records w w' q.2 := by
  rcases h.log with heq | ⟨e, he⟩
  · exact .inl (heq ▸ hq)
  · rw [he.log] at hq
    rcases List.mem_cons.mp hq with rfl | hq
    · exact .inr ⟨rfl, he⟩
    · exact .inl hq

theorem Advances.distinct (h : Sound w) (ha : Advances w w' k) {j j' : Nat} {c c' : Call} {l : String}
    (hc : w'.calls j = some c) (hc' : w'.calls j' = some c') (hl : c.lease? = some l) (hl' : c'.lease? = some l) : j = j' := by
  have hmoved : ∀ {j j' : Nat} {c c' : Call}, w.calls j = some c → c.lease? = some l → c'.lease? = some l →
      Passes w w' j' c' → j = j' := by
    intro j j' c c' hc hl hl' hp
    cases hp with
    | idle hidle => simp [hidle] at hl'
    | goesOn hold hlease _ => exact h.distinct _ _ _ _ l hc hold hl (hlease.trans hl')
    | draws hdrawn hnew _ _ =>
        obtain rfl := Option.some.inj (hdrawn.symm.trans hl')
        exact absurd (h.leases _ _ _ hc hl) hnew
    | claims hold hlease _ => exact h.distinct _ _ _ _ l hc hold hl (hlease.trans hl')
  rcases ha.calls _ _ hc with hold | ⟨rfl, -, hp⟩
  · rcases ha.calls _ _ hc' with hold' | ⟨rfl, -, hp'⟩
    · exact h.distinct _ _ _ _ l hold hold' hl hl'
    · exact hmoved hold hl hl' hp'
  · rcases ha.calls _ _ hc' with hold' | ⟨rfl, -, -⟩
    · exact (hmoved hold' hl' hl hp).symm
    · rfl

theorem Advances.claim_cases (ha : Advances w w' k) {j : Nat} {c : Call} {owner id lease : String} {claimed : Nat}
    (hc : w'.calls j = some c) (hclaim : c.claim? = some (owner, id, lease, claimed)) :
    claimed = w.steps ∨ ∃ old, w.calls j = some old ∧ old.claim? = some (owner, id, lease, claimed) := by
  rcases ha.calls _ _ hc with hold | ⟨rfl, -, hp⟩
  · exact .inr ⟨c, hold, hclaim⟩
  · cases hp with
    | idle hidle => simp [Call.claim?_lease hclaim] at hidle
    | goesOn hold _ hsame => exact .inr ⟨_, hold, hsame.trans hclaim⟩
    | draws _ _ _ hnone => simp [hnone] at hclaim
    | claims _ _ hmade => exact .inl (by simp_all)

theorem Sound.advance (h : Sound w) (ha : Advances w w' k) : Sound w'.tick where
  kept := ha.kept
  pending := by
    intro p hp
    rcases ha.pending p hp with hold | hnew
    · have hwas := h.pending p hold
      refine ⟨ha.drawn hwas.drawn, fun q hq hconsumed => ?_, hwas.began.mono ha.subset, hwas.known.mono ha.keeps⟩
      rcases ha.mem_log hq with hq | ⟨-, hr⟩
      · exact hwas.unused q hq hconsumed
      · exact (hr.consumed _ hconsumed).2.2 p hp rfl
    · exact ⟨hnew.drawn, hnew.unused, hnew.began, hnew.known⟩
  calls := by
    intro j c hc
    rcases ha.calls _ _ hc with hold | ⟨-, htraced, -⟩
    · exact (h.calls j c hold).mono ha.keeps ha.subset
    · exact htraced
  once := by
    change (w'.log.filterMap fun p => p.2.consumed?).Nodup
    rcases ha.log with heq | ⟨e, he⟩
    · rw [heq]
      exact h.once
    · rw [he.log]
      cases hs : e.consumed? with
      | none => simpa [List.filterMap_cons, hs] using h.once
      | some s =>
          obtain rfl : e = .consumed s := by cases e <;> simp_all [Event.consumed?]
          simp only [List.filterMap_cons, Event.consumed?, List.nodup_cons]
          refine ⟨fun hmem => ?_, h.once⟩
          obtain ⟨q, hq, hqs⟩ := List.mem_filterMap.mp hmem
          refine (he.consumed s rfl).2.1 q hq ?_
          cases hq2 : q.2 <;> simp_all [Event.consumed?]
  consumed := by
    intro q hq s hs
    rcases ha.mem_log hq with hq | ⟨-, hr⟩
    · exact ha.drawn (h.consumed q hq s hs)
    · exact (hr.consumed s hs).1
  disconnected := by
    intro q hq o i hs
    rcases ha.mem_log hq with hq | ⟨-, hr⟩
    · exact ha.drawn (h.disconnected q hq o i hs)
    · exact hr.disconnected o i hs
  times := by
    intro q hq
    rw [Accounts.tick, ha.steps]
    rcases ha.mem_log hq with hq | ⟨htime, -⟩
    · exact (h.times q hq).trans (Nat.lt_succ_self _)
    · exact htime ▸ Nat.lt_succ_self _
  leases := by
    intro j c l hc hl
    rcases ha.calls _ _ hc with hold | ⟨-, -, hp⟩
    · exact ha.drawn (h.leases j c l hold hl)
    · cases hp with
      | idle hidle => simp [hidle] at hl
      | goesOn hold hlease _ => exact ha.drawn (h.leases _ _ l hold (hlease.trans hl))
      | draws hdrawn _ hnew _ => exact Option.some.inj (hdrawn.symm.trans hl) ▸ hnew
      | claims hold hlease _ => exact ha.drawn (h.leases _ _ l hold (hlease.trans hl))
  distinct := fun _ _ _ _ _ hc hc' hl hl' => ha.distinct h hc hc' hl hl'
  quiet := by
    intro j c owner id lease claimed hc hclaim row hrow hlease q hq hstores
    have hq : q ∈ w.log := by
      rcases ha.mem_log hq with hq | ⟨-, hr⟩
      · exact hq
      · rw [hr.stores owner id hstores row hrow] at hlease
        cases hlease
    rcases ha.leases _ row hrow with hnone | ⟨old, hold, hsame⟩ | ⟨c', owner', id', lease', hc', hclaim', hlease'⟩
    · rw [hnone] at hlease
      cases hlease
    · rcases ha.claim_cases hc hclaim with rfl | ⟨oldCall, hcall, holdClaim⟩
      · exact h.times q hq
      · exact h.quiet j oldCall owner id lease claimed hcall holdClaim old hold (hsame.trans hlease) q hq hstores
    · -- the lease was just set, so that this is the call that set it
      obtain rfl := Option.some.inj (hlease.symm.trans hlease')
      obtain rfl := ha.distinct h hc hc' (Call.claim?_lease hclaim) (Call.claim?_lease hclaim')
      obtain rfl := Option.some.inj (hc.symm.trans hc')
      obtain rfl : claimed = w.steps := by simp_all
      exact h.times q hq

variable {loopback : String → Bool}

theorem start_sound (now : Int) : Sound (.start now) where
  kept := kept_empty
  pending := fun p hp => by cases hp
  calls := fun k c hc => by cases hc
  once := List.nodup_nil
  consumed := fun q hq => by cases hq
  disconnected := fun q hq => by cases hq
  times := fun q hq => by cases hq
  leases := fun k c l hc => by cases hc
  distinct := fun k k' c c' l hc => by cases hc
  quiet := fun k c owner id lease claimed hc => by cases hc

theorem Keeps.refl (db : Database) : Keeps db db := .of_accounts rfl

theorem advances_call (h : Sound w) (hdb : w'.db = w.db) (hlog : w'.log = w.log) (hdrawn : w.drawn ⊆ w'.drawn)
    (hsteps : w'.steps = w.steps) (c : Option Call) (hcalls : w'.calls = Function.update w.calls k c)
    (hc : ∀ c', c = some c' → c'.Traced w.db w.log ∧ Passes w w' k c') : Advances w w' k where
  kept := h.kept.of_accounts (by rw [hdb]) hdrawn
  keeps := .of_accounts (by rw [hdb])
  pending := fun p hp => .inl (hdb ▸ hp)
  drawn := hdrawn
  log := .inl hlog
  steps := hsteps
  calls := by
    intro j c' hj
    rw [hcalls, Function.update_apply] at hj
    split at hj
    · next hjk =>
        rw [hdb, hlog]
        exact .inr ⟨hjk, hc c' hj⟩
    · exact .inl hj
  leases := fun key row hrow => .inr (.inl ⟨row, hdb ▸ hrow, rfl⟩)

theorem advances_ends (h : Sound w) (hdb : w'.db = w.db) (hlog : w'.log = w.log) (hdrawn : w.drawn ⊆ w'.drawn)
    (hsteps : w'.steps = w.steps) (hcalls : w'.calls = Function.update w.calls k none) : Advances w w' k :=
  advances_call h hdb hlog hdrawn hsteps none hcalls fun c' hc' => by cases hc'

/-- A step that works on the database and at most ends a call. -/
theorem advances_database (hkept : Kept w'.db w'.drawn) (hkeeps : Keeps w.db w'.db)
    (hpending : ∀ p ∈ w'.db.pending.rows, p ∈ w.db.pending.rows ∨ p.Traced w') (hdrawn : w.drawn ⊆ w'.drawn)
    (hlog : w'.log = w.log ∨ ∃ e, Records w w' e) (hsteps : w'.steps = w.steps)
    (hcalls : w'.calls = w.calls ∨ w'.calls = Function.update w.calls k none)
    (hleases : ∀ key row, w'.db.accounts.find key = some row → row.lease = none ∨
      ∃ old, w.db.accounts.find key = some old ∧ old.lease = row.lease) : Advances w w' k where
  kept := hkept
  keeps := hkeeps
  pending := hpending
  drawn := hdrawn
  log := hlog
  steps := hsteps
  calls := by
    intro j c hj
    rcases hcalls with heq | heq
    · exact .inl (heq ▸ hj)
    · rw [heq, Function.update_apply] at hj
      split at hj
      · cases hj
      · exact .inl hj
  leases := fun key row hrow => (hleases key row hrow).imp_right .inl

theorem advances_still (h : Sound w) : Advances w w k :=
  advances_database h.kept (.refl _) (fun _ hp => .inl hp) (List.Subset.refl _) (.inl rfl) rfl (.inl rfl)
    fun _ row hrow => .inr ⟨row, hrow, rfl⟩

theorem advances_begin (h : Sound w) (owner redirect : String) (registration : Option String) :
    ∃ j, Advances w (begin loopback w k owner redirect registration) j := by
  unfold begin
  split
  · refine ⟨k, ?_⟩
    refine {
      kept := h.kept.of_accounts rfl (List.Subset.refl _)
      keeps := .refl _
      pending := fun _ hp => .inl hp
      drawn := List.Subset.refl _
      log := .inr ⟨.begun owner registration, rfl, nofun, nofun, nofun⟩
      steps := rfl
      calls := fun j c hj => ?_
      leases := fun key row hrow => .inr (.inl ⟨row, hrow, rfl⟩) }
    simp only [Accounts.set, Accounts.record, Function.update_apply] at hj
    split at hj
    · next hjk =>
        right
        obtain rfl := Option.some.inj hj
        cases registration with
        | none => exact ⟨hjk, ⟨List.mem_cons_self, nofun⟩, .idle rfl⟩
        | some registration => exact ⟨hjk, List.mem_cons_self, .idle rfl⟩
    · exact .inl hj
  · exact ⟨k, advances_still h⟩

theorem known_saved (h : Sound w) {owner registration : String} {saved : Registration}
    (hsaved : (w.db.registrations owner).find? (·.id == registration) = some saved) :
    saved.id = registration ∧ Known w.db owner (some saved) := by
  have hid : saved.id = registration := by simpa using List.find?_some hsaved
  refine ⟨hid, fun s hs => ?_⟩
  obtain rfl := Option.some.inj hs
  obtain ⟨row, hrow, rfl⟩ := List.mem_map.mp (List.mem_of_find?_eq_some hsaved)
  obtain ⟨hmem, howner⟩ := List.mem_filter.mp hrow
  rw [beq_iff_eq] at howner
  refine ⟨row, Table.find_eq_some.mpr ⟨hmem, ?_⟩, rfl, rfl⟩
  rw [(h.kept.named row hmem).1, ← howner]

theorem advances_read (h : Sound w) {owner redirect registration : String} {issued : Nat}
    (hc : w.calls k = some (.reading owner redirect registration issued)) :
    Advances w (readSaved w k owner redirect registration issued) k := by
  unfold readSaved
  split
  · next saved hsaved =>
      obtain ⟨hid, hknown⟩ := known_saved h hsaved
      refine advances_call h rfl rfl (List.Subset.refl _) rfl _ rfl fun c' hc' => ?_
      obtain rfl := Option.some.inj hc'
      have hbegun := h.calls k _ hc
      rw [← hid] at hbegun
      exact ⟨⟨hbegun, hknown⟩, .idle rfl⟩
  · exact advances_ends h rfl rfl (List.Subset.refl _) rfl rfl

theorem advances_reserve (h : Sound w) {owner redirect : String} {saved : Option Registration} {issued : Nat}
    (hc : w.calls k = some (.reserving owner redirect saved issued)) (verifier nonce : String) {state : String}
    (hfresh : hashOf state ∉ w.drawn) :
    Advances w (reserved w k owner redirect saved issued verifier state nonce) k := by
  have hdrawn : w.drawn ⊆ hashOf state :: w.drawn := List.subset_cons_self _ _
  unfold reserved
  dsimp only
  split
  · next db hok =>
      obtain ⟨-, haccounts, hpending⟩ := reserve_eq_ok hok
      obtain ⟨hbegun, hknown⟩ := h.calls k _ hc
      have hkeeps : Keeps w.db db := .of_accounts haccounts
      refine advances_database (h.kept.of_accounts haccounts hdrawn) hkeeps (fun p hp => ?_) hdrawn
        (.inr ⟨.launched (hashOf state) issued, rfl, nofun, nofun, nofun⟩) rfl (.inr rfl) fun key row hrow => ?_
      · refine (hpending p hp).imp_right ?_
        rintro rfl
        refine ⟨List.mem_cons_self, fun q hq hconsumed => ?_, ?_, hknown.mono hkeeps⟩
        · rcases List.mem_cons.mp hq with rfl | hq
          · cases hconsumed
          · exact hfresh (h.consumed q hq _ hconsumed)
        · exact ⟨issued, w.steps, List.mem_cons_of_mem _ hbegun, List.mem_cons_self⟩
      · have hsame : db.accounts.find key = w.db.accounts.find key := by rw [haccounts]
        exact .inr ⟨row, hsame ▸ hrow, rfl⟩
  · exact advances_ends h rfl rfl hdrawn rfl rfl

theorem granted_eq_some {pending : Pending} {code clientId error : Option String} {issued : String}
    (h : granted pending code clientId error = some issued) : ∀ s, pending.registration = some s → issued = s.clientId := by
  intro s hs
  simp only [granted] at h
  split at h
  · next hvalid =>
      obtain rfl := Option.some.inj h
      simp only [hs, Option.all_some, Bool.and_eq_true, beq_iff_eq] at hvalid
      simpa [hs] using hvalid.2
  · cases h

theorem advances_consume (h : Sound w) (state : String) (code clientId error : Option String) :
    Advances w (consumed w k state code clientId error) k := by
  unfold consumed
  split
  · have hpending : ∀ p ∈ (consume w.db w.now (hashOf state)).1.pending.rows,
        p ∈ w.db.pending.rows ∧ p.state ≠ hashOf state := fun p hp => mem_consume.mp hp
    dsimp only
    split
    · exact advances_database (h.kept.of_accounts rfl (List.Subset.refl _)) (.of_accounts rfl) (fun p hp => .inl (hpending p hp).1)
        (List.Subset.refl _) (.inl rfl) rfl (.inl rfl) fun key row hrow => .inr ⟨row, hrow, rfl⟩
    · next row hrow =>
        obtain ⟨hmem, hstate⟩ := consume_row hrow
        have htraced := h.pending row hmem
        refine {
          kept := h.kept.of_accounts rfl (List.Subset.refl _)
          keeps := .of_accounts rfl
          pending := fun p hp => .inl (hpending p hp).1
          drawn := List.Subset.refl _
          log := .inr ⟨.consumed (hashOf state), rfl, ?_, nofun, nofun⟩
          steps := rfl
          calls := fun j c hj => ?_
          leases := fun key row hrow => .inr (.inl ⟨row, hrow, rfl⟩) }
        · rintro _ ⟨⟩
          exact ⟨hstate ▸ htraced.drawn, hstate ▸ htraced.unused, fun p hp => (hpending p hp).2⟩
        · simp only [Accounts.set, Accounts.record, Function.update_apply] at hj
          split at hj
          · next hjk =>
              obtain ⟨issued, hissued, rfl⟩ := Option.map_eq_some_iff.mp hj
              have hbegan := htraced.began.mono (List.subset_cons_self (w.steps, .consumed (hashOf state)) w.log)
              rw [hstate] at hbegan
              exact .inr ⟨hjk, ⟨hbegan, htraced.known, granted_eq_some hissued⟩, .idle rfl⟩
          · exact .inl hj
  · exact advances_still h

theorem connected_eq_some {now : Int} {clientId : String} {pending : Pending} {response : TokenResponse}
    {identity : Option Identity} {registration : Registration}
    (h : connected now clientId pending response identity = some registration) : registration.tokens.isSome = true ∧
      ∀ s, pending.registration = some s → registration.id = s.id ∧ registration.clientId = clientId ∧
        registration.subject = s.subject := by
  simp only [connected, Option.bind_eq_bind, Option.bind_eq_some_iff] at h
  obtain ⟨tokens, -, _, -, claims, -, h⟩ := h
  split at h
  · next hsame =>
      obtain rfl := Option.some.inj h
      refine ⟨rfl, fun s hs => ?_⟩
      simp only [hs, Option.all_some, Bool.and_eq_true, beq_iff_eq] at hsame
      exact ⟨by simp [hs], rfl, hsame.2⟩
  · cases h

theorem advances_exchange (h : Sound w) {state owner clientId : String} {pending : Pending} (response : TokenResponse)
    (identity : Option Identity) (hc : w.calls k = some (.exchanging state owner clientId pending)) :
    Advances w (exchanged w k state owner clientId pending response identity) k := by
  obtain ⟨hbegan, hknown, hclient⟩ := h.calls k _ hc
  refine advances_call h rfl rfl (List.Subset.refl _) rfl _ rfl fun c' hc' => ?_
  obtain ⟨registration, hconnected, rfl⟩ := Option.map_eq_some_iff.mp hc'
  obtain ⟨htokens, hsame⟩ := connected_eq_some hconnected
  refine ⟨⟨hbegan, hknown, htokens, fun s hs => ?_⟩, .idle rfl⟩
  obtain ⟨hid, hissued, hsubject⟩ := hsame s hs
  exact ⟨hid, hissued.trans (hclient s hs), hsubject⟩

theorem named_publishable (h : Sound w) {state owner id : String} {saved : Option Registration} {registration : Registration}
    (hc : w.calls k = some (.publishing state owner saved registration)) (hfresh : id ∉ w.drawn) :
    Publishable w.db w.drawn owner saved (named saved registration id) := by
  obtain ⟨-, hknown, -, hrenews⟩ := h.calls k _ hc
  refine ⟨hknown, fun s hs => ?_, fun hs => ?_⟩
  · simpa [named, hs] using hrenews s hs
  · simpa [named, hs] using hfresh

theorem advances_publish (h : Sound w) {state owner id : String} {saved : Option Registration} {registration : Registration}
    (hc : w.calls k = some (.publishing state owner saved registration)) (hfresh : id ∉ w.drawn) :
    Advances w (published w k state owner saved registration id) k := by
  have hdrawn : w.drawn ⊆ id :: w.drawn := List.subset_cons_self _ _
  have hp := named_publishable h hc hfresh
  have hid : saved = none → (named saved registration id).id ∈ id :: w.drawn := by
    rintro rfl
    exact List.mem_cons_self
  unfold published
  dsimp only
  generalize hnamed : named saved registration id = new at hp hid
  split
  · next db hok =>
      obtain ⟨-, hpending, hfind⟩ := publish_eq_ok hok
      refine advances_database (h.kept.publish hp hdrawn hid hok) (.publish h.kept hp hok) (fun p hp => .inl (hpending ▸ hp)) hdrawn
        (.inr ⟨.published state owner new.id, rfl, nofun, nofun, fun o i hstores row hrow => ?_⟩) rfl (.inr rfl)
        fun key row hrow => ?_
      · simp only [Event.stores, Bool.and_eq_true, beq_iff_eq] at hstores
        obtain ⟨rfl, rfl⟩ := hstores
        have hnew := hfind (owner, new.id)
        rw [if_pos rfl] at hnew
        obtain rfl := Option.some.inj (hnew.symm.trans hrow)
        rfl
      · have hfound := hfind key
        split at hfound
        · obtain rfl := Option.some.inj (hfound.symm.trans hrow)
          exact .inl rfl
        · obtain ⟨old, hold, rfl⟩ := Option.map_eq_some_iff.mp (hfound.symm.trans hrow)
          refine .inr ⟨old, hold, ?_⟩
          split <;> rfl
  · exact advances_ends h rfl rfl hdrawn rfl rfl

theorem advances_access (h : Sound w) {owner lease : String} (hfresh : lease ∉ w.drawn) :
    Advances w (access w k owner lease) k := by
  unfold access
  split
  · refine advances_call h rfl rfl (List.subset_cons_self _ _) rfl _ rfl fun c' hc' => ?_
    obtain rfl := Option.some.inj hc'
    exact ⟨trivial, .draws rfl hfresh List.mem_cons_self rfl⟩
  · exact advances_still h

theorem advances_claim (h : Sound w) {owner lease : String} (hc : w.calls k = some (.accessing owner lease)) :
    Advances w (claimed w k owner lease) k := by
  unfold claimed
  split
  · exact advances_ends h rfl rfl (List.Subset.refl _) rfl rfl
  · exact advances_still h
  · exact advances_ends h rfl rfl (List.Subset.refl _) rfl rfl
  · next db saved hok =>
      obtain ⟨r, hr, howner, hpayload, -, hpending, hfind⟩ := claim_eq_renewal hok
      have hid : saved.id = r.id := hpayload ▸ (h.kept.named r hr).1
      have hrow : w.db.accounts.find (owner, saved.id) = some r := Table.find_eq_some.mpr ⟨hr, Prod.ext howner hid.symm⟩
      simp only [hrow, Option.map_some] at hfind
      have hcall : ∀ c : Call, c.lease? = some lease → c.claim? = some (owner, saved.id, lease, w.steps) →
          c.Traced db w.log → Advances w ({ w with db }.set k (some c)) k := by
        intro c hlease hclaim htraced
        refine {
          kept := h.kept.replace hrow hfind rfl rfl
          keeps := .replace hrow hfind rfl rfl
          pending := fun p hp => .inl (hpending ▸ hp)
          drawn := List.Subset.refl _
          log := .inl rfl
          steps := rfl
          calls := fun j c' hj => ?_
          leases := fun key row hkey => ?_ }
        · simp only [Accounts.set, Function.update_apply] at hj
          split at hj
          · next hjk =>
              obtain rfl := Option.some.inj hj
              exact .inr ⟨hjk, htraced, .claims hc hlease.symm hclaim⟩
          · exact .inl hj
        · have hfound := hfind key
          split at hfound
          · obtain rfl := Option.some.inj (hfound.symm.trans hkey)
            refine .inr (.inr ⟨c, owner, saved.id, lease, ?_, hclaim, rfl⟩)
            simp [Accounts.set]
          · exact .inr (.inl ⟨row, hfound.symm.trans hkey, rfl⟩)
      split
      · exact hcall _ rfl rfl trivial
      · exact hcall _ rfl rfl rfl
  · exact advances_ends h rfl rfl (List.Subset.refl _) rfl rfl

theorem renewal_spec (now : Int) (owner : String) (saved : Registration) (lease : String) (claimedAt : Nat) (answer : Answer) :
    ∃ registration clear retry, renewal now owner saved lease claimedAt answer =
      .ending owner saved registration lease clear retry claimedAt ∧ registration.id = saved.id := by
  unfold renewal
  repeat' split
  all_goals exact ⟨_, _, _, rfl, rfl⟩

theorem advances_renewal (h : Sound w) {owner lease : String} {saved : Registration} {claimedAt : Nat} (answer : Answer)
    (hc : w.calls k = some (.renewing owner saved lease claimedAt)) :
    Advances w (w.set k (some (renewal w.now owner saved lease claimedAt answer))) k := by
  obtain ⟨registration, clear, retry, hrenewal, hid⟩ := renewal_spec w.now owner saved lease claimedAt answer
  rw [hrenewal]
  refine advances_call h rfl rfl (List.Subset.refl _) rfl _ rfl fun c' hc' => ?_
  obtain rfl := Option.some.inj hc'
  exact ⟨hid, .goesOn hc rfl rfl⟩

theorem advances_end (h : Sound w) {owner lease : String} {saved registration : Registration} {clear retry : Bool}
    {claimedAt : Nat} (stored : Bool)
    (hc : w.calls k = some (.ending owner saved registration lease clear retry claimedAt)) :
    Advances w (ended w k owner saved registration lease clear retry claimedAt stored) k := by
  unfold ended
  split
  · next db hok =>
      obtain ⟨row, hrow, hpending, hfind⟩ := finish_eq_ok hok
      obtain ⟨hrow, -⟩ := leased_eq_some.mp hrow
      refine advances_database (h.kept.replace hrow hfind rfl rfl) (.replace hrow hfind rfl rfl) (fun p hp => .inl (hpending ▸ hp))
        (List.Subset.refl _) (.inr ⟨.renewed owner registration.id, rfl, nofun, nofun, fun o i hstores row' hrow' => ?_⟩) rfl
        (.inr rfl) fun key row' hrow' => ?_
      · simp only [Event.stores, Bool.and_eq_true, beq_iff_eq] at hstores
        obtain ⟨rfl, rfl⟩ := hstores
        have hnew := hfind (owner, registration.id)
        rw [if_pos rfl] at hnew
        obtain rfl := Option.some.inj (hnew.symm.trans hrow')
        rfl
      · have hfound := hfind key
        split at hfound
        · obtain rfl := Option.some.inj (hfound.symm.trans hrow')
          exact .inl rfl
        · exact .inr ⟨row', hfound.symm.trans hrow', rfl⟩
  · refine advances_call h rfl rfl (List.Subset.refl _) rfl _ rfl fun c' hc' => ?_
    split at hc'
    · obtain rfl := Option.some.inj hc'
      exact ⟨rfl, .goesOn hc rfl rfl⟩
    · cases hc'

theorem advances_select (h : Sound w) (owner id : String) : Advances w (select w owner id) k := by
  unfold select
  split
  · next db hok =>
      obtain ⟨hpending, hfind⟩ := choose_eq_ok hok
      obtain ⟨hkept, hkeeps⟩ := h.kept.choose hok
      refine advances_database hkept hkeeps (fun p hp => .inl (hpending ▸ hp)) (List.Subset.refl _) (.inl rfl) rfl (.inl rfl)
        fun key row hrow => ?_
      obtain ⟨old, hold, rfl⟩ := Option.map_eq_some_iff.mp ((hfind key).symm.trans hrow)
      refine .inr ⟨old, hold, ?_⟩
      split <;> rfl
  · exact advances_still h

theorem advances_disconnect (h : Sound w) (owner id : String) : Advances w (disconnect w owner id) k := by
  unfold disconnect
  split
  · next db hok =>
      obtain ⟨row, hrow, hpending, hfind⟩ := remove_eq_ok hok
      have hmem := Table.find_eq_some.mp hrow
      have hid : row.id = id := congrArg Prod.snd hmem.2
      refine advances_database (h.kept.replace hrow hfind rfl rfl) (.replace hrow hfind rfl rfl)
        (fun p hp => .inl (hpending p hp).1)
        (List.Subset.refl _) (.inr ⟨.disconnected owner id, rfl, nofun, ?_, fun o i hstores row' hrow' => ?_⟩) rfl
        (.inl rfl) fun key row' hrow' => ?_
      · rintro _ _ ⟨⟩
        exact hid ▸ (h.kept.named row hmem.1).2
      · simp only [Event.stores, Bool.and_eq_true, beq_iff_eq] at hstores
        obtain ⟨rfl, rfl⟩ := hstores
        have hnew := hfind (owner, id)
        rw [if_pos rfl] at hnew
        obtain rfl := Option.some.inj (hnew.symm.trans hrow')
        rfl
      · have hfound := hfind key
        split at hfound
        · obtain rfl := Option.some.inj (hfound.symm.trans hrow')
          exact .inl rfl
        · exact .inr ⟨row', hfound.symm.trans hrow', rfl⟩
  · exact advances_still h

theorem advances_update (h : Sound w) (owner id : String) (change : Change) : Advances w (updated w owner id change) k := by
  unfold updated
  split
  · next db hok =>
      obtain ⟨row, hrow, hpending, hfind⟩ := update_eq_ok hok
      have hkeeps : (change.apply row.payload).id = row.payload.id ∧ (change.apply row.payload).clientId = row.payload.clientId ∧
          (change.apply row.payload).subject = row.payload.subject := by
        cases change <;> exact ⟨rfl, rfl, rfl⟩
      refine advances_database (h.kept.replace hrow hfind rfl hkeeps.1) (.replace hrow hfind hkeeps.2.1 hkeeps.2.2)
        (fun p hp => .inl (hpending ▸ hp)) (List.Subset.refl _) (.inl rfl) rfl (.inl rfl) fun key row' hrow' => ?_
      have hfound := hfind key
      split at hfound
      · next hkey =>
          obtain rfl := Option.some.inj (hfound.symm.trans hrow')
          exact .inr ⟨row, hkey ▸ hrow, rfl⟩
      · exact .inr ⟨row', hfound.symm.trans hrow', rfl⟩
  · exact advances_still h

/-- The random value that a step draws. A state value is kept as its digest. -/
def Step.draws : Step → Option String
  | .reserves _ _ state _ => some (hashOf state)
  | .publishes _ id => some id
  | .accesses _ _ lease => some lease
  | _ => none

def Fresh (w : Accounts) (e : Step) : Prop := ∀ v ∈ e.draws, v ∉ w.drawn

instance (w : Accounts) (e : Step) : Decidable (Fresh w e) := inferInstanceAs (Decidable (∀ v ∈ e.draws, v ∉ w.drawn))

theorem perform_advances (h : Sound w) {e : Step} (hf : Fresh w e) : ∃ k, Advances w (perform loopback w e) k := by
  cases e with
  | wait seconds =>
      exact ⟨0, advances_database h.kept (.refl _) (fun p hp => .inl hp) (List.Subset.refl _) (.inl rfl) rfl (.inl rfl)
        fun key row hrow => .inr ⟨row, hrow, rfl⟩⟩
  | begins k owner redirect registration => exact advances_begin h owner redirect registration
  | reads k =>
      rw [perform]
      split
      · next hc => exact ⟨k, advances_read h hc⟩
      · exact ⟨k, advances_still h⟩
  | reserves k verifier state nonce =>
      rw [perform]
      split
      · next hc => exact ⟨k, advances_reserve h hc verifier nonce (hf _ rfl)⟩
      · exact ⟨k, advances_still h⟩
  | consumes k state code clientId error => exact ⟨k, advances_consume h state code clientId error⟩
  | exchanged k response identity =>
      rw [perform]
      split
      · next hc => exact ⟨k, advances_exchange h response identity hc⟩
      · exact ⟨k, advances_still h⟩
  | publishes k id =>
      rw [perform]
      split
      · next hc => exact ⟨k, advances_publish h hc (hf _ rfl)⟩
      · exact ⟨k, advances_still h⟩
  | accesses k owner lease => exact ⟨k, advances_access h (hf _ rfl)⟩
  | claims k =>
      rw [perform]
      split
      · next hc => exact ⟨k, advances_claim h hc⟩
      · exact ⟨k, advances_still h⟩
  | renewed k answer =>
      rw [perform]
      split
      · next hc => exact ⟨k, advances_renewal h answer hc⟩
      · exact ⟨k, advances_still h⟩
  | endsLease k stored =>
      rw [perform]
      split
      · next hc => exact ⟨k, advances_end h stored hc⟩
      · exact ⟨k, advances_still h⟩
  | selects owner id => exact ⟨0, advances_select h owner id⟩
  | disconnects owner id => exact ⟨0, advances_disconnect h owner id⟩
  | updates owner id change => exact ⟨0, advances_update h owner id change⟩
  | raises k => exact ⟨k, advances_ends h rfl rfl (List.Subset.refl _) rfl rfl⟩

theorem Sound.step (h : Sound w) {e : Step} (hf : Fresh w e) : Sound (w.step loopback e) := by
  have hadvances : ∃ k, Advances w (perform loopback w e) k := perform_advances h hf
  obtain ⟨k, ha⟩ := hadvances
  exact h.advance ha

end Galadril.Scribe
