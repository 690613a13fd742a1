import Galadril.Scribe.AccountHistory

namespace Galadril.Scribe

open Lib Lib.Checked Lib.Transitions

variable {w w' : Accounts} {loopback : String → Bool} {owner id : String} {log log' : Log}

theorem issuedAfter_mono (h : log ⊆ log') {state : String} {t : Nat} (hi : issuedAfter log state t = true) :
    issuedAfter log' state t = true := by
  obtain ⟨p, hp, hissued⟩ := List.any_eq_true.mp hi
  exact List.any_eq_true.mpr ⟨p, h hp, hissued⟩

theorem lifted_mono (h : log ⊆ log') {t : Nat} (hl : lifted log owner id t = true) : lifted log' owner id t = true := by
  obtain ⟨p, hp, hlifts⟩ := List.any_eq_true.mp hl
  refine List.any_eq_true.mpr ⟨p, h hp, ?_⟩
  split at hlifts
  · simp only [Bool.and_eq_true] at hlifts ⊢
    exact ⟨hlifts.1, issuedAfter_mono h hlifts.2⟩
  · cases hlifts

theorem mem_inForce {t : Nat} :
    t ∈ inForce log owner id ↔ (t, .disconnected owner id) ∈ log ∧ lifted log owner id t = false := by
  simp only [inForce, List.mem_map, List.mem_filter, Bool.and_eq_true, beq_iff_eq, Bool.not_eq_true']
  constructor
  · rintro ⟨⟨time, e⟩, ⟨hmem, rfl, hl⟩, rfl⟩
    exact ⟨hmem, hl⟩
  · rintro ⟨hmem, hl⟩
    exact ⟨_, ⟨hmem, rfl, hl⟩, rfl⟩

theorem lifted_published {time t : Nat} {state o i : String} : lifted ((time, .published state o i) :: log) owner id t =
    ((o == owner && i == id && issuedAfter log state t) || lifted log owner id t) := by
  have hissued : ∀ s, issuedAfter ((time, .published state o i) :: log) s t = issuedAfter log s t := fun _ => rfl
  simp only [lifted, List.any_cons, hissued]

/-- A disconnection that holds later held before, unless it is new. -/
theorem inForce_mono (h : log ⊆ log') (hnew : ∀ p ∈ log', p.2 = .disconnected owner id → p ∈ log) {t : Nat}
    (ht : t ∈ inForce log' owner id) : t ∈ inForce log owner id := by
  obtain ⟨hmem, hl⟩ := mem_inForce.mp ht
  refine mem_inForce.mpr ⟨hnew _ hmem rfl, ?_⟩
  rw [Bool.eq_false_iff] at hl ⊢
  exact fun hlifted => hl (lifted_mono h hlifted)

/-- A disconnected registration has no tokens until a sign-in that was begun
after the disconnection is completed. -/
def Withheld (w : Accounts) : Prop :=
  ∀ r ∈ w.db.accounts.rows, inForce w.log r.owner r.id ≠ [] → r.payload.tokens = none

structure Proper (w : Accounts) : Prop where
  few : ∀ owner, w.db.accountCount owner ≤ 4
  single : ∀ r ∈ w.db.accounts.rows, ∀ s ∈ w.db.accounts.rows, r.owner = s.owner → r.selected = true → s.selected = true → r = s
  once : (w.log.filterMap fun p => p.2.consumed?).Nodup
  withheld : Withheld w

/-- A publication goes to the owner who began the sign-in. It replaces one
registration, and in a reconnection that is the registration named then, with
its client and subject. -/
def Attributed (loopback : String → Bool) (w : Accounts) (e : Step) : Prop :=
  ∀ k id state owner saved registration, e = .publishes k id →
    w.calls k = some (.publishing state owner saved registration) →
    Began w.log state owner (saved.map Registration.id) ∧
    (∀ s, saved = some s → (named saved registration id).id = s.id ∧ ∃ row, w.db.accounts.find (owner, s.id) = some row ∧
      ∀ row', (w.step loopback e).db.accounts.find (owner, s.id) = some row' →
        row'.payload.clientId = row.payload.clientId ∧ row'.payload.subject = row.payload.subject) ∧
    ∀ key, key ≠ (owner, (named saved registration id).id) →
      ((w.step loopback e).db.accounts.find key).map AccountRow.payload = (w.db.accounts.find key).map AccountRow.payload

def Renews (loopback : String → Bool) (w : Accounts) (e : Step) : Prop :=
  ∀ k stored owner saved registration lease clear retry claimed, e = .endsLease k stored →
    w.calls k = some (.ending owner saved registration lease clear retry claimed) →
    (w.step loopback e).db = w.db ∨ ∃ row, w.db.accounts.find (owner, saved.id) = some row ∧
      (∀ q ∈ w.log, q.2.stores owner saved.id = true → q.1 < claimed) ∧
      (w.step loopback e).db.pending = w.db.pending ∧
      ∀ key, (w.step loopback e).db.accounts.find key = if key = (owner, saved.id) then some { row with
        payload := { row.payload with
          tokens := if clear then none else registration.tokens
          expiresAt := if clear then 0 else registration.expiresAt }
        lease := none
        leaseExpires := 0 } else w.db.accounts.find key

/-- A publication that no disconnection forbids: none that still holds was made
after its sign-in was begun. -/
def timely (w : Accounts) : Step → Bool
  | .publishes k id =>
      match w.calls k with
      | some (.publishing state owner saved registration) =>
          (inForce w.log owner (named saved registration id).id).all (issuedAfter w.log state)
      | _ => true
  | _ => true

def Timely (w : Accounts) (e : Step) : Prop := timely w e = true

instance (w : Accounts) (e : Step) : Decidable (Timely w e) := inferInstanceAs (Decidable (timely w e = true))

theorem Sound.attributed (h : Sound w) {e : Step} (hf : Fresh w e) : Attributed loopback w e := by
  rintro k id state owner saved registration rfl hc
  obtain ⟨hbegan, hknown, -, hrenews⟩ := h.calls k _ hc
  have hp := named_publishable h hc (hf _ rfl)
  have hstep : w.step loopback (.publishes k id) = (published w k state owner saved registration id).tick := by
    rw [Accounts.step, perform, hc]
  rw [hstep]
  have hdb : (published w k state owner saved registration id).tick.db = w.db ∨
      publish w.db owner saved (named saved registration id) = .ok (published w k state owner saved registration id).tick.db := by
    simp only [published, Accounts.tick]
    split
    · next db hok => exact .inr hok
    · exact .inl rfl
  generalize (published w k state owner saved registration id).tick.db = db at hdb
  refine ⟨hbegan, fun s hs => ?_, fun key hkey => ?_⟩
  · obtain ⟨row, hrow, -, -⟩ := hknown s hs
    refine ⟨(hp.renews s hs).1, row, hrow, fun row' hrow' => ?_⟩
    rcases hdb with rfl | hok
    · obtain rfl := Option.some.inj (hrow.symm.trans hrow')
      exact ⟨rfl, rfl⟩
    · obtain ⟨new, hnew, hclient, hsubject⟩ := Keeps.publish h.kept hp hok _ row hrow
      obtain rfl := Option.some.inj (hnew.symm.trans hrow')
      exact ⟨hclient, hsubject⟩
  · rcases hdb with rfl | hok
    · rfl
    · rw [(publish_eq_ok hok).2.2 key, if_neg hkey, Option.map_map]
      congr 1
      funext r
      simp only [Function.comp_apply]
      split <;> rfl

theorem Sound.renews (h : Sound w) (e : Step) : Renews loopback w e := by
  rintro k stored owner saved registration lease clear retry claimed rfl hc
  have hid : registration.id = saved.id := h.calls k _ hc
  have hstep : w.step loopback (.endsLease k stored) =
      (ended w k owner saved registration lease clear retry claimed stored).tick := by
    rw [Accounts.step, perform, hc]
  rw [hstep]
  unfold ended
  split
  · next db hok =>
      right
      obtain ⟨row, hleased, hpending, hfind⟩ := finish_eq_ok hok
      obtain ⟨hrow, hlease⟩ := leased_eq_some.mp hleased
      rw [hid] at hrow hfind
      exact ⟨row, hrow, h.quiet k _ owner saved.id lease claimed hc rfl row hrow hlease, hpending, hfind⟩
  · exact .inl rfl

def Barred (w : Accounts) : Prop := ∀ owner id row, inForce w.log owner id ≠ [] →
  w.db.accounts.find (owner, id) = some row → row.payload.tokens = none ∧ row.lease = none

theorem Barred.congr (h : Barred w) (hdb : w'.db.accounts = w.db.accounts) (hlog : w.log ⊆ w'.log)
    (hnew : ∀ p ∈ w'.log, ∀ owner id, p.2 = .disconnected owner id → p ∈ w.log) : Barred w' := by
  intro owner id row hforce hrow
  obtain ⟨t, ht⟩ := List.exists_mem_of_ne_nil _ hforce
  exact h owner id row (List.ne_nil_of_mem (inForce_mono hlog (fun p hp => hnew p hp owner id) ht)) (hdb ▸ hrow)

theorem Barred.rewrite (h : Barred w) (hlog : w.log ⊆ w'.log)
    (hnew : ∀ p ∈ w'.log, ∀ owner id, p.2 = .disconnected owner id → p ∈ w.log)
    (hrows : ∀ owner id row, inForce w'.log owner id ≠ [] → w'.db.accounts.find (owner, id) = some row →
      ∃ old, w.db.accounts.find (owner, id) = some old ∧
        (old.payload.tokens = none → old.lease = none → row.payload.tokens = none ∧ row.lease = none)) : Barred w' := by
  intro owner id row hforce hrow
  obtain ⟨old, hold, hkeeps⟩ := hrows owner id row hforce hrow
  obtain ⟨t, ht⟩ := List.exists_mem_of_ne_nil _ hforce
  obtain ⟨htokens, hlease⟩ := h owner id old (List.ne_nil_of_mem (inForce_mono hlog (fun p hp => hnew p hp owner id) ht)) hold
  exact hkeeps htokens hlease

/-- A step that leaves the registrations alone, and records another event at
most. -/
theorem Barred.still (h : Barred w) (hdb : w'.db.accounts = w.db.accounts)
    (hlog : w'.log = w.log ∨ ∃ t e, w'.log = (t, e) :: w.log ∧ ∀ owner id, e ≠ .disconnected owner id) : Barred w' := by
  rcases hlog with heq | ⟨t, e, heq, hother⟩
  · exact h.congr hdb (heq ▸ List.Subset.refl _) fun p hp owner id _ => heq ▸ hp
  · refine h.congr hdb (heq ▸ List.subset_cons_self _ _) fun p hp owner id hd => ?_
    rw [heq] at hp
    rcases List.mem_cons.mp hp with rfl | hp
    · exact absurd hd (hother owner id)
    · exact hp

variable {k : Nat} {saved : Option Registration} {registration : Registration} {state lease : String}

theorem Barred.publish (h : Barred w) {newId : String}
    (htimely : ∀ t ∈ inForce w.log owner (named saved registration newId).id, issuedAfter w.log state t = true) :
    Barred (published w k state owner saved registration newId) := by
  unfold published
  dsimp only
  generalize named saved registration newId = new at htimely
  split
  · next db hok =>
      obtain ⟨-, -, hfind⟩ := publish_eq_ok hok
      refine h.rewrite (List.subset_cons_self _ _) (fun p hp o i hd => ?_) fun o i row hforce hrow => ?_
      · rcases List.mem_cons.mp hp with rfl | hp
        · cases hd
        · exact hp
      · have hfound := hfind (o, i)
        by_cases hkey : (o, i) = (owner, new.id)
        · -- the publication lifts every disconnection of its registration
          obtain ⟨rfl, rfl⟩ := Prod.mk.inj hkey
          obtain ⟨t, ht⟩ := List.exists_mem_of_ne_nil _ hforce
          have hold := inForce_mono (List.subset_cons_self _ w.log) (fun p hp hd => by
            rcases List.mem_cons.mp hp with rfl | hp
            · cases hd
            · exact hp) ht
          have hissued := issuedAfter_mono (List.subset_cons_self (w.steps, .published state o new.id) w.log) (htimely t hold)
          have hl : lifted ((w.steps, .published state o new.id) :: w.log) o new.id t = true :=
            List.any_eq_true.mpr ⟨_, List.mem_cons_self, by simpa using hissued⟩
          exact absurd hl (Bool.eq_false_iff.mp (mem_inForce.mp ht).2)
        · rw [if_neg hkey] at hfound
          obtain ⟨old, hold, rfl⟩ := Option.map_eq_some_iff.mp (hfound.symm.trans hrow)
          refine ⟨old, hold, fun htokens hlease => ?_⟩
          split <;> exact ⟨htokens, hlease⟩
  · exact h.still rfl (.inl rfl)

theorem Barred.claim (hs : Sound w) (h : Barred w) : Barred (claimed w k owner lease) := by
  unfold claimed
  split
  · exact h.still rfl (.inl rfl)
  · exact h
  · exact h.still rfl (.inl rfl)
  · next db row hok =>
      obtain ⟨r, hr, howner, rfl, htokens, -, hfind⟩ := claim_eq_renewal hok
      have hrow : w.db.accounts.find (owner, r.payload.id) = some r :=
        Table.find_eq_some.mpr ⟨hr, Prod.ext howner (hs.kept.named r hr).1.symm⟩
      have hbarred : Barred { w with db } := by
        refine h.rewrite (List.Subset.refl _) (fun p hp o i hd => hp) fun o i row hforce hnew => ?_
        have hfound := hfind (o, i)
        split at hfound
        · next hkey =>
            obtain ⟨rfl, rfl⟩ := Prod.mk.inj hkey
            simp [(h _ _ r hforce hrow).1] at htokens
        · exact ⟨row, hfound.symm.trans hnew, fun ht hl => ⟨ht, hl⟩⟩
      split
      · exact hbarred.still rfl (.inl rfl)
      · exact hbarred.still rfl (.inl rfl)
  · exact h.still rfl (.inl rfl)

theorem Barred.finish (h : Barred w) {old : Registration} {clear retry stored : Bool} {claimedAt : Nat} :
    Barred (ended w k owner old registration lease clear retry claimedAt stored) := by
  unfold ended
  split
  · next db hok =>
      obtain ⟨row, hleased, -, hfind⟩ := finish_eq_ok hok
      obtain ⟨hrow, hlease⟩ := leased_eq_some.mp hleased
      refine h.rewrite (List.subset_cons_self _ _) (fun p hp o i hd => ?_) fun o i row' hforce hnew => ?_
      · rcases List.mem_cons.mp hp with rfl | hp
        · cases hd
        · exact hp
      · have hfound := hfind (o, i)
        split at hfound
        · next hkey =>
            obtain ⟨rfl, rfl⟩ := Prod.mk.inj hkey
            exact ⟨row, hrow, fun _ hnone => by simp [hnone] at hlease⟩
        · exact ⟨row', hfound.symm.trans hnew, fun ht hl => ⟨ht, hl⟩⟩
  · exact h.still rfl (.inl rfl)

theorem Barred.select (h : Barred w) : Barred (select w owner id) := by
  unfold Scribe.select
  split
  · next db hok =>
      obtain ⟨-, hfind⟩ := choose_eq_ok hok
      refine h.rewrite (List.Subset.refl _) (fun p hp o i hd => hp) fun o i row hforce hnew => ?_
      obtain ⟨old, hold, rfl⟩ := Option.map_eq_some_iff.mp ((hfind (o, i)).symm.trans hnew)
      refine ⟨old, hold, fun ht hl => ?_⟩
      split <;> exact ⟨ht, hl⟩
  · exact h

theorem Barred.update (h : Barred w) {change : Change} : Barred (updated w owner id change) := by
  unfold updated
  split
  · next db hok =>
      obtain ⟨row, hrow, -, hfind⟩ := update_eq_ok hok
      refine h.rewrite (List.Subset.refl _) (fun p hp o i hd => hp) fun o i row' hforce hnew => ?_
      have hfound := hfind (o, i)
      split at hfound
      · next hkey =>
          obtain ⟨rfl, rfl⟩ := Prod.mk.inj hkey
          obtain rfl := Option.some.inj (hfound.symm.trans hnew)
          refine ⟨row, hrow, fun ht hl => ⟨?_, hl⟩⟩
          cases change <;> exact ht
      · exact ⟨row', hfound.symm.trans hnew, fun ht hl => ⟨ht, hl⟩⟩
  · exact h

theorem Barred.disconnect (h : Barred w) : Barred (disconnect w owner id) := by
  unfold Scribe.disconnect
  split
  · next db hok =>
      obtain ⟨row, -, -, hfind⟩ := remove_eq_ok hok
      intro o i row' hforce hnew
      have hfound := hfind (o, i)
      split at hfound
      · obtain rfl := Option.some.inj (hfound.symm.trans hnew)
        exact ⟨rfl, rfl⟩
      · next hkey =>
          obtain ⟨t, ht⟩ := List.exists_mem_of_ne_nil _ hforce
          have hold := inForce_mono (List.subset_cons_self _ w.log) (fun p hp hd => by
            rcases List.mem_cons.mp hp with rfl | hp
            · obtain ⟨rfl, rfl⟩ := Event.disconnected.inj hd
              exact absurd rfl hkey
            · exact hp) ht
          exact h o i row' (List.ne_nil_of_mem hold) (hfound.symm.trans hnew)
  · exact h

theorem Barred.step (hs : Sound w) (h : Barred w) {e : Step} (ht : Timely w e) : Barred (w.step loopback e) := by
  have htick : ∀ {w' : Accounts}, Barred w' → Barred w'.tick := fun hb => hb
  apply htick
  cases e with
  | wait seconds => exact h
  | begins k owner redirect registration =>
      rw [perform]
      unfold begin
      split
      · exact h.still rfl (.inr ⟨_, _, rfl, by simp⟩)
      · exact h
  | reads k =>
      rw [perform]
      split
      · rw [readSaved]
        split <;> exact h.still rfl (.inl rfl)
      · exact h
  | reserves k verifier state nonce =>
      rw [perform]
      split
      · unfold reserved
        dsimp only
        split
        · next hok => exact h.still (reserve_eq_ok hok).2.1 (.inr ⟨_, _, rfl, by simp⟩)
        · exact h.still rfl (.inl rfl)
      · exact h
  | consumes k state code clientId error =>
      rw [perform, consumed]
      split
      · dsimp only
        split
        · exact h.still rfl (.inl rfl)
        · exact h.still rfl (.inr ⟨_, _, rfl, by simp⟩)
      · exact h
  | exchanged k response identity =>
      rw [perform]
      split
      · exact h.still rfl (.inl rfl)
      · exact h
  | publishes k id =>
      rw [perform]
      split
      · next hc => exact h.publish (by simpa [Timely, timely, hc] using ht)
      · exact h
  | accesses k owner lease =>
      rw [perform, access]
      split
      · exact h.still rfl (.inl rfl)
      · exact h
  | claims k =>
      rw [perform]
      split
      · exact h.claim hs
      · exact h
  | renewed k answer =>
      rw [perform]
      split
      · exact h.still rfl (.inl rfl)
      · exact h
  | endsLease k stored =>
      rw [perform]
      split
      · exact h.finish
      · exact h
  | selects owner id => exact h.select
  | disconnects owner id => exact h.disconnect
  | updates owner id change => exact h.update
  | raises k => exact h.still rfl (.inl rfl)

theorem Sound.proper (h : Sound w) (hb : Barred w) : Proper w where
  few := h.kept.few
  single := h.kept.single
  once := h.once
  withheld := fun r hr hforce => (hb r.owner r.id r hforce (Table.find_eq_some.mpr ⟨hr, rfl⟩)).1

/-- Where a publication is not timely, the state after it shows it. -/
theorem withheld_timely (h : Sound w) {e : Step} (hf : Fresh w e) (hw : Withheld (w.step loopback e)) : Timely w e := by
  cases e with
  | publishes k id =>
      rw [Timely, timely]
      split
      · next state owner saved registration hc =>
          refine List.all_eq_true.mpr fun t ht => ?_
          by_contra hlate
          rw [Bool.not_eq_true] at hlate
          obtain ⟨-, -, htokens, -⟩ := h.calls k _ hc
          have hp := named_publishable h hc (hf _ rfl)
          have hsaved : saved.isSome = true := by
            rw [Option.isSome_iff_ne_none]
            exact fun hnone => hp.fresh hnone (h.disconnected _ (mem_inForce.mp ht).1 owner _ rfl)
          have haccepts : Accepts (publish w.db owner saved (named saved registration id)) := publish_accepts hsaved
          obtain ⟨db, hok⟩ := haccepts
          have hnamed : (named saved registration id).tokens = registration.tokens := by simp [named, hsaved]
          have hstep : w.step loopback (.publishes k id) = (published w k state owner saved registration id).tick := by
            rw [Accounts.step, perform, hc]
          have hfound := (publish_eq_ok hok).2.2 (owner, (named saved registration id).id)
          rw [if_pos rfl] at hfound
          simp only [hstep, published, hok] at hw
          have hforce : t ∈ inForce ((w.steps, .published state owner (named saved registration id).id) :: w.log) owner
              (named saved registration id).id := by
            obtain ⟨hmem, hl⟩ := mem_inForce.mp ht
            refine mem_inForce.mpr ⟨List.mem_cons_of_mem _ hmem, ?_⟩
            rw [lifted_published, hl, hlate]
            simp
          have hnone := hw _ (Table.find_eq_some.mp hfound).1 (List.ne_nil_of_mem hforce)
          rw [hnamed] at hnone
          simp [hnone] at htokens
      · rfl
  | _ => rfl

theorem start_proper (now : Int) : Sound (.start now) ∧ Barred (.start now) :=
  ⟨start_sound now, fun owner id row _ hrow => by cases hrow⟩

theorem proper_iff_timely (hs : Sound w) (hb : Barred w) {events : List Step}
    (hfresh : Along (Accounts.step loopback) Fresh w events) :
    ((∀ n, Proper (run (Accounts.step loopback) w (events.take n))) ∧
      Along (Accounts.step loopback) (fun w e => Attributed loopback w e ∧ Renews loopback w e) w events) ↔
    Along (Accounts.step loopback) Timely w events := by
  induction events generalizing w with
  | nil => exact ⟨fun _ => trivial, fun _ => ⟨fun n => by simpa using hs.proper hb, trivial⟩⟩
  | cons e events ih =>
      obtain ⟨hf, hrest⟩ := hfresh
      have hnext : Sound (w.step loopback e) := hs.step hf
      constructor
      · rintro ⟨hproper, -, hsteps⟩
        have ht : Timely w e := withheld_timely hs hf (hproper 1).withheld
        exact ⟨ht, (ih hnext (hb.step hs ht) hrest).mp ⟨fun n => hproper (n + 1), hsteps⟩⟩
      · rintro ⟨ht, htimely⟩
        obtain ⟨hproper, hsteps⟩ := (ih hnext (hb.step hs ht) hrest).mpr htimely
        refine ⟨fun n => ?_, ⟨hs.attributed hf, hs.renews e⟩, hsteps⟩
        cases n with
        | zero => exact hs.proper hb
        | succ n => exact hproper n

/-- Credentials follow the decisions of their owners exactly in the runs in
which every publication is timely. -/
theorem credentials_follow_decisions (loopback : String → Bool) (now : Int) (events : List Step)
    (hfresh : Along (Accounts.step loopback) Fresh (.start now) events) :
    ((∀ n, Proper (run (Accounts.step loopback) (.start now) (events.take n))) ∧
      Along (Accounts.step loopback) (fun w e => Attributed loopback w e ∧ Renews loopback w e) (.start now) events) ↔
    Along (Accounts.step loopback) Timely (.start now) events :=
  proper_iff_timely (start_proper now).1 (start_proper now).2 hfresh

def signIn (call : Nat) (registration : Option String) (state : String) : List Step :=
  [.begins call (String.ofList (List.replicate 64 'a')) "http://127.0.0.1:1455/auth/callback" registration, .reads call,
    .reserves call "verifier" state "nonce",
    .consumes (call + 1) state (some "code") (some "oaiapp_client") none,
    .exchanged (call + 1) {
      accessToken := some "access"
      refreshToken := some "refresh"
      idToken := some (some "identity")
      tokenType := some "Bearer"
      expiresIn := some 3600
      earliestRefreshAt := none
      scope := some directScope } (some ⟨"user", "nonce", none⟩)]

def stateOf (c : Char) : String := String.ofList (List.replicate 43 c)

def reconnected : List Step :=
  signIn 0 none (stateOf 'a') ++ [.publishes 1 "account", .disconnects (String.ofList (List.replicate 64 'a')) "account"] ++
    signIn 2 (some "account") (stateOf 'b') ++ [.publishes 3 "unused"]

theorem credentials_follow_decisions_reconnected :
    (∀ n, Proper (run (Accounts.step fun _ => true) (.start 0) (reconnected.take n))) ∧
      Along (Accounts.step fun _ => true) (fun w e => Attributed (fun _ => true) w e ∧ Renews (fun _ => true) w e) (.start 0)
        reconnected := by
  have hfresh : Along (Accounts.step fun _ => true) Fresh (.start 0) reconnected := by decide +kernel
  have htimely : Along (Accounts.step fun _ => true) Timely (.start 0) reconnected := by decide +kernel
  exact (credentials_follow_decisions (fun _ => true) 0 reconnected hfresh).mpr htimely

def overtaken : List Step :=
  signIn 0 none (stateOf 'a') ++ [.publishes 1 "account"] ++ signIn 2 (some "account") (stateOf 'b') ++
    [.disconnects (String.ofList (List.replicate 64 'a')) "account", .publishes 3 "unused"]

theorem tokens_restored_after_disconnect :
    Along (Accounts.step fun _ => true) Fresh (.start 0) overtaken ∧
      ¬ Withheld (run (Accounts.step fun _ => true) (.start 0) overtaken) := by
  refine ⟨by decide +kernel, fun h => ?_⟩
  have hrow : (run (Accounts.step fun _ => true) (.start 0) overtaken).db.accounts.rows.any (fun r =>
      r.payload.tokens.isSome && !(inForce (run (Accounts.step fun _ => true) (.start 0) overtaken).log r.owner r.id).isEmpty) =
      true := by
    decide +kernel
  obtain ⟨r, hr, hholds⟩ := List.any_eq_true.mp hrow
  simp only [Bool.and_eq_true, Bool.not_eq_true', List.isEmpty_eq_false_iff] at hholds
  simp [h r hr hholds.2] at hholds

end Galadril.Scribe
