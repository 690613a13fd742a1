import Galadril.Iam.Passkeys
import Galadril.Lib.Transitions

namespace Galadril.Iam

open Lib Lib.Checked Lib.Transitions

variable (decode : String → Option (List UInt8))

inductive PasskeyEvent
  | read (tenant user : String)
  | challenged (now : Int) (tenant user flow : String) (value : Challenge)
  | consumed (now : Int) (tenant user flow : String)
  | saved (tenant user : String) (generation : Int) (value : Credential) (previous : Option Int)
  | reset (tenant user : String)
  | account (tenant user : String) (active : Bool)
  | setting (tenant : String) (mandatory : Bool)

def performPasskeys (s : Passkeys) : PasskeyEvent → Except String Passkeys
  | .read tenant user => (passkeyContext s tenant user).map Prod.fst
  | .challenged now tenant user flow value => storeChallenge s now tenant user flow value
  | .consumed now tenant user flow => (consume s now tenant user flow).map Prod.fst
  | .saved tenant user generation value previous => save s decode tenant user generation value previous
  | .reset tenant user => resetPasskeys s tenant user
  | .account tenant user active =>
      .ok { s with active := fun t u => if t = tenant ∧ u = user then active else s.active t u }
  | .setting tenant mandatory => .ok { s with mandatory := Function.update s.mandatory tenant mandatory }

def Passkeys.step (s : Passkeys) (e : PasskeyEvent) : Passkeys :=
  match performPasskeys decode s e with
  | .ok s' => s'
  | .error _ => s

def Passkeys.start (active : String → String → Bool) (mandatory : String → Bool) : Passkeys :=
  ⟨active, mandatory, .empty, .empty, .empty, 0, []⟩

section Writes

variable {decode : String → Option (List UInt8)} {s s' : Passkeys} {tenant user : String}

theorem belongs_iff {owner : String × String} : belongs tenant user owner = true ↔ owner = (tenant, user) := by
  simp [belongs]

theorem not_belongs {owner : String × String} (h : owner ≠ (tenant, user)) : belongs tenant user owner = false := by
  rw [Bool.eq_false_iff, Ne, belongs_iff]
  exact h

theorem passkeyContext_eq_ok {answer : Option (Int × List Passkey)} (h : passkeyContext s tenant user = .ok (s', answer)) :
    s' = s ∨ s' = { s with states := s.states.insert ⟨tenant, user, 0⟩ } := by
  simp only [passkeyContext, bind_eq_ok] at h
  obtain ⟨_, -, _, -, h⟩ := h
  split at h
  · exact .inl (Prod.mk.inj (pure_eq_ok.mp h)).1.symm
  · simp only [bind_eq_ok] at h
    obtain ⟨_, -, h⟩ := h
    exact .inr (Prod.mk.inj (pure_eq_ok.mp h)).1.symm

theorem lock_eq_ok {expected : Int} {u : Unit} (h : lock s tenant user expected = .ok u) :
    s.generation tenant user = some expected := by
  simp only [lock, bind_eq_ok, context_eq_ok, ensure_eq_ok, beq_iff_eq] at h
  obtain ⟨_, -, _, -, generation, hg, rfl⟩ := h
  exact hg

structure StoredChallenge (s s' : Passkeys) (now : Int) (row : PasskeyChallenge) : Prop where
  rows : ∃ rows, rows.Sublist s.challenges.rows ∧ s'.challenges.rows = rows ++ [row] ∧
    ∀ c ∈ s.challenges.rows, c ∈ rows ∨ c.flow = row.flow ∧ (c.tenant, c.user) = (row.tenant, row.user) ∨
      c.tenant = row.tenant ∧ c.expiresAt ≤ now
  serial : row.serial = s.stored
  rest : s' = { s with challenges := s'.challenges, stored := s.stored + 1 }

theorem storeChallenge_eq_ok {now : Int} {flow : String} {value : Challenge}
    (h : storeChallenge s now tenant user flow value = .ok s') :
    s.generation tenant user = some value.generation ∧ ∃ row, row.tenant = tenant ∧ row.user = user ∧
      row.generation = value.generation ∧ StoredChallenge s s' now row := by
  simp only [storeChallenge, bind_eq_ok] at h
  obtain ⟨_, -, _, -, _, hlock, h⟩ := h
  refine ⟨lock_eq_ok hlock, ⟨flow, tenant, user, value.generation, value.challenge, value.operation, now + 300000, s.stored⟩,
    rfl, rfl, rfl, ?_⟩
  have hexpired : ∀ c ∈ s.challenges.rows,
      c ∈ (s.challenges.delete fun c => c.tenant == tenant && decide (c.expiresAt ≤ now)).rows ∨ c.tenant = tenant ∧
        c.expiresAt ≤ now := by
    intro c hc
    by_cases hgone : c.tenant = tenant ∧ c.expiresAt ≤ now
    · exact .inr hgone
    · exact .inl (List.mem_filter.mpr ⟨hc, by simpa [Decidable.imp_iff_not_or] using hgone⟩)
  split at h
  · next hnone =>
      obtain rfl := pure_eq_ok.mp h
      refine ⟨⟨_, List.filter_sublist, Table.insert_rows hnone, fun c hc => ?_⟩, rfl, rfl⟩
      exact (hexpired c hc).imp_right .inr
  · next old hold =>
      simp only [bind_eq_ok, ensure_eq_ok, Bool.and_eq_true, beq_iff_eq] at h
      obtain ⟨_, ⟨ht, hu⟩, h⟩ := h
      obtain rfl := pure_eq_ok.mp h
      refine ⟨⟨_, List.filter_sublist.trans List.filter_sublist, Table.insert_rows ?_, fun c hc => ?_⟩, rfl, rfl⟩
      · rw [Table.find_delete, hold]
        simp [Table.key_of_find hold]
      · rcases hexpired c hc with hkept | hgone
        · by_cases hflow : c.flow = flow
          · have hsame : c = old := Option.some.inj ((Table.find_eq_some.mpr ⟨hkept, hflow⟩).symm.trans hold)
            exact .inr (.inl ⟨hflow, by rw [hsame, ht, hu]⟩)
          · exact .inl (List.mem_filter.mpr ⟨hkept, by simpa using hflow⟩)
        · exact .inr (.inr hgone)

theorem consume_eq_ok {now : Int} {flow : String} {row : PasskeyChallenge} (h : consume s now tenant user flow = .ok (s', row)) :
    row ∈ s.challenges.rows ∧ row.flow = flow ∧ row.tenant = tenant ∧ row.user = user ∧ now < row.expiresAt ∧
      s' = { s with challenges := s.challenges.delete fun c => c.flow == flow, returned := s.returned ++ [⟨row, now⟩] } := by
  simp only [consume, bind_eq_ok, context_eq_ok, Option.filter_eq_some_iff, Bool.and_eq_true, beq_iff_eq, decide_eq_true_eq] at h
  obtain ⟨_, -, found, ⟨hfind, ⟨ht, hu⟩, hnow⟩, h⟩ := h
  obtain ⟨rfl, rfl⟩ := Prod.mk.inj (pure_eq_ok.mp h)
  obtain ⟨hmem, hflow⟩ := Table.find_eq_some.mp hfind
  exact ⟨hmem, hflow, ht, hu, hnow, rfl⟩

theorem save_eq_ok {generation : Int} {value : Credential} {previous : Option Int}
    (h : save s decode tenant user generation value previous = .ok s') :
    s.generation tenant user = some generation ∧ s' = { s with keys := s'.keys } ∧
      (∀ k ∈ s'.keys.rows, (∃ old ∈ s.keys.rows, old.owner = k.owner ∧ old.enrolled = k.enrolled) ∨
        k.owner = (tenant, user) ∧ k.enrolled = generation) ∧
      ∀ owner, owner ≠ (tenant, user) → s'.keys.find owner = s.keys.find owner := by
  simp only [save, bind_eq_ok] at h
  obtain ⟨_, -, _, -, _, hlock, h⟩ := h
  refine ⟨lock_eq_ok hlock, ?_⟩
  cases previous with
  | some previous =>
      simp only [bind_eq_ok] at h
      obtain ⟨_, -, h⟩ := h
      obtain rfl := pure_eq_ok.mp h
      refine ⟨rfl, fun k hk => .inl ?_, fun owner hne => ?_⟩
      · obtain ⟨old, hold, rfl⟩ := List.mem_map.mp hk
        refine ⟨old, hold, ?_⟩
        split <;> exact ⟨rfl, rfl⟩
      · apply Table.find_update_other
        · exact fun _ => rfl
        · intro k hk
          have hother : belongs tenant user k.owner = false := not_belongs (by rw [Table.key_of_find hk]; exact hne)
          simp [hother]
  | none =>
      simp only [bind_eq_ok, ensure_eq_ok, Bool.not_eq_true', List.any_eq_false] at h
      obtain ⟨_, hfree, key, -, _, -, _, -, _, -, h⟩ := h
      obtain rfl := pure_eq_ok.mp h
      have hnone : s.keys.find (tenant, user) = none :=
        Table.find_eq_none.mpr fun k hk howner => hfree k hk (belongs_iff.mpr howner)
      refine ⟨rfl, fun k hk => ?_, fun owner hne => ?_⟩
      · rcases Table.mem_insert hk with hk | ⟨rfl, -⟩
        · exact .inl ⟨k, hk, rfl, rfl⟩
        · exact .inr ⟨rfl, rfl⟩
      · rw [Table.find_insert hnone, if_neg fun heq => hne heq.symm]

theorem find_renewState (states : Table PasskeyState.owner) (tenant user : String) :
    ((renewState states tenant user).find (tenant, user)).map PasskeyState.generation =
      some (((states.find (tenant, user)).map PasskeyState.generation).getD 0 + 1) := by
  rw [renewState]
  cases hf : states.find (tenant, user) with
  | none =>
      have hinsert := Table.find_insert (r := (⟨tenant, user, 1⟩ : PasskeyState)) hf (tenant, user)
      simp [hinsert, PasskeyState.owner]
  | some r =>
      have howner : belongs tenant user r.owner = true := belongs_iff.mpr (Table.key_of_find hf)
      have hupdate := Table.find_update states (fun r => belongs tenant user r.owner)
        (fun r => { r with generation := r.generation + 1 }) (fun _ => rfl) (tenant, user)
      rw [hf, Option.map_some, if_pos howner] at hupdate
      exact congrArg (Option.map PasskeyState.generation) hupdate

theorem find_renewState_other {states : Table PasskeyState.owner} {owner : String × String} (hne : owner ≠ (tenant, user)) :
    (renewState states tenant user).find owner = states.find owner := by
  rw [renewState]
  cases hf : states.find (tenant, user) with
  | none =>
      have hinsert := Table.find_insert (r := (⟨tenant, user, 1⟩ : PasskeyState)) hf owner
      exact hinsert.trans (if_neg fun heq => hne heq.symm)
  | some r =>
      apply Table.find_update_other
      intro other ho
      exact not_belongs (by rw [Table.key_of_find ho]; exact hne)

theorem resetPasskeys_eq_ok (h : resetPasskeys s tenant user = .ok s') :
    s' = { s with
      states := renewState s.states tenant user
      keys := s.keys.delete fun k => belongs tenant user k.owner
      challenges := s.challenges.delete fun c => c.tenant == tenant && c.user == user } := by
  simp only [resetPasskeys, bind_eq_ok] at h
  obtain ⟨_, -, h⟩ := h
  exact (pure_eq_ok.mp h).symm

end Writes

section Invariants

variable {decode : String → Option (List UInt8)} {s s' : Passkeys} {tenant user : String}

def Later (s s' : Passkeys) : Prop :=
  ∀ tenant user g, s.generation tenant user = some g → ∃ g', s'.generation tenant user = some g' ∧ g ≤ g'

theorem Later.of_states (h : s'.states = s.states) : Later s s' := fun tenant user g hg =>
  ⟨g, by rw [Passkeys.generation, h]; exact hg, le_rfl⟩

theorem Later.trans (a b c : Passkeys) (hab : Later a b) (hbc : Later b c) : Later a c := by
  intro tenant user g hg
  obtain ⟨g', hg', hle⟩ := hab tenant user g hg
  obtain ⟨g'', hg'', hle'⟩ := hbc tenant user g' hg'
  exact ⟨g'', hg'', hle.trans hle'⟩

theorem generation_insert {g : Int} {t u : String} (h : s.generation t u = some g) :
    ({ s with states := s.states.insert ⟨tenant, user, 0⟩ } : Passkeys).generation t u = some g := by
  by_cases hnone : s.states.find (PasskeyState.owner ⟨tenant, user, 0⟩) = none
  · rw [Passkeys.generation, Table.find_insert hnone]
    split
    · next heq =>
        have hfind : s.states.find (t, u) = none := heq ▸ hnone
        simp [Passkeys.generation, hfind] at h
    · exact h
  · have hsame : s.states.insert ⟨tenant, user, 0⟩ = s.states := by simp [Table.insert, hnone]
    rw [hsame]
    exact h

/-- Challenges and credentials are of the current generation of their users, and
storages are told apart. -/
structure Current (s : Passkeys) : Prop where
  challenges : ∀ c ∈ s.challenges.rows, s.generation c.tenant c.user = some c.generation ∧ c.serial < s.stored
  keys : ∀ k ∈ s.keys.rows, s.generation k.tenant k.user = some k.enrolled
  serials : (s.challenges.rows.map PasskeyChallenge.serial).Nodup
  once : (s.returned.map fun r => r.row.serial).Nodup
  gone : ∀ c ∈ s.challenges.rows, ∀ r ∈ s.returned, c.serial ≠ r.row.serial
  returned : ∀ r ∈ s.returned, r.row.serial < s.stored ∧ r.time < r.row.expiresAt

theorem Current.read (h : Current s) (hs : s' = { s with states := s.states.insert ⟨tenant, user, 0⟩ }) :
    Current s' ∧ Later s s' := by
  subst hs
  refine ⟨⟨fun c hc => ⟨generation_insert (h.challenges c hc).1, (h.challenges c hc).2⟩,
    fun k hk => generation_insert (h.keys k hk), h.serials, h.once, h.gone, h.returned⟩, fun t u g hg =>
      ⟨g, generation_insert hg, le_rfl⟩⟩

theorem Current.store (h : Current s) {now : Int} {row : PasskeyChallenge}
    (hg : s.generation row.tenant row.user = some row.generation) (hs : StoredChallenge s s' now row) :
    Current s' ∧ Later s s' := by
  obtain ⟨rows, hsub, hrows, -⟩ := hs.rows
  have hstates : s'.states = s.states := by rw [hs.rest]
  have hgen : ∀ t u, s'.generation t u = s.generation t u := fun t u => by rw [Passkeys.generation, hstates]; rfl
  have hkeys : s'.keys = s.keys := by rw [hs.rest]
  have hreturned : s'.returned = s.returned := by rw [hs.rest]
  have hstored : s'.stored = s.stored + 1 := by rw [hs.rest]
  have hnew : ∀ c ∈ rows, c.serial < row.serial := by
    intro c hc
    have hlt := (h.challenges c (hsub.subset hc)).2
    have hserial := hs.serial
    omega
  refine ⟨⟨fun c hc => ?_, fun k hk => ?_, ?_, hreturned ▸ h.once, fun c hc r hr => ?_, fun r hr => ?_⟩, .of_states hstates⟩
  · rw [hrows] at hc
    rcases List.mem_append.mp hc with hc | hc
    · obtain ⟨hcg, hlt⟩ := h.challenges c (hsub.subset hc)
      exact ⟨(hgen _ _).trans hcg, by omega⟩
    · obtain rfl := List.mem_singleton.mp hc
      have hserial := hs.serial
      exact ⟨(hgen _ _).trans hg, by omega⟩
  · exact (hgen _ _).trans (h.keys k (hkeys ▸ hk))
  · rw [hrows, List.map_append, List.nodup_append]
    refine ⟨h.serials.sublist (hsub.map _), List.nodup_singleton _, fun a ha b hb => ?_⟩
    obtain ⟨c, hc, rfl⟩ := List.mem_map.mp ha
    obtain rfl := List.mem_singleton.mp hb
    exact (hnew c hc).ne
  · rw [hrows] at hc
    rw [hreturned] at hr
    rcases List.mem_append.mp hc with hc | hc
    · exact h.gone c (hsub.subset hc) r hr
    · obtain rfl := List.mem_singleton.mp hc
      have hlt := (h.returned r hr).1
      have hserial := hs.serial
      omega
  · obtain ⟨hlt, htime⟩ := h.returned r (hreturned ▸ hr)
    exact ⟨by omega, htime⟩

theorem Current.consume (h : Current s) {now : Int} {flow : String} {row : PasskeyChallenge}
    (hok : consume s now tenant user flow = .ok (s', row)) : Current s' ∧ Later s s' := by
  obtain ⟨hmem, rfl, -, -, hnow, rfl⟩ := consume_eq_ok hok
  refine ⟨⟨fun c hc => h.challenges c (List.mem_filter.mp hc).1, h.keys, h.serials.sublist (List.filter_sublist.map _), ?_,
    fun c hc r hr => ?_, fun r hr => ?_⟩, .of_states rfl⟩
  · rw [List.map_append, List.nodup_append]
    refine ⟨h.once, List.nodup_singleton _, fun a ha b hb => ?_⟩
    obtain ⟨r, hr, rfl⟩ := List.mem_map.mp ha
    obtain rfl := List.mem_singleton.mp hb
    exact (h.gone row hmem r hr).symm
  · obtain ⟨hc, hflow⟩ := List.mem_filter.mp hc
    rcases List.mem_append.mp hr with hr | hr
    · exact h.gone c hc r hr
    · obtain rfl := List.mem_singleton.mp hr
      intro hserial
      obtain rfl := List.inj_on_of_nodup_map h.serials hc hmem hserial
      simp at hflow
  · rcases List.mem_append.mp hr with hr | hr
    · exact h.returned r hr
    · obtain rfl := List.mem_singleton.mp hr
      exact ⟨(h.challenges row hmem).2, hnow⟩

theorem Current.save (h : Current s) {generation : Int} {value : Credential} {previous : Option Int}
    (hok : save s decode tenant user generation value previous = .ok s') : Current s' ∧ Later s s' := by
  obtain ⟨hg, hrest, hkeys, -⟩ := save_eq_ok hok
  have hgen : ∀ t u, s'.generation t u = s.generation t u := fun t u => by rw [hrest]; rfl
  refine ⟨⟨?_, fun k hk => ?_, ?_, ?_, ?_, ?_⟩, .of_states (by rw [hrest])⟩
  · rw [hrest]
    exact h.challenges
  · rw [hgen]
    rcases hkeys k hk with ⟨old, hold, howner, henrolled⟩ | ⟨howner, henrolled⟩
    · rw [← henrolled, ← h.keys old hold]
      exact congrArg (fun owner => (s.states.find owner).map PasskeyState.generation) howner.symm
    · rw [henrolled, ← hg]
      exact congrArg (fun owner => (s.states.find owner).map PasskeyState.generation) howner
  · rw [hrest]
    exact h.serials
  · rw [hrest]
    exact h.once
  · rw [hrest]
    exact h.gone
  · rw [hrest]
    exact h.returned

theorem Current.reset (h : Current s) (hok : resetPasskeys s tenant user = .ok s') : Current s' ∧ Later s s' := by
  obtain rfl := resetPasskeys_eq_ok hok
  have hother : ∀ t u, (t, u) ≠ (tenant, user) →
      ((renewState s.states tenant user).find (t, u)).map PasskeyState.generation = s.generation t u := by
    intro t u hne
    rw [find_renewState_other hne]
    rfl
  refine ⟨⟨fun c hc => ?_, fun k hk => ?_, h.serials.sublist (List.filter_sublist.map _), h.once, fun c hc => ?_, h.returned⟩,
    fun t u g hg => ?_⟩
  · obtain ⟨hc, hne⟩ := List.mem_filter.mp hc
    obtain ⟨hcg, hlt⟩ := h.challenges c hc
    refine ⟨(hother _ _ fun heq => ?_).trans hcg, hlt⟩
    obtain ⟨ht, hu⟩ := Prod.mk.inj heq
    simp [ht, hu] at hne
  · obtain ⟨hk, hne⟩ := List.mem_filter.mp hk
    refine (hother _ _ fun heq => ?_).trans (h.keys k hk)
    have hbelongs : belongs tenant user k.owner = true := belongs_iff.mpr heq
    simp [hbelongs] at hne
  · exact h.gone c (List.mem_filter.mp hc).1
  · by_cases heq : (t, u) = (tenant, user)
    · obtain ⟨rfl, rfl⟩ := Prod.mk.inj heq
      refine ⟨g + 1, ?_, by omega⟩
      have hnext := find_renewState s.states t u
      rw [show (s.states.find (t, u)).map PasskeyState.generation = some g from hg] at hnext
      exact hnext
    · exact ⟨g, (hother t u heq).trans hg, le_rfl⟩

theorem Current.perform (h : Current s) {e : PasskeyEvent} (hok : performPasskeys decode s e = .ok s') :
    Current s' ∧ Later s s' := by
  cases e with
  | read tenant user =>
      obtain ⟨⟨s₁, answer⟩, hread, rfl⟩ := map_eq_ok.mp hok
      rcases passkeyContext_eq_ok hread with rfl | hs
      · exact ⟨h, .of_states rfl⟩
      · exact h.read hs
  | challenged now tenant user flow value =>
      obtain ⟨hg, row, ht, hu, hr, hstored⟩ := storeChallenge_eq_ok hok
      exact h.store (by rw [ht, hu, hr]; exact hg) hstored
  | consumed now tenant user flow =>
      obtain ⟨⟨s₁, row⟩, hconsumed, rfl⟩ := map_eq_ok.mp hok
      exact h.consume hconsumed
  | saved tenant user generation value previous => exact h.save hok
  | reset tenant user => exact h.reset hok
  | account tenant user active =>
      cases hok
      exact ⟨⟨h.challenges, h.keys, h.serials, h.once, h.gone, h.returned⟩, .of_states rfl⟩
  | setting tenant mandatory =>
      cases hok
      exact ⟨⟨h.challenges, h.keys, h.serials, h.once, h.gone, h.returned⟩, .of_states rfl⟩

end Invariants

section Others

variable {decode : String → Option (List UInt8)} {s s' : Passkeys}

def PasskeyEvent.actor : PasskeyEvent → Option (String × String)
  | .read tenant user | .challenged _ tenant user _ _ | .consumed _ tenant user _ | .saved tenant user _ _ _
  | .reset tenant user => some (tenant, user)
  | .account _ _ _ | .setting _ _ => none

def PasskeyEvent.sweeps : PasskeyEvent → PasskeyChallenge → Bool
  | .challenged now tenant _ _ _, c => c.tenant == tenant && c.expiresAt ≤ now
  | _, _ => false

/-- The rows of everyone but the user are as they were, swept challenges aside. -/
structure Untouched (e : PasskeyEvent) (s s' : Passkeys) (tenant user : String) : Prop where
  states : ∀ owner, owner ≠ (tenant, user) → s'.states.find owner = s.states.find owner
  keys : ∀ owner, owner ≠ (tenant, user) → s'.keys.find owner = s.keys.find owner
  added : ∀ c ∈ s'.challenges.rows, (c.tenant, c.user) ≠ (tenant, user) → c ∈ s.challenges.rows
  kept : ∀ c ∈ s.challenges.rows, (c.tenant, c.user) ≠ (tenant, user) → c ∈ s'.challenges.rows ∨ e.sweeps c = true

theorem Untouched.refl (e : PasskeyEvent) (s : Passkeys) (tenant user : String) : Untouched e s s tenant user :=
  ⟨fun _ _ => rfl, fun _ _ => rfl, fun _ h _ => h, fun _ h _ => .inl h⟩

theorem perform_untouched {e : PasskeyEvent} {tenant user : String} (he : e.actor = some (tenant, user))
    (hok : performPasskeys decode s e = .ok s') : Untouched e s s' tenant user := by
  cases e with
  | read t u =>
      obtain ⟨rfl, rfl⟩ := Prod.mk.inj (Option.some.inj he)
      obtain ⟨⟨s₁, answer⟩, hread, rfl⟩ := map_eq_ok.mp hok
      rcases passkeyContext_eq_ok hread with rfl | rfl
      · exact .refl _ _ _ _
      · refine ⟨fun owner hne => ?_, fun _ _ => rfl, fun _ h _ => h, fun _ h _ => .inl h⟩
        by_cases hnone : s.states.find (PasskeyState.owner ⟨t, u, 0⟩) = none
        · exact (Table.find_insert hnone owner).trans (if_neg fun heq => hne heq.symm)
        · simp [Table.insert, hnone]
  | challenged now t u flow value =>
      obtain ⟨rfl, rfl⟩ := Prod.mk.inj (Option.some.inj he)
      obtain ⟨-, row, ht, hu, -, hstored⟩ := storeChallenge_eq_ok hok
      obtain ⟨rows, hsub, hrows, hkept⟩ := hstored.rows
      refine ⟨fun _ _ => by rw [hstored.rest], fun _ _ => by rw [hstored.rest], fun c hc hne => ?_, fun c hc hne => ?_⟩
      · rw [hrows] at hc
        rcases List.mem_append.mp hc with hc | hc
        · exact hsub.subset hc
        · obtain rfl := List.mem_singleton.mp hc
          exact absurd (by rw [ht, hu]) hne
      · rcases hkept c hc with hmem | ⟨-, howner⟩ | ⟨htenant, hexpired⟩
        · exact .inl (by rw [hrows]; exact List.mem_append_left _ hmem)
        · exact absurd (by rw [howner, ht, hu]) hne
        · exact .inr (by simp [PasskeyEvent.sweeps, htenant, ht, hexpired])
  | consumed now t u flow =>
      obtain ⟨rfl, rfl⟩ := Prod.mk.inj (Option.some.inj he)
      obtain ⟨⟨s₁, row⟩, hconsumed, rfl⟩ := map_eq_ok.mp hok
      obtain ⟨hmem, rfl, ht, hu, -, rfl⟩ := consume_eq_ok hconsumed
      refine ⟨fun _ _ => rfl, fun _ _ => rfl, fun c hc _ => (List.mem_filter.mp hc).1, fun c hc hne => .inl ?_⟩
      refine List.mem_filter.mpr ⟨hc, ?_⟩
      have hflow : c.flow ≠ row.flow := by
        intro heq
        obtain rfl := Table.eq_of_key hc hmem heq
        exact hne (by rw [ht, hu])
      simpa using hflow
  | saved t u generation value previous =>
      obtain ⟨rfl, rfl⟩ := Prod.mk.inj (Option.some.inj he)
      obtain ⟨-, hrest, -, hkeys⟩ := save_eq_ok hok
      refine ⟨fun _ _ => by rw [hrest], hkeys, fun c hc _ => ?_, fun c hc _ => .inl ?_⟩
      · rw [hrest] at hc
        exact hc
      · rw [hrest]
        exact hc
  | reset t u =>
      obtain ⟨rfl, rfl⟩ := Prod.mk.inj (Option.some.inj he)
      obtain rfl := resetPasskeys_eq_ok hok
      refine ⟨fun _ hne => find_renewState_other hne, fun owner hne => ?_, fun c hc _ => (List.mem_filter.mp hc).1,
        fun c hc hne => .inl (List.mem_filter.mpr ⟨hc, ?_⟩)⟩
      · apply Table.find_delete_other
        intro k hk
        exact not_belongs (by rw [Table.key_of_find hk]; exact hne)
      · by_contra hsame
        refine hne ?_
        simpa using hsame
  | account t u active => cases he
  | setting t mandatory => cases he

end Others

section Runs

variable {decode : String → Option (List UInt8)} {s : Passkeys}

theorem Current.step (h : Current s) (e : PasskeyEvent) : Current (s.step decode e) ∧ Later s (s.step decode e) := by
  rw [Passkeys.step]
  cases hok : performPasskeys decode s e with
  | ok s' => exact h.perform hok
  | error _ => exact ⟨h, .of_states rfl⟩

structure Recovered (n : Nat) (tenant user : String) (earlier : List Returned) (s : Passkeys) : Prop where
  stored : n ≤ s.stored
  challenges : ∀ c ∈ s.challenges.rows, c.tenant = tenant → c.user = user → n ≤ c.serial
  returned : ∃ later, s.returned = earlier ++ later ∧ ∀ r ∈ later, r.row.tenant = tenant → r.row.user = user → n ≤ r.row.serial

theorem Recovered.step {n : Nat} {tenant user : String} {earlier : List Returned} (h : Recovered n tenant user earlier s)
    (e : PasskeyEvent) : Recovered n tenant user earlier (s.step decode e) := by
  obtain ⟨later, hlater, hall⟩ := h.returned
  rw [Passkeys.step]
  cases hok : performPasskeys decode s e with
  | error _ => exact h
  | ok s' =>
      dsimp only
      cases e with
      | read t u =>
          obtain ⟨⟨s₁, answer⟩, hread, rfl⟩ := map_eq_ok.mp hok
          rcases passkeyContext_eq_ok hread with rfl | rfl
          · exact h
          · exact ⟨h.stored, h.challenges, h.returned⟩
      | challenged now t u flow value =>
          obtain ⟨-, row, -, -, -, hstored⟩ := storeChallenge_eq_ok hok
          obtain ⟨rows, hsub, hrows, -⟩ := hstored.rows
          have hn := h.stored
          have hcount : s'.stored = s.stored + 1 := by rw [hstored.rest]
          refine ⟨by omega, fun c hc ht hu => ?_, later, by rw [hstored.rest]; exact hlater, hall⟩
          rw [hrows] at hc
          rcases List.mem_append.mp hc with hc | hc
          · exact h.challenges c (hsub.subset hc) ht hu
          · obtain rfl := List.mem_singleton.mp hc
            have hserial := hstored.serial
            omega
      | consumed now t u flow =>
          obtain ⟨⟨s₁, row⟩, hconsumed, rfl⟩ := map_eq_ok.mp hok
          obtain ⟨hmem, -, -, -, -, rfl⟩ := consume_eq_ok hconsumed
          refine ⟨h.stored, fun c hc => h.challenges c (List.mem_filter.mp hc).1, later ++ [⟨row, now⟩], ?_, fun r hr => ?_⟩
          · show s.returned ++ _ = _
            rw [hlater, List.append_assoc]
          · rcases List.mem_append.mp hr with hr | hr
            · exact hall r hr
            · obtain rfl := List.mem_singleton.mp hr
              exact h.challenges row hmem
      | saved t u generation value previous =>
          obtain ⟨-, hrest, -⟩ := save_eq_ok hok
          rw [hrest]
          exact ⟨h.stored, h.challenges, h.returned⟩
      | reset t u =>
          obtain rfl := resetPasskeys_eq_ok hok
          exact ⟨h.stored, fun c hc => h.challenges c (List.mem_filter.mp hc).1, h.returned⟩
      | account t u active =>
          cases hok
          exact ⟨h.stored, h.challenges, h.returned⟩
      | setting t mandatory =>
          cases hok
          exact ⟨h.stored, h.challenges, h.returned⟩

theorem Recovered.of_reset {s' : Passkeys} {tenant user : String} (hok : resetPasskeys s tenant user = .ok s') :
    Recovered s.stored tenant user s'.returned s' := by
  obtain rfl := resetPasskeys_eq_ok hok
  refine ⟨le_rfl, fun c hc ht hu => ?_, [], (List.append_nil _).symm, fun r hr => by cases hr⟩
  obtain ⟨-, hne⟩ := List.mem_filter.mp hc
  simp [ht, hu] at hne

theorem sessionAllowed_mandatory {tenant user : String} {assurance : Option String} {generation : Option Int}
    (h : sessionAllowed s tenant user assurance generation = true) (hm : s.mandatory tenant = true) :
    ∃ g, generation = some g ∧ s.generation tenant user = some g ∧ ∃ k ∈ s.keys.rows, k.owner = (tenant, user) := by
  simp only [sessionAllowed, hm, Bool.not_true, Bool.false_or, Bool.and_eq_true, beq_iff_eq, List.any_eq_true,
    Option.isSome_iff_exists] at h
  obtain ⟨-, ⟨⟨-, g, rfl⟩, hg⟩, k, hk, howner⟩ := h
  exact ⟨g, rfl, hg, k, hk, belongs_iff.mp howner⟩

variable (decode) in
theorem run_later (h : Current s) (later : List PasskeyEvent) : Later s (run (Passkeys.step decode) s later) :=
  run_related (fun _ => Later.of_states rfl) Later.trans (fun _ e hc => hc.step e) h later

variable (decode : String → Option (List UInt8)) (active : String → String → Bool) (mandatory : String → Bool)

def passkeysAfter (events : List PasskeyEvent) : Passkeys := run (Passkeys.step decode) (.start active mandatory) events

theorem passkeysAfter_current (events : List PasskeyEvent) : Current (passkeysAfter decode active mandatory events) := by
  refine run_invariant_always (fun _ e hc => (hc.step e).1) ?_ events
  exact ⟨fun _ h => (by cases h), fun _ h => (by cases h), List.nodup_nil, List.nodup_nil, fun _ h => (by cases h),
    fun _ h => (by cases h)⟩

/-- Challenges are returned at most once and in time, credentials are of the
current generation, and nothing of a user from before a recovery is of use after
it. Others are not affected, except that expired challenges of the tenant are
swept. -/
theorem recovery_final (events later : List PasskeyEvent) :
    let s := passkeysAfter decode active mandatory events
    (s.returned.map fun r => r.row.serial).Nodup ∧ (∀ r ∈ s.returned, r.time < r.row.expiresAt) ∧
    (∀ k ∈ s.keys.rows, ∀ k' ∈ s.keys.rows, k.owner = k'.owner → k = k') ∧
    (∀ k ∈ s.keys.rows, s.generation k.tenant k.user = some k.enrolled) ∧
    (∀ tenant user s₁, resetPasskeys s tenant user = .ok s₁ →
      let s₂ := run (Passkeys.step decode) s₁ later
      ∃ g, s₁.generation tenant user = some g ∧
        (∀ k ∈ s₂.keys.rows, k.owner = (tenant, user) → g ≤ k.enrolled) ∧
        (∀ now flow value s₃, storeChallenge s₂ now tenant user flow value = .ok s₃ → g ≤ value.generation) ∧
        (∀ generation value previous s₃, save s₂ decode tenant user generation value previous = .ok s₃ → g ≤ generation) ∧
        ∃ added, s₂.returned = s₁.returned ++ added ∧
          ∀ r ∈ added, r.row.tenant = tenant → r.row.user = user → s.stored ≤ r.row.serial) ∧
    (∀ tenant user assurance generation, sessionAllowed s tenant user assurance generation = true → s.mandatory tenant = true →
      ∃ g, generation = some g ∧ s.generation tenant user = some g ∧ ∃ k ∈ s.keys.rows, k.owner = (tenant, user)) ∧
    Later s (run (Passkeys.step decode) s later) ∧
    ∀ e tenant user, e.actor = some (tenant, user) → Untouched e s (s.step decode e) tenant user := by
  intro s
  have hs : Current s := passkeysAfter_current decode active mandatory events
  refine ⟨hs.once, fun r hr => (hs.returned r hr).2, fun k hk k' hk' => Table.eq_of_key hk hk', hs.keys,
    fun tenant user s₁ hok => ?_,
    fun _ _ _ _ => sessionAllowed_mandatory, run_later decode hs later, fun e tenant user he => ?_⟩
  · intro s₂
    have hs₁ : Current s₁ := (hs.reset hok).1
    have hs₂ : Current s₂ := run_invariant_always (fun _ e hc => (hc.step e).1) hs₁ later
    obtain ⟨g, hg⟩ : ∃ g, s₁.generation tenant user = some g := by
      obtain rfl := resetPasskeys_eq_ok hok
      exact ⟨_, find_renewState _ _ _⟩
    obtain ⟨g', hg', hle⟩ := run_later decode hs₁ later tenant user g hg
    have hnow : ∀ other, s₂.generation tenant user = some other → g ≤ other := by
      intro other hother
      obtain rfl := Option.some.inj (hg'.symm.trans hother)
      exact hle
    have hrecovered : Recovered s.stored tenant user s₁.returned s₂ :=
      run_invariant_always (fun _ e hr => hr.step e) (.of_reset hok) later
    refine ⟨g, hg, fun k hk howner => hnow _ ?_, fun now flow value s₃ hstore => hnow _ (storeChallenge_eq_ok hstore).1,
      fun generation value previous s₃ hsave => hnow _ (save_eq_ok hsave).1, hrecovered.returned⟩
    obtain ⟨ht, hu⟩ := Prod.mk.inj howner
    rw [← ht, ← hu]
    exact hs₂.keys k hk
  · rw [Passkeys.step]
    cases hok : performPasskeys decode s e with
    | ok s' => exact perform_untouched he hok
    | error _ => exact .refl _ _ _ _

def swept : List PasskeyEvent :=
  [.read "acme" "alice", .read "acme" "bob",
    .challenged 0 "acme" "bob" "0123456789012345678901234567890123456789012" ⟨0, "b", "registration"⟩,
    .challenged 300000 "acme" "alice" "9123456789012345678901234567890123456789012" ⟨0, "a", "registration"⟩]

theorem challenges_swept :
    ((passkeysAfter (fun _ => none) (fun _ _ => true) (fun _ => true) (swept.take 3)).challenges.rows.map
      PasskeyChallenge.user) = ["bob"] ∧
    ((passkeysAfter (fun _ => none) (fun _ _ => true) (fun _ => true) swept).challenges.rows.map
      PasskeyChallenge.user) = ["alice"] := by
  decide

end Runs

end Galadril.Iam
