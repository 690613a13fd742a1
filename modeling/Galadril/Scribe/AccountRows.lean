import Galadril.Scribe.Accounts

namespace Galadril.Scribe

open Lib Lib.Checked

variable {db db' : Database} {now : Int} {owner id lease state : String} {saved : Option Registration}
  {registration : Registration}

theorem find_update_row (t : Table AccountRow.key) (f : AccountRow → AccountRow) (hf : ∀ r, (f r).key = r.key)
    (k k' : String × String) :
    (t.update (·.key == k) f hf).find k' = if k' = k then (t.find k).map f else t.find k' := by
  have hkey : (fun r : AccountRow => r.key == k) = fun r => decide (r.key = k) := by
    funext r
    rw [beq_eq_decide]
  simp only [hkey]
  refine (Table.find_update_key t f hf k k').trans ?_
  split
  · next h => rw [h]
  · rfl

theorem find_unselected (t : Table AccountRow.key) (owner : String) (k : String × String) :
    (unselected t owner).find k = (t.find k).map fun r => if r.owner = owner then { r with selected := false } else r := by
  rw [unselected, Table.find_update]
  simp

theorem reserve_eq_ok {expires : Int} {payload : Pending} (h : reserve db now owner state expires payload = .ok db') :
    (payload.registration = none → db.accountCount owner < 4) ∧ db'.accounts = db.accounts ∧
      ∀ p ∈ db'.pending.rows, p ∈ db.pending.rows ∨ p = ⟨state, owner, expires, payload⟩ := by
  simp only [reserve, bind_eq_ok, ensure_eq_ok, Bool.or_eq_true, decide_eq_true_eq] at h
  obtain ⟨_, -, _, hroom, _, -, h⟩ := h
  obtain rfl := pure_eq_ok.mp h
  refine ⟨fun hnone => hroom.resolve_left (by simp [hnone]), rfl, fun p hp => ?_⟩
  rcases Table.mem_insert hp with hp | ⟨rfl, -⟩
  · exact .inl (List.mem_filter.mp hp).1
  · exact .inr rfl

theorem mem_consume {p : PendingRow} :
    p ∈ (consume db now state).1.pending.rows ↔ p ∈ db.pending.rows ∧ p.state ≠ state := by
  simp [consume, Table.delete]

theorem consume_row {p : PendingRow} (h : (consume db now state).2 = some p) : p ∈ db.pending.rows ∧ p.state = state :=
  Table.find_eq_some.mp (Option.filter_eq_some_iff.mp h).1

theorem publish_eq_ok (h : publish db owner saved registration = .ok db') :
    (saved = none → db.accountCount owner < 4) ∧ db'.pending = db.pending ∧ ∀ key, db'.accounts.find key =
      if key = (owner, registration.id) then some ⟨owner, registration.id, true, registration, none, 0⟩
      else (db.accounts.find key).map fun r => if r.owner = owner then { r with selected := false } else r := by
  simp only [publish, bind_eq_ok, ensure_eq_ok, Bool.or_eq_true, decide_eq_true_eq] at h
  obtain ⟨_, hroom, h⟩ := h
  refine ⟨fun hnone => hroom.resolve_left (by simp [hnone]), ?_⟩
  split at h
  · next hsome =>
      obtain rfl := pure_eq_ok.mp h
      obtain ⟨old, hold⟩ := Option.isSome_iff_exists.mp hsome
      refine ⟨rfl, fun key => ?_⟩
      simp only [find_update_row]
      split
      · have hkey : old.key = (owner, registration.id) := Table.key_of_find hold
        obtain ⟨rfl, hid⟩ := Prod.mk.inj hkey
        rw [hold, ← hid]
        rfl
      · exact find_unselected _ _ _
  · next hnone =>
      rw [Bool.not_eq_true, Option.isSome_eq_false_iff, Option.isNone_iff_eq_none] at hnone
      obtain rfl := pure_eq_ok.mp h
      refine ⟨rfl, fun key => (Table.find_insert hnone key).trans ?_⟩
      by_cases hk : key = (owner, registration.id)
      · rw [if_pos hk, if_pos hk.symm]
      · rw [if_neg hk, if_neg (Ne.symm hk)]
        exact find_unselected _ _ _

theorem publish_new (h : publish db owner saved registration = .ok db')
    (hnew : db.accounts.find (owner, registration.id) = none) :
    db'.accounts = (unselected db.accounts owner).insert ⟨owner, registration.id, true, registration, none, 0⟩ := by
  simp only [publish, bind_eq_ok, ensure_eq_ok] at h
  obtain ⟨_, -, h⟩ := h
  have habsent : (unselected db.accounts owner).find (owner, registration.id) = none := by
    rw [find_unselected, hnew]
    rfl
  rw [habsent] at h
  obtain rfl := pure_eq_ok.mp h
  rfl

theorem publish_accepts (hsaved : saved.isSome = true) : Accepts (publish db owner saved registration) := by
  simp only [publish, hsaved, Bool.true_or, ensure_true, ok_bind]
  split <;> exact ⟨_, rfl⟩

theorem selected_row {row : AccountRow} (h : (db.accounts.rows.find? fun r => r.owner == owner && r.selected) = some row) :
    row ∈ db.accounts.rows ∧ row.owner = owner := by
  have hp := List.find?_some h
  simp only [Bool.and_eq_true, beq_iff_eq] at hp
  exact ⟨List.mem_of_find?_eq_some h, hp.1⟩

theorem claim_eq_renewal {row : Registration} (h : claim db now owner lease = .ok (db', .renewal row)) :
    ∃ r ∈ db.accounts.rows, r.owner = owner ∧ r.payload = row ∧ row.tokens.isSome = true ∧ db'.pending = db.pending ∧
      ∀ key, db'.accounts.find key = if key = (owner, row.id) then (db.accounts.find (owner, row.id)).map fun r => { r with
        lease := some lease
        leaseExpires := now + 30 } else db.accounts.find key := by
  unfold claim at h
  split at h
  · cases h
  · next r hr =>
      split at h
      · cases h
      · next tokens htokens =>
          repeat' split at h
          all_goals cases h
          obtain ⟨hmem, howner⟩ := selected_row hr
          exact ⟨r, hmem, howner, rfl, by simp [htokens], rfl, fun key => by simp only [find_update_row]⟩

theorem leased_eq_some {row : AccountRow} :
    db.leased owner id lease = some row ↔ db.accounts.find (owner, id) = some row ∧ row.lease = some lease := by
  simp [Database.leased, Option.filter_eq_some_iff]

theorem finish_eq_ok {clear : Bool} (h : finish db owner registration lease clear = .ok db') :
    ∃ row, db.leased owner registration.id lease = some row ∧ db'.pending = db.pending ∧
      ∀ key, db'.accounts.find key = if key = (owner, registration.id) then some { row with
        payload := { row.payload with
          tokens := if clear then none else registration.tokens
          expiresAt := if clear then 0 else registration.expiresAt }
        lease := none
        leaseExpires := 0 } else db.accounts.find key := by
  simp only [finish, bind_eq_ok, context_eq_ok] at h
  obtain ⟨row, hrow, h⟩ := h
  obtain rfl := pure_eq_ok.mp h
  obtain ⟨hfind, hlease⟩ := leased_eq_some.mp hrow
  refine ⟨row, hrow, rfl, fun key => ?_⟩
  simp only [Table.find_update]
  by_cases hk : key = (owner, registration.id)
  · have hkey : row.key = (owner, registration.id) := Table.key_of_find hfind
    subst hk
    rw [hfind, Option.map_some, if_pos rfl, if_pos (by simp [hlease, hkey])]
  · rw [if_neg hk]
    cases hf : db.accounts.find key with
    | none => rfl
    | some r =>
        have hkey : r.key = key := Table.key_of_find hf
        rw [Option.map_some, if_neg (by simp [hkey, hk])]

theorem choose_eq_ok (h : choose db owner id = .ok db') : db'.pending = db.pending ∧
    ∀ key, db'.accounts.find key =
      (db.accounts.find key).map fun r => if r.owner = owner then { r with selected := r.id == id } else r := by
  simp only [choose, bind_eq_ok] at h
  obtain ⟨_, -, h⟩ := h
  obtain rfl := pure_eq_ok.mp h
  refine ⟨rfl, fun key => ?_⟩
  simp only [Table.find_update]
  simp

theorem remove_eq_ok (h : remove db owner id = .ok db') : ∃ row, db.accounts.find (owner, id) = some row ∧
    (∀ p ∈ db'.pending.rows, p ∈ db.pending.rows ∧ p.owner ≠ owner) ∧
    ∀ key, db'.accounts.find key = if key = (owner, id) then some { row with
      payload := { row.payload with
        tokens := none
        expiresAt := 0 }
      lease := none
      leaseExpires := 0 } else db.accounts.find key := by
  simp only [remove, bind_eq_ok, context_eq_ok] at h
  obtain ⟨row, hrow, h⟩ := h
  obtain rfl := pure_eq_ok.mp h
  refine ⟨row, hrow, fun p hp => by simpa [Table.delete] using hp, fun key => ?_⟩
  simp only [find_update_row]
  rw [hrow]
  rfl

theorem update_eq_ok {change : Change} (h : update db owner id change = .ok db') :
    ∃ row, db.accounts.find (owner, id) = some row ∧ db'.pending = db.pending ∧
      ∀ key, db'.accounts.find key = if key = (owner, id) then some { row with payload := change.apply row.payload }
        else db.accounts.find key := by
  simp only [update, bind_eq_ok, context_eq_ok] at h
  obtain ⟨row, hrow, h⟩ := h
  obtain rfl := pure_eq_ok.mp h
  refine ⟨row, hrow, rfl, fun key => ?_⟩
  simp only [find_update_row]
  rw [hrow]
  rfl

structure Kept (db : Database) (drawn : List String) : Prop where
  few : ∀ owner, db.accountCount owner ≤ 4
  single : ∀ r ∈ db.accounts.rows, ∀ s ∈ db.accounts.rows, r.owner = s.owner → r.selected = true → s.selected = true → r = s
  named : ∀ r ∈ db.accounts.rows, r.payload.id = r.id ∧ r.id ∈ drawn

def Keeps (db db' : Database) : Prop := ∀ key r, db.accounts.find key = some r → ∃ r', db'.accounts.find key = some r' ∧
  r'.payload.clientId = r.payload.clientId ∧ r'.payload.subject = r.payload.subject

def Known (db : Database) (owner : String) (saved : Option Registration) : Prop := ∀ s, saved = some s →
  ∃ r, db.accounts.find (owner, s.id) = some r ∧ r.payload.clientId = s.clientId ∧ r.payload.subject = s.subject

variable {drawn drawn' : List String}

theorem Keeps.of_accounts (h : db'.accounts = db.accounts) : Keeps db db' := by
  intro key r hr
  exact ⟨r, h ▸ hr, rfl, rfl⟩

theorem Known.mono (h : Known db owner saved) (hk : Keeps db db') : Known db' owner saved := by
  intro s hs
  obtain ⟨r, hr, hclient, hsubject⟩ := h s hs
  obtain ⟨r', hr', hclient', hsubject'⟩ := hk _ r hr
  exact ⟨r', hr', hclient'.trans hclient, hsubject'.trans hsubject⟩

theorem kept_empty : Kept .empty drawn := by
  refine ⟨fun owner => ?_, fun r hr => ?_, fun r hr => ?_⟩
  · simp [Database.accountCount, Table.count, Database.empty, Table.empty]
  · cases hr
  · cases hr

theorem Kept.of_accounts (h : Kept db drawn) (haccounts : db'.accounts = db.accounts) (hdrawn : drawn ⊆ drawn') :
    Kept db' drawn' := by
  refine ⟨fun owner => ?_, ?_, fun r hr => ?_⟩
  · rw [Database.accountCount, haccounts]
    exact h.few owner
  · rw [haccounts]
    exact h.single
  · rw [haccounts] at hr
    exact ⟨(h.named r hr).1, hdrawn (h.named r hr).2⟩

theorem accountCount_le (h : ∀ r ∈ db'.accounts.rows, r.owner = owner → (db.accounts.find r.key).isSome = true) :
    db'.accountCount owner ≤ db.accountCount owner := by
  have hkeys : ((db'.accounts.rows.filter (·.owner == owner)).map AccountRow.key).Nodup :=
    db'.accounts.keyed.sublist (List.filter_sublist.map _)
  have hle := Table.length_le_count (t := db.accounts) (p := (·.owner == owner)) hkeys fun key hkey => by
    obtain ⟨r, hr, rfl⟩ := List.mem_map.mp hkey
    obtain ⟨hr, howner⟩ := List.mem_filter.mp hr
    rw [beq_iff_eq] at howner
    obtain ⟨s, hs⟩ := Option.isSome_iff_exists.mp (h r hr howner)
    have hkey : s.key = r.key := Table.key_of_find hs
    exact ⟨s, hs, by simpa [howner] using congrArg Prod.fst hkey⟩
  rwa [List.length_map, ← List.countP_eq_length_filter] at hle

variable {f : String × String → AccountRow → AccountRow}

theorem mem_rewritten (hfind : ∀ key, db'.accounts.find key = (db.accounts.find key).map (f key)) {r : AccountRow}
    (hr : r ∈ db'.accounts.rows) : ∃ old ∈ db.accounts.rows, old.key = r.key ∧ r = f r.key old := by
  have hrow : db'.accounts.find r.key = some r := Table.find_eq_some.mpr ⟨hr, rfl⟩
  rw [hfind, Option.map_eq_some_iff] at hrow
  obtain ⟨old, hold, he⟩ := hrow
  obtain ⟨hmem, hkey⟩ := Table.find_eq_some.mp hold
  exact ⟨old, hmem, hkey, he.symm⟩

theorem Kept.rewrite (h : Kept db drawn) (hfind : ∀ key, db'.accounts.find key = (db.accounts.find key).map (f key))
    (hf : ∀ r ∈ db.accounts.rows, (f r.key r).payload.id = r.payload.id)
    (hselected : (∀ r ∈ db.accounts.rows, (f r.key r).selected = r.selected) ∨
      ∃ key : String × String, ∀ r ∈ db.accounts.rows, (f r.key r).selected = true →
        r.key = key ∨ r.selected = true ∧ r.owner ≠ key.1) : Kept db' drawn := by
  have hold : ∀ r ∈ db'.accounts.rows, ∃ old ∈ db.accounts.rows, old.key = r.key ∧ r = f r.key old :=
    fun r hr => mem_rewritten hfind hr
  refine ⟨fun owner => (accountCount_le fun r hr _ => ?_).trans (h.few owner), fun r hr s hs howner hselr hsels => ?_,
    fun r hr => ?_⟩
  · obtain ⟨old, hmem, hkey, -⟩ := hold r hr
    rw [← hkey, Table.find_eq_some.mpr ⟨hmem, rfl⟩]
    rfl
  · apply Table.eq_of_key hr hs
    obtain ⟨r', hr', hrk, hre⟩ := hold r hr
    obtain ⟨s', hs', hsk, hse⟩ := hold s hs
    have hro : r'.owner = r.owner := congrArg Prod.fst hrk
    have hso : s'.owner = s.owner := congrArg Prod.fst hsk
    rw [hre, ← hrk] at hselr
    rw [hse, ← hsk] at hsels
    rw [← hrk, ← hsk]
    have hboth : r'.selected = true → s'.selected = true → r'.key = s'.key := by
      intro h1 h2
      rw [h.single r' hr' s' hs' (by rw [hro, hso, howner]) h1 h2]
    rcases hselected with hsame | ⟨key, hkey⟩
    · exact hboth ((hsame r' hr').symm.trans hselr) ((hsame s' hs').symm.trans hsels)
    · rcases hkey r' hr' hselr with hr1 | ⟨hr1, hr2⟩
      · rcases hkey s' hs' hsels with hs1 | ⟨hs1, hs2⟩
        · rw [hr1, hs1]
        · exact absurd (by rw [hso, ← howner, ← hro, ← hr1]) hs2
      · rcases hkey s' hs' hsels with hs1 | ⟨hs1, hs2⟩
        · exact absurd (by rw [hro, howner, ← hso, ← hs1]) hr2
        · exact hboth hr1 hs1
  · obtain ⟨old, hmem, hkey, he⟩ := hold r hr
    obtain ⟨hid, hdrawn⟩ := h.named old hmem
    have hids : old.id = r.id := congrArg Prod.snd hkey
    rw [← hids]
    refine ⟨?_, hdrawn⟩
    rw [he, ← hkey, hf old hmem, hid]

theorem Kept.replace (h : Kept db drawn) {key : String × String} {row new : AccountRow}
    (hrow : db.accounts.find key = some row)
    (hfind : ∀ k, db'.accounts.find k = if k = key then some new else db.accounts.find k)
    (hselected : new.selected = row.selected) (hid : new.payload.id = row.payload.id) : Kept db' drawn := by
  have hreplaced : ∀ k, db'.accounts.find k = (db.accounts.find k).map fun r => if k = key then new else r := by
    intro k
    rw [hfind]
    split
    · next hk => simp [hk, hrow]
    · simp
  have hsame : ∀ r ∈ db.accounts.rows, r.key = key → r = row := fun r hr hk =>
    Option.some.inj ((Table.find_eq_some.mpr ⟨hr, hk⟩).symm.trans hrow)
  refine h.rewrite hreplaced (fun r hr => ?_) (.inl fun r hr => ?_)
  · split
    · next hk => rw [hid, hsame r hr hk]
    · rfl
  · split
    · next hk => rw [hselected, hsame r hr hk]
    · rfl

theorem Keeps.replace {key : String × String} {row new : AccountRow} (hrow : db.accounts.find key = some row)
    (hfind : ∀ k, db'.accounts.find k = if k = key then some new else db.accounts.find k)
    (hclient : new.payload.clientId = row.payload.clientId) (hsubject : new.payload.subject = row.payload.subject) :
    Keeps db db' := by
  intro k r hr
  rw [hfind]
  split
  · next hk =>
      subst hk
      obtain rfl := Option.some.inj (hr.symm.trans hrow)
      exact ⟨new, rfl, hclient, hsubject⟩
  · exact ⟨r, hr, rfl, rfl⟩

structure Publishable (db : Database) (drawn : List String) (owner : String) (saved : Option Registration)
    (registration : Registration) : Prop where
  known : Known db owner saved
  renews : ∀ s, saved = some s →
    registration.id = s.id ∧ registration.clientId = s.clientId ∧ registration.subject = s.subject
  fresh : saved = none → registration.id ∉ drawn

theorem Publishable.absent (hp : Publishable db drawn owner saved registration) (h : Kept db drawn) (hsaved : saved = none) :
    db.accounts.find (owner, registration.id) = none := by
  refine Table.find_eq_none.mpr fun r hr hkey => hp.fresh hsaved ?_
  have hid : r.id = registration.id := congrArg Prod.snd hkey
  exact hid ▸ (h.named r hr).2

theorem Kept.publish (h : Kept db drawn) (hp : Publishable db drawn owner saved registration) (hdrawn : drawn ⊆ drawn')
    (hid : saved = none → registration.id ∈ drawn') (hok : publish db owner saved registration = .ok db') :
    Kept db' drawn' := by
  obtain ⟨hroom, -, hfind⟩ := publish_eq_ok hok
  cases hsaved : saved with
  | some s =>
      obtain ⟨hsame, -, -⟩ := hp.renews s hsaved
      obtain ⟨row, hrow, -, -⟩ := hp.known s hsaved
      rw [← hsame] at hrow
      have hrewritten : ∀ key, db'.accounts.find key = (db.accounts.find key).map fun r =>
          if key = (owner, registration.id) then ⟨owner, registration.id, true, registration, none, 0⟩
          else if r.owner = owner then { r with selected := false } else r := by
        intro key
        rw [hfind]
        split
        · next hk => simp [hk, hrow]
        · rfl
      have hkept : Kept db' drawn := by
        refine h.rewrite hrewritten (fun r hr => ?_) (.inr ⟨(owner, registration.id), fun r hr => ?_⟩)
        · split
          · next hk =>
              rw [(h.named r hr).1]
              exact (congrArg Prod.snd hk).symm
          · split <;> rfl
        · split
          · next hk => exact fun _ => .inl hk
          · split
            · rintro ⟨⟩
            · next ho => exact fun hsel => .inr ⟨hsel, ho⟩
      exact hkept.of_accounts rfl hdrawn
  | none =>
      have hnew := hp.absent h hsaved
      have haccounts := publish_new hok hnew
      have habsent : (unselected db.accounts owner).find (owner, registration.id) = none := by
        rw [find_unselected, hnew]
        rfl
      have hold : ∀ r ∈ (unselected db.accounts owner).rows, ∃ old ∈ db.accounts.rows, old.key = r.key ∧
          r.payload = old.payload ∧ (r.selected = true → old.selected = true ∧ r.owner ≠ owner) := by
        intro r hr
        obtain ⟨old, hmem, rfl⟩ := List.mem_map.mp hr
        refine ⟨old, hmem, ?_⟩
        split
        · exact ⟨rfl, rfl, by simp⟩
        · next ho => exact ⟨rfl, rfl, fun hsel => ⟨hsel, by simpa using ho⟩⟩
      refine ⟨fun o => ?_, fun r hr t ht howner hselr hselt => ?_, fun r hr => ?_⟩
      · rw [Database.accountCount, haccounts, Table.count_insert habsent]
        have hle : (unselected db.accounts owner).count (·.owner == o) ≤ db.accountCount o := by
          apply Table.count_update_le
          exact fun r _ _ ho => ho
        by_cases ho : owner = o
        · subst ho
          have := hroom hsaved
          rw [if_pos (by simp)]
          omega
        · rw [if_neg (by simpa using ho)]
          exact hle.trans (h.few o)
      · rw [haccounts] at hr ht
        rcases Table.mem_insert hr with hr | ⟨rfl, -⟩
        · obtain ⟨r', hr', hrk, -, hrs⟩ := hold r hr
          rcases Table.mem_insert ht with ht | ⟨rfl, -⟩
          · obtain ⟨t', ht', htk, -, hts⟩ := hold t ht
            have hsame := h.single r' hr' t' ht' ((congrArg Prod.fst hrk).trans (howner.trans (congrArg Prod.fst htk).symm))
              (hrs hselr).1 (hts hselt).1
            exact Table.eq_of_key hr ht (by rw [← hrk, ← htk, hsame])
          · exact absurd howner (hrs hselr).2
        · rcases Table.mem_insert ht with ht | ⟨rfl, -⟩
          · obtain ⟨t', ht', htk, -, hts⟩ := hold t ht
            exact absurd howner.symm (hts hselt).2
          · rfl
      · rw [haccounts] at hr
        rcases Table.mem_insert hr with hr | ⟨rfl, -⟩
        · obtain ⟨r', hr', hrk, hpayload, -⟩ := hold r hr
          obtain ⟨hname, hmem⟩ := h.named r' hr'
          have hids : r'.id = r.id := congrArg Prod.snd hrk
          rw [hpayload, hname, ← hids]
          exact ⟨rfl, hdrawn hmem⟩
        · exact ⟨rfl, hid hsaved⟩

theorem Keeps.publish (h : Kept db drawn) (hp : Publishable db drawn owner saved registration)
    (hok : publish db owner saved registration = .ok db') : Keeps db db' := by
  obtain ⟨-, -, hfind⟩ := publish_eq_ok hok
  intro key r hr
  rw [hfind]
  split
  · next hk =>
      subst hk
      cases hsaved : saved with
      | some s =>
          obtain ⟨hid, hclient, hsubject⟩ := hp.renews s hsaved
          obtain ⟨row, hrow, hrowClient, hrowSubject⟩ := hp.known s hsaved
          rw [← hid] at hrow
          obtain rfl := Option.some.inj (hr.symm.trans hrow)
          exact ⟨_, rfl, hclient.trans hrowClient.symm, hsubject.trans hrowSubject.symm⟩
      | none => simp [hp.absent h hsaved] at hr
  · rw [hr, Option.map_some]
    refine ⟨_, rfl, ?_⟩
    split <;> exact ⟨rfl, rfl⟩

theorem Kept.choose (h : Kept db drawn) (hok : choose db owner id = .ok db') : Kept db' drawn ∧ Keeps db db' := by
  obtain ⟨-, hfind⟩ := choose_eq_ok hok
  refine ⟨h.rewrite hfind (fun r hr => ?_) (.inr ⟨(owner, id), fun r hr => ?_⟩), fun key r hr => ?_⟩
  · split <;> rfl
  · split
    · next ho => exact fun hsel => .inl (Prod.ext ho (by simpa using hsel))
    · next ho => exact fun hsel => .inr ⟨hsel, ho⟩
  · rw [hfind, hr, Option.map_some]
    refine ⟨_, rfl, ?_⟩
    split <;> exact ⟨rfl, rfl⟩

end Galadril.Scribe
