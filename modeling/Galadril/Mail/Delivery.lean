import Galadril.Mail.Drafts
import Galadril.Lib.Transitions

namespace Galadril.Mail

open Lib Lib.Checked Lib.Transitions

/-- Who lets a draft go: an actor with the rights held at the time, or the
limits of the automatic replies. -/
inductive Approval
  | human (actor : Principal) (held : List Right)
  | automatic

inductive Entry
  | saved (k : String × String) (draft : String) (revision : Nat) (content : DraftInput)
  | approved (k : String × String) (draft : String) (revision : Nat) (approval : Approval)
  | updated (k : String × String)
  | claimed (k : String × String) (draft : String) (revision : Nat) (content : DraftInput)

/-- The mail store and what its transactions have done. -/
structure Mailroom where
  store : MailStore
  log : List Entry

inductive Request
  | saveDraft (now : Int) (actor : Principal) (identifier : String) (issued : Issued) (saving : Saving)
  | approve (actor : Principal) (identifier draftId : String) (revision : Nat)
  | approveAutomatic (now : Int) (actor : Principal) (identifier draftId : String) (source : MailMessage)
      (policy : Option ResponseProfile) (sourceAccount : Option String)
  | update (actor : Principal) (identifier : String) (revision : Nat) (value : ConnectionInput)
      (credentials : Option CredentialUpdate)
  | claimSend (actor : Principal) (identifier draftId : String) (revision : Nat)
  | finishSend (actor : Principal) (identifier draftId : String) (success : Bool)
  | delete (actor : Principal) (identifier : String) (revision : Nat)

def heldRights (s : MailStore) (actor : Principal) (identifier : String) : List Right :=
  match s.get (actor.tenant, identifier) with
  | some a => a.rightsOf actor.user
  | none => []

variable (env : Engine)

def Mailroom.perform (w : Mailroom) : Request → Except String Mailroom
  | .saveDraft now actor identifier issued saving => do
      let (row, store) ← saveDraft env w.store now actor identifier issued saving
      return ⟨store, w.log ++ [.saved (actor.tenant, identifier) row.id row.revision row.content]⟩
  | .approve actor identifier draftId revision => do
      let store ← approve w.store actor identifier draftId revision
      return ⟨store, w.log ++
        [.approved (actor.tenant, identifier) draftId revision (.human actor (heldRights w.store actor identifier))]⟩
  | .approveAutomatic now actor identifier draftId source policy sourceAccount => do
      let store ← approveAutomatic env w.store now actor identifier draftId source policy sourceAccount
      let revision := ((w.store.get (actor.tenant, identifier)).bind fun a => (a.drafts.find draftId).map DraftRow.revision).getD 0
      return ⟨store, w.log ++ [.approved (actor.tenant, identifier) draftId revision .automatic]⟩
  | .update actor identifier revision value credentials => do
      let store ← update w.store actor identifier revision value credentials
      return ⟨store, w.log ++ [.updated (actor.tenant, identifier)]⟩
  | .claimSend actor identifier draftId revision => do
      let (content, store) ← claimSend w.store actor identifier draftId revision
      return ⟨store, w.log ++ [.claimed (actor.tenant, identifier) draftId revision content]⟩
  | .finishSend actor identifier draftId success => do
      let store ← finishSend w.store actor identifier draftId success
      return { w with store }
  | .delete actor identifier revision => do
      let store ← delete w.store actor identifier revision
      return { w with store }

/-- A transaction that raises is rolled back. -/
def Mailroom.step (w : Mailroom) (r : Request) : Mailroom :=
  match w.perform env r with
  | .ok w' => w'
  | .error _ => w

def Mailroom.Fresh (w : Mailroom) : Prop :=
  w.log = [] ∧ ∀ k a, w.store.get k = some a → a.drafts.rows = [] ∧ a.autoActions.rows = []

section Evidence

variable (k : String × String) (draft : String)

def Entry.saves : Entry → Prop
  | .saved k' d _ _ => k' = k ∧ d = draft
  | _ => False

def Entry.updates : Entry → Prop
  | .updated k' => k' = k
  | _ => False

def Entry.claims : Entry → Prop
  | .claimed k' d _ _ => k' = k ∧ d = draft
  | _ => False

def LastSaved (revision : Nat) (content : DraftInput) (log : List Entry) : Prop :=
  ∃ before after, log = before ++ .saved k draft revision content :: after ∧ ∀ e ∈ after, ¬ e.saves k draft

def Approved (revision : Nat) (log : List Entry) : Prop :=
  ∃ before approval after, log = before ++ .approved k draft revision approval :: after ∧
    (∀ actor held, approval = .human actor held → Right.approve ∈ held) ∧
    ∀ e ∈ after, ¬ e.saves k draft ∧ ¬ e.updates k

def Unclaimed (log : List Entry) : Prop := ∀ e ∈ log, ¬ e.claims k draft

variable {k draft} {revision : Nat} {content : DraftInput} {log : List Entry} {e : Entry}

theorem LastSaved.snoc (h : LastSaved k draft revision content log) (he : ¬ e.saves k draft) :
    LastSaved k draft revision content (log ++ [e]) := by
  obtain ⟨before, after, rfl, hafter⟩ := h
  refine ⟨before, after ++ [e], by simp, fun x hx => ?_⟩
  rcases List.mem_append.mp hx with hx | hx
  · exact hafter x hx
  · exact List.mem_singleton.mp hx ▸ he

theorem Approved.snoc (h : Approved k draft revision log) (hsaves : ¬ e.saves k draft) (hupdates : ¬ e.updates k) :
    Approved k draft revision (log ++ [e]) := by
  obtain ⟨before, approval, after, rfl, hheld, hafter⟩ := h
  refine ⟨before, approval, after ++ [e], by simp, hheld, fun x hx => ?_⟩
  rcases List.mem_append.mp hx with hx | hx
  · exact hafter x hx
  · exact List.mem_singleton.mp hx ▸ ⟨hsaves, hupdates⟩

theorem Unclaimed.snoc (h : Unclaimed k draft log) (he : ¬ e.claims k draft) : Unclaimed k draft (log ++ [e]) := by
  intro x hx
  rcases List.mem_append.mp hx with hx | hx
  · exact h x hx
  · exact List.mem_singleton.mp hx ▸ he

def Told (k : String × String) (draft : String) (log : List Entry) : Option DraftRow → Prop
  | none => Unclaimed k draft log
  | some row => LastSaved k draft row.revision row.content log ∧ row.content.reference ≠ "" ∧
      (row.status = .approved → Approved k draft row.revision log) ∧ (row.status.delivered = false → Unclaimed k draft log)

theorem Told.skip {row : Option DraftRow} (h : Told k draft log row) (hsaves : ¬ e.saves k draft) (hupdates : ¬ e.updates k)
    (hclaims : ¬ e.claims k draft) : Told k draft (log ++ [e]) row := by
  cases row with
  | none => exact Unclaimed.snoc h hclaims
  | some row =>
      obtain ⟨hsaved, hmark, happroved, hopen⟩ := h
      exact ⟨hsaved.snoc hsaves, hmark, fun hs => (happroved hs).snoc hsaves hupdates, fun hs => (hopen hs).snoc hclaims⟩

theorem Told.unclaimed {row : Option DraftRow} (h : Told k draft log row)
    (hopen : ∀ r, row = some r → r.status.delivered = false) : Unclaimed k draft log := by
  cases row with
  | none => exact h
  | some row => exact h.2.2.2 (hopen row rfl)

theorem Told.save {row' : DraftRow} (h : Unclaimed k draft log) (hstatus : row'.status = .draft)
    (hmark : row'.content.reference ≠ "") :
    Told k draft (log ++ [.saved k draft row'.revision row'.content]) (some row') := by
  refine ⟨⟨log, [], rfl, by simp⟩, hmark, fun happroved => ?_, fun _ => h.snoc (by simp [Entry.claims])⟩
  rw [hstatus] at happroved
  cases happroved

theorem Told.revoke {row : Option DraftRow} (h : Told k draft log row) :
    Told k draft (log ++ [.updated k]) (row.map DraftRow.revoke) := by
  cases row with
  | none => exact Unclaimed.snoc h (by simp [Entry.claims])
  | some row =>
      obtain ⟨hsaved, hmark, happroved, hopen⟩ := h
      have hsaved' := hsaved.snoc (e := .updated k) (by simp [Entry.saves])
      by_cases hstatus : row.status = .approved
      · have hrevoke : row.revoke = { row with
            approved := none
            status := .draft } := if_pos hstatus
        rw [Option.map_some, hrevoke]
        refine ⟨hsaved', hmark, fun h => (by cases h), fun _ => ?_⟩
        exact (hopen (by rw [hstatus]; rfl)).snoc (by simp [Entry.claims])
      · have hrevoke : row.revoke = row := if_neg hstatus
        rw [Option.map_some, hrevoke]
        refine ⟨hsaved', hmark, fun h => absurd h hstatus, fun hd => (hopen hd).snoc (by simp [Entry.claims])⟩

theorem Told.approve {row : DraftRow} (h : Told k draft log (some row)) (hopen : row.status.delivered = false)
    {approval : Approval} (hheld : ∀ actor held, approval = .human actor held → Right.approve ∈ held) :
    Told k draft (log ++ [.approved k draft row.revision approval]) (some row.approve) := by
  obtain ⟨hsaved, hmark, -, hunclaimed⟩ := h
  refine ⟨hsaved.snoc (by simp [Entry.saves]), hmark, fun _ => ⟨log, approval, [], rfl, hheld, by simp⟩, fun _ => ?_⟩
  exact (hunclaimed hopen).snoc (by simp [Entry.claims])

theorem Told.claim {row : DraftRow} (h : Told k draft log (some row)) (hstatus : row.status = .approved) :
    LastSaved k draft row.revision row.content log ∧ Approved k draft row.revision log ∧ Unclaimed k draft log := by
  obtain ⟨hsaved, -, happroved, hopen⟩ := h
  exact ⟨hsaved, happroved hstatus, hopen (by rw [hstatus]; rfl)⟩

theorem Told.deliver {row : DraftRow} (h : Told k draft log (some row)) {status : DraftStatus}
    (hdelivered : status.delivered = true) (hsaves : ¬ e.saves k draft) :
    Told k draft (log ++ [e]) (some { row with status }) := by
  obtain ⟨hsaved, hmark, -, -⟩ := h
  refine ⟨hsaved.snoc hsaves, hmark, fun h => ?_, fun h => ?_⟩
  · subst h
    cases hdelivered
  · exact absurd (hdelivered.symm.trans h) (by decide)

end Evidence

section Runs

structure Mailroom.Sound (w : Mailroom) : Prop where
  told : ∀ k a, w.store.get k = some a → ∀ draft, Told k draft w.log (a.drafts.find draft)
  claims : ∀ earlier later k draft revision content, w.log = earlier ++ .claimed k draft revision content :: later →
    LastSaved k draft revision content earlier ∧ Approved k draft revision earlier ∧ Unclaimed k draft later

variable {env : Engine} {w : Mailroom} {k : String × String} {a b : Account}

theorem claims_snoc {log : List Entry} {e : Entry}
    (h : ∀ earlier later k draft revision content, log = earlier ++ .claimed k draft revision content :: later →
      LastSaved k draft revision content earlier ∧ Approved k draft revision earlier ∧ Unclaimed k draft later)
    (he : ∀ k draft revision content, e = .claimed k draft revision content →
      LastSaved k draft revision content log ∧ Approved k draft revision log ∧ Unclaimed k draft log) :
    ∀ earlier later k draft revision content, log ++ [e] = earlier ++ .claimed k draft revision content :: later →
      LastSaved k draft revision content earlier ∧ Approved k draft revision earlier ∧ Unclaimed k draft later := by
  intro earlier later k draft revision content heq
  rcases List.eq_nil_or_concat later with rfl | ⟨front, last, rfl⟩
  · obtain ⟨rfl, hlast⟩ := List.append_inj' heq rfl
    obtain ⟨hsaved, happroved, -⟩ := he k draft revision content (List.singleton_inj.mp hlast)
    exact ⟨hsaved, happroved, by rintro _ ⟨⟩⟩
  · rw [List.concat_eq_append, ← List.cons_append, ← List.append_assoc] at heq
    obtain ⟨rfl, hlast⟩ := List.append_inj' heq rfl
    obtain rfl := List.singleton_inj.mp hlast
    obtain ⟨hsaved, happroved, hunclaimed⟩ := h earlier front k draft revision content rfl
    refine ⟨hsaved, happroved, ?_⟩
    rw [List.concat_eq_append]
    refine hunclaimed.snoc fun hclaims => ?_
    cases e with
    | claimed k' draft' revision' content' =>
        obtain ⟨rfl, rfl⟩ := hclaims
        have hnone := (he _ _ _ _ rfl).2.2
        exact hnone (.claimed k' draft' revision content) (by simp) ⟨rfl, rfl⟩
    | saved | approved | updated => exact hclaims

/-- A transaction that writes one account and reports on it alone. -/
theorem Mailroom.Sound.write (hs : w.Sound) (ha : w.store.get k = some a) {e : Entry}
    (htold : ∀ draft, Told k draft (w.log ++ [e]) (b.drafts.find draft))
    (hother : ∀ k', k' ≠ k → ∀ draft, ¬ e.saves k' draft ∧ ¬ e.updates k' ∧ ¬ e.claims k' draft)
    (hclaim : ∀ k draft revision content, e = .claimed k draft revision content →
      LastSaved k draft revision content w.log ∧ Approved k draft revision w.log ∧ Unclaimed k draft w.log) :
    Mailroom.Sound ⟨w.store.set k b, w.log ++ [e]⟩ where
  told k' a' ha' draft := by
    by_cases hk : k' = k
    · subst hk
      rw [Entries.get_set_self ha] at ha'
      obtain rfl := Option.some.inj ha'
      exact htold draft
    · rw [Entries.get_set_other b hk] at ha'
      obtain ⟨hsaves, hupdates, hclaims⟩ := hother k' hk draft
      exact (hs.told k' a' ha' draft).skip hsaves hupdates hclaims
  claims := claims_snoc hs.claims hclaim

theorem approve_writes {s t : MailStore} {actor : Principal} {identifier draftId : String} {revision : Nat}
    (h : approve s actor identifier draftId revision = .ok t) :
    ∃ a row, account s actor identifier .approve = .ok a ∧ a.drafts.find draftId = some row ∧ row.revision = revision ∧
      row.status.delivered = false ∧ t = s.set (actor.tenant, identifier) { a with
        drafts := a.drafts.update (·.id = draftId) DraftRow.approve approve_id } := by
  simp only [approve, bind_eq_ok, ensure_eq_ok, pure_eq_ok, Option.any_eq_true] at h
  obtain ⟨a, ha, _, ⟨row, hrow, hopen⟩, rfl⟩ := h
  simp only [Bool.and_eq_true, decide_eq_true_eq, Bool.not_eq_true'] at hopen
  exact ⟨a, row, ha, hrow, hopen.1, hopen.2, rfl⟩

theorem claimSend_writes {s t : MailStore} {actor : Principal} {identifier draftId : String} {revision : Nat}
    {content : DraftInput} (h : claimSend s actor identifier draftId revision = .ok (content, t)) :
    ∃ a row, account s actor identifier .send = .ok a ∧ a.config.enabled = true ∧ a.drafts.find draftId = some row ∧
      row.revision = revision ∧ row.status = .approved ∧ (row.content.reference ≠ "" → content = row.content) ∧
      t = s.set (actor.tenant, identifier) { a with
        drafts := a.drafts.update (·.id = draftId) (fun d => { d with status := .sending }) fun _ => rfl } := by
  simp only [claimSend, bind_eq_ok, ensure_eq_ok, pure_eq_ok, context_eq_ok, Option.filter_eq_some_iff,
    Bool.and_eq_true, decide_eq_true_eq, Prod.mk.injEq] at h
  obtain ⟨a, ha, _, henabled, row, ⟨hrow, ⟨hrevision, -⟩, hstatus⟩, content', hdecode, _, -, rfl, rfl⟩ := h
  obtain ⟨-, rfl⟩ := decodeDraft_eq_ok.mp hdecode
  refine ⟨a, row, ha, henabled, hrow, hrevision, hstatus, fun hmark => ?_, rfl⟩
  simp [hmark]

theorem approveAutomatic_writes {s t : MailStore} {now : Int} {actor : Principal} {identifier draftId : String}
    {source : MailMessage} {policy : Option ResponseProfile} {sourceAccount : Option String}
    (h : approveAutomatic env s now actor identifier draftId source policy sourceAccount = .ok t) :
    ∃ a row profile incoming, account s actor identifier .automate = .ok a ∧ a.drafts.find draftId = some row ∧
      row.status = .draft ∧ row.automatic = true ∧ policy.or a.profile = some profile ∧
      repliesOnly env profile a.config incoming source row.content = true ∧ a.usedToday now < profile.dailyLimit ∧
      (∀ limit, profile.senderDailyLimit = some limit → a.sentToday now (senderDigest env identifier source) < limit) ∧
      (profile.oneReplyPerThread = true → a.repliedTo (threadDigest env identifier source) = false) ∧
      t = s.set (actor.tenant, identifier) { a with
        autoActions := recordAction a.autoActions
          ⟨draftId, threadDigest env identifier source, senderDigest env identifier source, now⟩
        drafts := a.drafts.update (·.id = draftId) DraftRow.approve approve_id } := by
  simp only [approveAutomatic, bind_eq_ok, ensure_eq_ok, pure_eq_ok, context_eq_ok, Option.filter_eq_some_iff,
    Bool.and_eq_true, decide_eq_true_eq] at h
  obtain ⟨a, ha, _, -, profile, hprofile, row, ⟨hrow, hstatus, hautomatic⟩, content, hdecode, incoming, -, _, honly, _, hdaily,
    _, hsender, _, hthread, rfl⟩ := h
  obtain ⟨-, rfl⟩ := decodeDraft_eq_ok.mp hdecode
  refine ⟨a, row, profile, incoming, ha, hrow, hstatus, hautomatic, hprofile, honly, hdaily, fun limit hlimit => ?_,
    fun hone => ?_, rfl⟩
  · simpa [hlimit] using hsender
  · simpa [hone] using hthread

theorem Mailroom.Sound.approved (hs : w.Sound) (ha : w.store.get k = some a) {row : DraftRow} {draftId : String}
    (hrow : a.drafts.find draftId = some row) (hopen : row.status.delivered = false) {approval : Approval}
    (hheld : ∀ actor held, approval = .human actor held → Right.approve ∈ held)
    (hb : b.drafts = a.drafts.update (·.id = draftId) DraftRow.approve approve_id) :
    Mailroom.Sound ⟨w.store.set k b, w.log ++ [.approved k draftId row.revision approval]⟩ := by
  refine hs.write ha (fun draft => ?_) (fun k' hk draft => ⟨id, id, id⟩) (by rintro _ _ _ _ ⟨⟩)
  rw [hb, Table.find_update_key]
  by_cases hd : draft = draftId
  · subst hd
    rw [if_pos rfl, hrow]
    exact (hrow ▸ hs.told k a ha draft).approve hopen hheld
  · rw [if_neg hd]
    exact (hs.told k a ha draft).skip id id id

theorem perform_sound (hs : w.Sound) {r : Request} {w' : Mailroom} (h : w.perform env r = .ok w') : w'.Sound := by
  cases r with
  | saveDraft now actor identifier issued saving =>
      simp only [Mailroom.perform, bind_eq_ok, pure_eq_ok, Prod.exists] at h
      obtain ⟨row, store, hsave, rfl⟩ := h
      obtain ⟨a, b, ha, rfl, hsaved⟩ := saveDraft_saved hsave
      have hget := (account_eq_ok.mp ha).1
      have hid : row.id = saving.draftId.getD issued.draftId := Table.key_of_find hsaved.here
      refine hs.write hget (fun draft => ?_) (fun k' hk draft => ⟨fun h => hk h.1.symm, id, id⟩) (by rintro _ _ _ _ ⟨⟩)
      by_cases hd : draft = row.id
      · subst hd
        have hunclaimed := (hs.told _ a hget row.id).unclaimed fun old hold => (hsaved.edited old (hid ▸ hold)).1
        have hhere : b.drafts.find row.id = some row := hid ▸ hsaved.here
        rw [hhere]
        exact Told.save hunclaimed hsaved.status hsaved.marked
      · rw [hsaved.others draft (fun h => hd (h.trans hid.symm))]
        exact (hs.told _ a hget draft).skip (fun h => hd h.2.symm) id id
  | approve actor identifier draftId revision =>
      simp only [Mailroom.perform, bind_eq_ok, pure_eq_ok] at h
      obtain ⟨store, happrove, rfl⟩ := h
      obtain ⟨a, row, ha, hrow, rfl, hopen, rfl⟩ := approve_writes happrove
      obtain ⟨hget, hright⟩ := account_eq_ok.mp ha
      refine hs.approved hget hrow hopen ?_ rfl
      rintro _ _ ⟨⟩
      simpa [heldRights, hget] using hright
  | approveAutomatic now actor identifier draftId source policy sourceAccount =>
      simp only [Mailroom.perform, bind_eq_ok, pure_eq_ok] at h
      obtain ⟨store, happrove, rfl⟩ := h
      obtain ⟨a, row, profile, incoming, ha, hrow, hstatus, -, -, -, -, -, -, rfl⟩ := approveAutomatic_writes happrove
      have hget := (account_eq_ok.mp ha).1
      simp only [hget, Option.bind_some, hrow, Option.map_some, Option.getD_some]
      exact hs.approved hget hrow (by rw [hstatus]; rfl) (by rintro _ _ ⟨⟩) rfl
  | update actor identifier revision value credentials =>
      simp only [Mailroom.perform, bind_eq_ok, pure_eq_ok] at h
      obtain ⟨store, hupdate, rfl⟩ := h
      simp only [Mail.update, bind_eq_ok, ensure_eq_ok, pure_eq_ok] at hupdate
      obtain ⟨a, ha, _, -, secrets, -, rfl⟩ := hupdate
      have hget := (account_eq_ok.mp ha).1
      refine hs.write hget (fun draft => ?_) (fun k' hk draft => ⟨id, fun h => hk h.symm, id⟩) (by rintro _ _ _ _ ⟨⟩)
      have hfind : (a.drafts.update (fun _ => true) DraftRow.revoke revoke_id).find draft =
          (a.drafts.find draft).map DraftRow.revoke := by
        rw [Table.find_update]
        simp
      exact hfind ▸ (hs.told _ a hget draft).revoke
  | claimSend actor identifier draftId revision =>
      simp only [Mailroom.perform, bind_eq_ok, pure_eq_ok, Prod.exists] at h
      obtain ⟨content, store, hclaim, rfl⟩ := h
      obtain ⟨a, row, ha, -, hrow, rfl, hstatus, hcontent, rfl⟩ := claimSend_writes hclaim
      have hget := (account_eq_ok.mp ha).1
      have htold : Told (actor.tenant, identifier) draftId w.log (some row) := hrow ▸ hs.told _ a hget draftId
      obtain rfl := hcontent htold.2.1
      refine hs.write hget (fun draft => ?_) (fun k' hk draft => ⟨id, id, fun h => hk h.1.symm⟩) ?_
      · rw [Table.find_update_key]
        by_cases hd : draft = draftId
        · subst hd
          rw [if_pos rfl, hrow]
          exact htold.deliver rfl id
        · rw [if_neg hd]
          exact (hs.told _ a hget draft).skip id id fun h => hd h.2.symm
      · rintro _ _ _ _ ⟨⟩
        exact htold.claim hstatus
  | finishSend actor identifier draftId success =>
      simp only [Mailroom.perform, bind_eq_ok, pure_eq_ok, finishSend] at h
      obtain ⟨store, ⟨a, ha, rfl⟩, rfl⟩ := h
      have hget := (account_eq_ok.mp ha).1
      refine ⟨fun k' a' ha' draft => ?_, hs.claims⟩
      by_cases hk : k' = (actor.tenant, identifier)
      · subst hk
        rw [Entries.get_set_self hget] at ha'
        obtain rfl := Option.some.inj ha'
        rw [Table.find_update]
        have htold := hs.told _ a hget draft
        cases hrow : a.drafts.find draft with
        | none => rwa [hrow] at htold
        | some row =>
            rw [hrow] at htold
            by_cases hsending : (row.id = draftId && row.status = .sending) = true
            · obtain ⟨hsaved, hmark, -, -⟩ := htold
              rw [Option.map_some, if_pos hsending]
              refine ⟨hsaved, hmark, fun h => ?_, fun h => ?_⟩
              · cases success <;> cases h
              · cases success <;> cases h
            · rw [Option.map_some, if_neg hsending]
              exact htold
      · rw [Entries.get_set_other _ hk] at ha'
        exact hs.told k' a' ha' draft
  | delete actor identifier revision =>
      simp only [Mailroom.perform, bind_eq_ok, pure_eq_ok, Mail.delete, ensure_eq_ok] at h
      obtain ⟨store, ⟨a, ha, _, -, rfl⟩, rfl⟩ := h
      refine ⟨fun k' a' ha' draft => ?_, hs.claims⟩
      rw [Entries.get_remove] at ha'
      split at ha'
      · cases ha'
      · exact hs.told k' a' ha' draft

def Sealed (k : String × String) (draft : String) (revision : Nat) (content : DraftInput) (s : MailStore) : Prop :=
  ∀ a, s.get k = some a → ∃ row, a.drafts.find draft = some row ∧ row.status.delivered = true ∧
    row.revision = revision ∧ row.content = content

theorem Sealed.set {s : MailStore} {draft : String} {revision : Nat} {content : DraftInput}
    (h : Sealed k draft revision content s) {k' : String × String} (ha : s.get k' = some a)
    (hb : ∀ row, a.drafts.find draft = some row → row.status.delivered = true → ∃ row', b.drafts.find draft = some row' ∧
      row'.status.delivered = true ∧ row'.revision = row.revision ∧ row'.content = row.content) :
    Sealed k draft revision content (s.set k' b) := by
  intro c hc
  by_cases hk : k = k'
  · subst hk
    rw [Entries.get_set_self ha] at hc
    obtain rfl := Option.some.inj hc
    obtain ⟨row, hrow, hdelivered, hrevision, hcontent⟩ := h a ha
    obtain ⟨row', hrow', hdelivered', hrevision', hcontent'⟩ := hb row hrow hdelivered
    exact ⟨row', hrow', hdelivered', hrevision'.trans hrevision, hcontent'.trans hcontent⟩
  · exact h c (by rwa [Entries.get_set_other b hk] at hc)

theorem perform_sealed {draft : String} {revision : Nat} {content : DraftInput} {r : Request} {w' : Mailroom}
    (hs : Sealed k draft revision content w.store) (h : w.perform env r = .ok w') :
    Sealed k draft revision content w'.store := by
  have hopen : ∀ {row : DraftRow}, row.status.delivered = true → row.status.delivered ≠ false := by
    intro row hd hf
    cases hd.symm.trans hf
  cases r with
  | saveDraft now actor identifier issued saving =>
      simp only [Mailroom.perform, bind_eq_ok, pure_eq_ok, Prod.exists] at h
      obtain ⟨row, store, hsave, rfl⟩ := h
      obtain ⟨a, b, ha, rfl, hsaved⟩ := saveDraft_saved hsave
      refine hs.set (account_eq_ok.mp ha).1 fun old hold hdelivered => ?_
      by_cases hd : draft = saving.draftId.getD issued.draftId
      · exact absurd (hsaved.edited old (hd ▸ hold)).1 (hopen hdelivered)
      · exact ⟨old, (hsaved.others draft hd).trans hold, hdelivered, rfl, rfl⟩
  | approve actor identifier draftId revision' =>
      simp only [Mailroom.perform, bind_eq_ok, pure_eq_ok] at h
      obtain ⟨store, happrove, rfl⟩ := h
      obtain ⟨a, row, ha, hrow, -, hstatus, rfl⟩ := approve_writes happrove
      refine hs.set (account_eq_ok.mp ha).1 fun old hold hdelivered => ?_
      by_cases hd : draft = draftId
      · obtain rfl := Option.some.inj (hrow.symm.trans (hd ▸ hold))
        exact absurd hstatus (hopen hdelivered)
      · exact ⟨old, by rw [Table.find_update_key, if_neg hd, hold], hdelivered, rfl, rfl⟩
  | approveAutomatic now actor identifier draftId source policy sourceAccount =>
      simp only [Mailroom.perform, bind_eq_ok, pure_eq_ok] at h
      obtain ⟨store, happrove, rfl⟩ := h
      obtain ⟨a, row, profile, incoming, ha, hrow, hstatus, -, -, -, -, -, -, rfl⟩ := approveAutomatic_writes happrove
      refine hs.set (account_eq_ok.mp ha).1 fun old hold hdelivered => ?_
      by_cases hd : draft = draftId
      · obtain rfl := Option.some.inj (hrow.symm.trans (hd ▸ hold))
        rw [hstatus] at hdelivered
        cases hdelivered
      · exact ⟨old, by rw [Table.find_update_key, if_neg hd, hold], hdelivered, rfl, rfl⟩
  | update actor identifier revision' value credentials =>
      simp only [Mailroom.perform, bind_eq_ok, pure_eq_ok] at h
      obtain ⟨store, hupdate, rfl⟩ := h
      simp only [Mail.update, bind_eq_ok, ensure_eq_ok, pure_eq_ok] at hupdate
      obtain ⟨a, ha, _, -, secrets, -, rfl⟩ := hupdate
      refine hs.set (account_eq_ok.mp ha).1 fun old hold hdelivered => ⟨old, ?_, hdelivered, rfl, rfl⟩
      have hkept : old.revoke = old := by
        refine if_neg fun happroved => ?_
        rw [happroved] at hdelivered
        cases hdelivered
      rw [Table.find_update, hold, Option.map_some, if_pos rfl, hkept]
  | claimSend actor identifier draftId revision' =>
      simp only [Mailroom.perform, bind_eq_ok, pure_eq_ok, Prod.exists] at h
      obtain ⟨content', store, hclaim, rfl⟩ := h
      obtain ⟨a, row, ha, -, hrow, -, hstatus, -, rfl⟩ := claimSend_writes hclaim
      refine hs.set (account_eq_ok.mp ha).1 fun old hold hdelivered => ?_
      by_cases hd : draft = draftId
      · obtain rfl := Option.some.inj (hrow.symm.trans (hd ▸ hold))
        rw [hstatus] at hdelivered
        cases hdelivered
      · exact ⟨old, by rw [Table.find_update_key, if_neg hd, hold], hdelivered, rfl, rfl⟩
  | finishSend actor identifier draftId success =>
      simp only [Mailroom.perform, bind_eq_ok, pure_eq_ok, finishSend] at h
      obtain ⟨store, ⟨a, ha, rfl⟩, rfl⟩ := h
      refine hs.set (account_eq_ok.mp ha).1 fun old hold hdelivered => ?_
      by_cases hsending : (old.id = draftId && old.status = .sending) = true
      · refine ⟨old.finish success, ?_, ?_, rfl, rfl⟩
        · rw [Table.find_update, hold, Option.map_some, if_pos hsending]
        · cases success <;> rfl
      · exact ⟨old, by rw [Table.find_update, hold, Option.map_some, if_neg hsending], hdelivered, rfl, rfl⟩
  | delete actor identifier revision' =>
      simp only [Mailroom.perform, bind_eq_ok, pure_eq_ok, Mail.delete, ensure_eq_ok] at h
      obtain ⟨store, ⟨a, ha, _, -, rfl⟩, rfl⟩ := h
      intro c hc
      rw [Entries.get_remove] at hc
      split at hc
      · cases hc
      · exact hs c hc

theorem Mailroom.Fresh.sound (h : w.Fresh) : w.Sound where
  told k a ha draft := by
    have hnone : a.drafts.find draft = none := by
      rw [Table.find_eq_none, (h.2 k a ha).1]
      rintro _ ⟨⟩
    rw [hnone, h.1]
    rintro _ ⟨⟩
  claims earlier later k draft revision content heq := by
    rw [h.1] at heq
    cases List.append_ne_nil_of_right_ne_nil earlier (List.cons_ne_nil _ _) heq.symm

theorem step_sound (hs : w.Sound) (r : Request) : (w.step env r).Sound := by
  rw [Mailroom.step]
  cases h : w.perform env r with
  | error e => exact hs
  | ok w' => exact perform_sound hs h

theorem step_sealed {draft : String} {revision : Nat} {content : DraftInput} (hs : Sealed k draft revision content w.store)
    (r : Request) : Sealed k draft revision content (w.step env r).store := by
  rw [Mailroom.step]
  cases h : w.perform env r with
  | error e => exact hs
  | ok w' => exact perform_sealed hs h

/-- A draft is claimed at most once, with the content that was saved last and
under an approval that nothing has ended since; and what has been claimed is
never changed again. -/
theorem drafts_delivered_once (env : Engine) (start : Mailroom) (h : start.Fresh) (requests : List Request) :
    (∀ earlier later k draft revision content,
      (run (Mailroom.step env) start requests).log = earlier ++ .claimed k draft revision content :: later →
        LastSaved k draft revision content earlier ∧ Approved k draft revision earlier ∧ Unclaimed k draft later) ∧
    ∀ k a draft row, (run (Mailroom.step env) start requests).store.get k = some a → a.drafts.find draft = some row →
      row.status.delivered = true → ∀ later,
        Sealed k draft row.revision row.content (run (Mailroom.step env) start (requests ++ later)).store := by
  have hstep : ∀ w r, Mailroom.Sound w → Mailroom.Sound (w.step env r) := fun w r hw => step_sound hw r
  have hsound : (run (Mailroom.step env) start requests).Sound := run_invariant_always hstep h.sound requests
  refine ⟨hsound.claims, fun k a draft row ha hrow hdelivered later => ?_⟩
  rw [run_append]
  have hkept : ∀ w r, Sealed k draft row.revision row.content w.store →
      Sealed k draft row.revision row.content (Mailroom.step env w r).store := fun w r hw => step_sealed hw r
  have hsealed : Sealed k draft row.revision row.content (run (Mailroom.step env) start requests).store := by
    intro c hc
    obtain rfl := Option.some.inj (ha.symm.trans hc)
    exact ⟨row, hrow, hdelivered, rfl, rfl⟩
  exact run_invariant_always hkept hsealed later

end Runs

def plainEngine : Engine := ⟨⟨id, (· = ' '), Char.isAlphanum⟩, id, id⟩

def connected : ConnectionInput := ⟨"ada@acme.test", "imap.acme.test", "smtp.acme.test", ["INBOX"], true, false, .all⟩

def secret : Credentials := ⟨"ada", "secret", .password, none, 0⟩

def emptyAccount : Account :=
  ⟨"ada", 1, connected, secret, none, .empty, .empty, .empty, .empty, .empty, .empty, .empty, .empty, .empty⟩

def ada : Principal := ⟨"acme", "ada"⟩

def mailbox : MailStore := ⟨[(("acme", "box"), emptyAccount)], List.nodup_singleton _⟩

def written : DraftInput :=
  ⟨none, false, "", "", 0, "", ["bob@acme.test"], [], [], "Hello", "Text", "", "", []⟩

def issuedDraft : Issued := ⟨"0123456789abcdef0123456789abcdef", "<sent@galadril.local>"⟩

def savedThenSent : List Request :=
  [.saveDraft 0 ada "box" issuedDraft ⟨none, none, written, none, false, none⟩,
    .approve ada "box" issuedDraft.draftId 1, .claimSend ada "box" issuedDraft.draftId 1]

theorem mailbox_fresh : Mailroom.Fresh ⟨mailbox, []⟩ := by
  refine ⟨rfl, fun k a ha => ?_⟩
  obtain ⟨r, hr, rfl⟩ := Option.map_eq_some_iff.mp ha
  obtain rfl := List.mem_singleton.mp (Table.find_eq_some.mp hr).1
  exact ⟨rfl, rfl⟩

theorem drafts_delivered_once_sent :
    (run (Mailroom.step plainEngine) ⟨mailbox, []⟩ savedThenSent).log.length = 3 ∧
    ∀ earlier later k draft revision content,
      (run (Mailroom.step plainEngine) ⟨mailbox, []⟩ savedThenSent).log =
        earlier ++ .claimed k draft revision content :: later → Unclaimed k draft later :=
  ⟨by decide +kernel, fun earlier later k draft revision content h =>
    ((drafts_delivered_once plainEngine ⟨mailbox, []⟩ mailbox_fresh savedThenSent).1 earlier later k draft revision content h).2.2⟩

end Galadril.Mail
