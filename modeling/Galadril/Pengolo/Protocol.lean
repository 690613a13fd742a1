import Galadril.Pengolo.Transcripts

namespace Galadril.Pengolo

open Json Lib.Checked Lib.Transitions

/-- The time at which a transaction runs, where it looks at the clock. -/
def Request.time : Request → Option Int
  | .reserve now _ _ _ _ => some now
  | .append now _ _ _ _ => some now
  | .recordEvidence now _ _ _ => some now
  | .saveChat now _ _ _ => some now
  | .saveGeneration now _ _ _ => some now
  | .expireTemporary now _ _ => some now
  | .removeChat _ _ => none
  | .removeGeneration _ _ => none

/-- What the editing of a conversation may change: its title, its pin, its
project and the checks of its tasks. -/
structure Edited (old new : Chat) : Prop where
  ownerId : new.ownerId = old.ownerId
  expiresAt : new.expiresAt = old.expiresAt
  activeGeneration : new.activeGeneration = old.activeGeneration
  messages : new.messages.map (fun m => (m.id, m.line)) = old.messages.map fun m => (m.id, m.line)

/-- How the service uses the tables: the clock does not go back, new messages
have new ids, no prompt takes the id of an answer, temporary conversations have
the prompts of their owner, records are saved over the revision that was read,
and of the generations those are removed that have expired. -/
def Orderly (env : Engine) (clock : Int) (s : Store) (r : Request) : Prop :=
  (∀ now, r.time = some now → clock ≤ now) ∧
  match r with
  | .reserve now actor input _ _ => ∀ c, input.chatId.bind (readChat s now input.temporary) = some c →
      (input.temporary = true → c.ownerId = actor) ∧
      ∀ m ∈ c.messages, m.role = .assistant → env.uuid input.idempotencyKey ≠ some m.id
  | .append _ _ _ messageId _ => ∀ t i c, s.chats t i = some c → ∀ m ∈ c.messages, m.id ≠ messageId
  | .saveChat _ t chat expected => ∃ revision, expected = some revision ∧
      ∀ c, s.chats t chat.id = some c → c.revision = revision → Edited c chat
  | .saveGeneration _ t g expected => ∃ revision, expected = some revision ∧
      ∀ old, s.generations t g.id = some old → old.revision = revision → g = { old with authorization := g.authorization }
  | .removeGeneration t id => ∀ g, s.generations t id = some g → unexpired clock g.expiresAt = false
  | _ => True

/-- The tables with the time of the last transaction. -/
structure Timed where
  clock : Int
  store : Store

def Timed.step (env : Engine) (w : Timed) (r : Request) : Timed := ⟨r.time.getD w.clock, w.store.step env r⟩

structure Consistent (env : Engine) (clock : Int) (s : Store) : Prop where
  keyed : Keyed s
  logged : ∀ t i g, s.generations t i = some g → Logged env g (s.outputs t i)
  unlogged : ∀ t i, s.generations t i = none → s.outputs t i = []
  housed : ∀ t i g, s.generations t i = some g → ∃ c, s.chats t g.chatId = some c ∧ c.expiresAt = g.expiresAt ∧
    (t = true → c.ownerId = g.ownerId)
  told : ∀ t i c, s.chats t i = some c → unexpired clock c.expiresAt = true → ∃ gs, Transcript s t c gs

variable {env : Engine} {clock now : Int} {s s' : Store} {t : Bool} {id : String} {g g' : Generation} {c c' : Chat}

theorem unexpired_mono (h : clock ≤ now) {deadline : Option Int} (hd : unexpired now deadline = true) :
    unexpired clock deadline = true := by
  cases deadline with
  | none => rfl
  | some d =>
      simp only [unexpired, decide_eq_true_eq] at hd ⊢
      omega

theorem Consistent.later (h : Consistent env clock s) (hclock : clock ≤ now) : Consistent env now s :=
  ⟨h.keyed, h.logged, h.unlogged, h.housed, fun t i c hc hlive => h.told t i c hc (unexpired_mono hclock hlive)⟩

structure Rewritten (g g' : Generation) : Prop where
  id : g'.id = g.id
  chatId : g'.chatId = g.chatId
  turn : g'.turn = g.turn
  outcome : g'.outcome = g.outcome

theorem Rewritten.refl (g : Generation) : Rewritten g g := ⟨rfl, rfl, rfl, rfl⟩

/-- A step that rewrites rows in place and keeps what is told. -/
theorem Consistent.mapped (h : Consistent env clock s) (hclock : clock ≤ now) {f : Bool → Generation → Generation}
    {e : Bool → Chat → Chat}
    (hgens : ∀ t i, s'.generations t i = (s.generations t i).map (f t)) (hchats : ∀ t i, s'.chats t i = (s.chats t i).map (e t))
    (hf : ∀ t g, s.generations t g.id = some g → Rewritten g (f t g) ∧ Logged env (f t g) (s'.outputs t g.id))
    (hnone : ∀ t i, s.generations t i = none → s'.outputs t i = s.outputs t i)
    (he : ∀ t c, s.chats t c.id = some c → (e t c).id = c.id ∧ (e t c).activeGeneration = c.activeGeneration ∧
      (e t c).messages.map (fun m => (m.id, m.line)) = c.messages.map (fun m => (m.id, m.line)) ∧
      (unexpired now (e t c).expiresAt = true → unexpired now c.expiresAt = true))
    (hshared : ∀ t g c, s.generations t g.id = some g → s.chats t g.chatId = some c → c.expiresAt = g.expiresAt →
      (t = true → c.ownerId = g.ownerId) →
      (e t c).expiresAt = (f t g).expiresAt ∧ (t = true → (e t c).ownerId = (f t g).ownerId)) : Consistent env now s' := by
  have hrow : ∀ t i g, s.generations t i = some g → s.generations t g.id = some g := fun t i g hg =>
    (h.keyed.generation t i g hg).symm ▸ hg
  have hchat : ∀ t i c, s.chats t i = some c → s.chats t c.id = some c := fun t i c hc => (h.keyed.chat t i c hc).symm ▸ hc
  refine ⟨⟨fun t i c hc => ?_, fun t i g hg => ?_⟩, fun t i g hg => ?_, fun t i hg => ?_, fun t i g hg => ?_,
    fun t i c hc hlive => ?_⟩
  · rw [hchats] at hc
    obtain ⟨c₀, hc₀, rfl⟩ := Option.map_eq_some_iff.mp hc
    exact (he t c₀ (hchat t i c₀ hc₀)).1.trans (h.keyed.chat t i c₀ hc₀)
  · rw [hgens] at hg
    obtain ⟨g₀, hg₀, rfl⟩ := Option.map_eq_some_iff.mp hg
    exact (hf t g₀ (hrow t i g₀ hg₀)).1.id.trans (h.keyed.generation t i g₀ hg₀)
  · rw [hgens] at hg
    obtain ⟨g₀, hg₀, rfl⟩ := Option.map_eq_some_iff.mp hg
    have hlogged := (hf t g₀ (hrow t i g₀ hg₀)).2
    rwa [h.keyed.generation t i g₀ hg₀] at hlogged
  · rw [hgens, Option.map_eq_none_iff] at hg
    rw [hnone t i hg]
    exact h.unlogged t i hg
  · rw [hgens] at hg
    obtain ⟨g₀, hg₀, rfl⟩ := Option.map_eq_some_iff.mp hg
    obtain ⟨c₀, hc₀, hdeadline, howner⟩ := h.housed t i g₀ hg₀
    refine ⟨e t c₀, ?_, hshared t g₀ c₀ (hrow t i g₀ hg₀) hc₀ hdeadline howner⟩
    rw [hchats, (hf t g₀ (hrow t i g₀ hg₀)).1.chatId, hc₀, Option.map_some]
  · rw [hchats] at hc
    obtain ⟨c₀, hc₀, rfl⟩ := Option.map_eq_some_iff.mp hc
    obtain ⟨hid, hactive, hmessages, hdeadline⟩ := he t c₀ (hchat t i c₀ hc₀)
    obtain ⟨gs, hgs⟩ := h.told t i c₀ hc₀ (unexpired_mono hclock (hdeadline hlive))
    refine ⟨gs.map (f t), hgs.mapped h.keyed (hgens t) (fun g hg => ?_) hid hactive hmessages⟩
    obtain ⟨hrewritten, -⟩ := hf t g hg
    exact ⟨hrewritten.id, hrewritten.chatId, hrewritten.turn, hrewritten.outcome⟩

theorem put_eq_map {α : Type} {key : α → String} {rows : Bool → String → Option α} (hkey : ∀ t i a, rows t i = some a → key a = i)
    {row old : α} (hold : rows t id = some old) (t' : Bool) (i : String) :
    put rows t id (some row) t' i = (rows t' i).map fun a => if t' = t ∧ key a = id then row else a := by
  by_cases hi : t' = t ∧ i = id
  · rw [hi.1, hi.2, put_self, hold, Option.map_some, if_pos ⟨rfl, hkey t id old hold⟩]
  · rw [put_of_ne _ _ hi]
    cases hrow : rows t' i with
    | none => rfl
    | some a =>
        rw [Option.map_some, if_neg]
        rw [hkey t' i a hrow]
        exact hi

/-- A step that rewrites one generation and keeps what is told. -/
theorem Consistent.rewrite (h : Consistent env clock s) (hclock : clock ≤ now) (hg : s.generations t id = some g)
    (hgens : s'.generations = put s.generations t id (some g')) (hchats : s'.chats = s.chats)
    (houtputs : ∀ t' i, ¬ (t' = t ∧ i = id) → s'.outputs t' i = s.outputs t' i) (hrewritten : Rewritten g g')
    (hlogged : Logged env g' (s'.outputs t id)) (hexpires : g'.expiresAt = g.expiresAt) (howner : g'.ownerId = g.ownerId) :
    Consistent env now s' := by
  have hkey : g.id = id := h.keyed.generation t id g hg
  refine h.mapped hclock (f := fun t' a => if t' = t ∧ a.id = id then g' else a) (e := fun _ c => c)
    (fun t' i => by rw [hgens, put_eq_map h.keyed.generation hg]) (fun t' i => by rw [hchats, Option.map_id']) (fun t' a ha => ?_)
    (fun t' i hnone => houtputs t' i ?_) (fun _ _ _ => ⟨rfl, rfl, rfl, fun hlive => hlive⟩) fun t' a c ha hc hdeadline hsame => ?_
  · by_cases hi : t' = t ∧ a.id = id
    · obtain ⟨rfl, rfl⟩ := hi
      obtain rfl := Option.some.inj (ha.symm.trans hg)
      rw [if_pos ⟨rfl, rfl⟩]
      exact ⟨hrewritten, hlogged⟩
    · rw [if_neg hi]
      refine ⟨.refl a, ?_⟩
      rw [houtputs t' a.id hi]
      exact h.logged t' a.id a ha
  · rintro ⟨rfl, rfl⟩
    rw [hg] at hnone
    cases hnone
  · split
    · next hi =>
        obtain ⟨rfl, rfl⟩ := hi
        obtain rfl := Option.some.inj (ha.symm.trans hg)
        exact ⟨hdeadline.trans hexpires.symm, fun ht => (hsame ht).trans howner.symm⟩
    · exact ⟨hdeadline, hsame⟩

/-- A step that writes one generation together with its conversation. -/
theorem Consistent.update (h : Consistent env clock s) (hclock : clock ≤ now)
    (hgens : s'.generations = put s.generations t g.id (some g)) (hchats : s'.chats = put s.chats t c.id (some c))
    (houtputs : ∀ t' i, ¬ (t' = t ∧ i = g.id) → s'.outputs t' i = s.outputs t' i) (hlogged : Logged env g (s'.outputs t g.id))
    (hchat : g.chatId = c.id) (hexpires : c.expiresAt = g.expiresAt) (howner : t = true → c.ownerId = g.ownerId)
    (hold : ∀ c', s.chats t c.id = some c' → c.expiresAt = c'.expiresAt ∧ (t = true → c.ownerId = c'.ownerId))
    (hsame : ∀ g', s.generations t g.id = some g' → g'.chatId = c.id) {gs : List Generation} (htold : Transcript s' t c gs) :
    Consistent env now s' := by
  have hrow : s'.generations t g.id = some g := by rw [hgens, put_self]
  refine ⟨⟨fun t' i c' hc' => ?_, fun t' i g' hg' => ?_⟩, fun t' i g' hg' => ?_, fun t' i hg' => ?_, fun t' i g' hg' => ?_,
    fun t' i c' hc' hlive => ?_⟩
  · rw [hchats] at hc'
    refine put_id Chat.id h.keyed.chat ?_ hc'
    rintro a ⟨⟩
    rfl
  · rw [hgens] at hg'
    refine put_id Generation.id h.keyed.generation ?_ hg'
    rintro a ⟨⟩
    rfl
  · by_cases hi : t' = t ∧ i = g.id
    · obtain ⟨rfl, rfl⟩ := hi
      exact Option.some.inj (hrow.symm.trans hg') ▸ hlogged
    · rw [hgens, put_of_ne _ _ hi] at hg'
      rw [houtputs t' i hi]
      exact h.logged t' i g' hg'
  · have hi : ¬ (t' = t ∧ i = g.id) := by
      rintro ⟨rfl, rfl⟩
      rw [hrow] at hg'
      cases hg'
    rw [hgens, put_of_ne _ _ hi] at hg'
    rw [houtputs t' i hi]
    exact h.unlogged t' i hg'
  · by_cases hi : t' = t ∧ i = g.id
    · obtain ⟨rfl, rfl⟩ := hi
      obtain rfl := Option.some.inj (hrow.symm.trans hg')
      exact ⟨c, by rw [hchats, hchat, put_self], hexpires, howner⟩
    · rw [hgens, put_of_ne _ _ hi] at hg'
      obtain ⟨c', hc', hdeadline, howner'⟩ := h.housed t' i g' hg'
      by_cases hj : t' = t ∧ g'.chatId = c.id
      · obtain ⟨rfl, hj⟩ := hj
        rw [hj] at hc'
        obtain ⟨hold₁, hold₂⟩ := hold c' hc'
        exact ⟨c, by rw [hchats, hj, put_self], hold₁.trans hdeadline, fun ht => (hold₂ ht).trans (howner' ht)⟩
      · exact ⟨c', by rw [hchats, put_of_ne _ _ hj, hc'], hdeadline, howner'⟩
  · by_cases hj : t' = t ∧ i = c.id
    · obtain ⟨rfl, rfl⟩ := hj
      rw [hchats, put_self] at hc'
      exact ⟨gs, Option.some.inj hc' ▸ htold⟩
    · rw [hchats, put_of_ne _ _ hj] at hc'
      obtain ⟨gs', hgs'⟩ := h.told t' i c' hc' (unexpired_mono hclock hlive)
      have hid : c'.id = i := h.keyed.chat t' i c' hc'
      refine ⟨gs', hgs'.congr fun x hx => ?_⟩
      by_cases hi : t' = t ∧ x.id = g.id
      · obtain ⟨rfl, hi⟩ := hi
        have hother : x.chatId ≠ c.id := fun heq => hj ⟨rfl, hid.symm.trans (hx.symm.trans heq)⟩
        rw [hi, hrow]
        constructor
        · intro heq
          obtain rfl := Option.some.inj heq
          exact absurd hchat hother
        · intro heq
          exact absurd (hsame x heq) hother
      · rw [hgens, put_of_ne _ _ hi]

/-- A step that deletes rows. The conversations of deleted generations are gone
or have expired. -/
theorem Consistent.deleted (h : Consistent env clock s) (gone : Bool → String → Prop) [∀ t i, Decidable (gone t i)]
    (hgens : ∀ t i, s'.generations t i = if gone t i then none else s.generations t i)
    (houtputs : ∀ t i, s'.outputs t i = if gone t i then [] else s.outputs t i)
    (hchats : ∀ t i c, s'.chats t i = some c → s.chats t i = some c)
    (hkept : ∀ t i g, s.generations t i = some g → ¬ gone t i → s'.chats t g.chatId = s.chats t g.chatId)
    (hgone : ∀ t i g c, s.generations t i = some g → gone t i → s'.chats t g.chatId = some c →
      unexpired clock c.expiresAt = false) :
    Consistent env clock s' := by
  have hrow : ∀ t i g, s'.generations t i = some g → ¬ gone t i ∧ s.generations t i = some g := by
    intro t i g hg
    rw [hgens] at hg
    split at hg
    · cases hg
    · next hi => exact ⟨hi, hg⟩
  refine ⟨⟨fun t i c hc => h.keyed.chat t i c (hchats t i c hc), fun t i g hg => h.keyed.generation t i g (hrow t i g hg).2⟩,
    fun t i g hg => ?_, fun t i hg => ?_, fun t i g hg => ?_, fun t i c hc hlive => ?_⟩
  · obtain ⟨hi, hg⟩ := hrow t i g hg
    rw [houtputs, if_neg hi]
    exact h.logged t i g hg
  · rw [houtputs]
    rw [hgens] at hg
    split
    · rfl
    · next hi =>
        rw [if_neg hi] at hg
        exact h.unlogged t i hg
  · obtain ⟨hi, hg⟩ := hrow t i g hg
    rw [hkept t i g hg hi]
    exact h.housed t i g hg
  · obtain ⟨gs, hgs⟩ := h.told t i c (hchats t i c hc) hlive
    have hid : c.id = i := h.keyed.chat t i c (hchats t i c hc)
    refine ⟨gs, hgs.congr fun g hg => ⟨fun hrow' => (hrow t g.id g hrow').2, fun hg' => ?_⟩⟩
    rw [hgens, if_neg, hg']
    intro hi
    have hexpired := hgone t g.id g c hg' hi (by rw [hg, hid, hc])
    rw [hlive] at hexpired
    cases hexpired

/-- Until it is deleted a generation stays in its conversation, and its log
grows. -/
def Extends (s s' : Store) : Prop :=
  ∀ t i g, s.generations t i = some g → s'.generations t i = none ∨
    (∃ g', s'.generations t i = some g' ∧ g'.chatId = g.chatId) ∧ s.outputs t i <+: s'.outputs t i

theorem Extends.refl (s : Store) : Extends s s := fun _ _ g hg => .inr ⟨⟨g, hg, rfl⟩, List.prefix_refl _⟩

theorem Extends.put {row : Generation} (hold : ∀ old, s.generations t id = some old → row.chatId = old.chatId)
    (hgens : s'.generations = put s.generations t id (some row))
    (houtputs : ∀ t' i, ¬ (t' = t ∧ i = id) → s'.outputs t' i = s.outputs t' i) (hlog : s.outputs t id <+: s'.outputs t id) :
    Extends s s' := by
  intro t' i g hg
  right
  by_cases hi : t' = t ∧ i = id
  · obtain ⟨rfl, rfl⟩ := hi
    exact ⟨⟨row, by rw [hgens, put_self], hold g hg⟩, hlog⟩
  · rw [houtputs t' i hi]
    exact ⟨⟨g, by rw [hgens, put_of_ne _ _ hi, hg], rfl⟩, List.prefix_refl _⟩

theorem Extends.mapped {f : Bool → Generation → Generation} (hgens : ∀ t i, s'.generations t i = (s.generations t i).map (f t))
    (hf : ∀ t g, (f t g).chatId = g.chatId) (houtputs : s'.outputs = s.outputs) : Extends s s' := by
  intro t i g hg
  refine .inr ⟨⟨f t g, by rw [hgens, hg, Option.map_some], hf t g⟩, ?_⟩
  rw [houtputs]

theorem readGeneration_eq_some (h : readGeneration s now t id = some g) :
    s.generations t id = some g ∧ unexpired now g.expiresAt = true := Option.filter_eq_some_iff.mp h

theorem writeGeneration_found {row : Generation} {revision : Int} (h : writeGeneration env s now t row (some revision) = .ok s') :
    ∃ old, s.generations t row.id = some old ∧ old.revision = revision := by
  simp only [writeGeneration, bind_eq_ok] at h
  obtain ⟨next, hnext, -⟩ := h
  cases hrow : s.generations t row.id with
  | none =>
      rw [hrow] at hnext
      cases hnext
  | some old =>
      refine ⟨old, rfl, ?_⟩
      by_contra hne
      simp [nextRevision, hrow, hne] at hnext

theorem writeChat_found {row : Chat} {revision : Int} (h : writeChat env s now t row (some revision) = .ok s') :
    ∃ old, s.chats t row.id = some old ∧ old.revision = revision := by
  simp only [writeChat, bind_eq_ok] at h
  obtain ⟨next, hnext, -⟩ := h
  cases hrow : s.chats t row.id with
  | none =>
      rw [hrow] at hnext
      cases hnext
  | some old =>
      refine ⟨old, rfl, ?_⟩
      by_contra hne
      simp [nextRevision, hrow, hne] at hnext

theorem write_consistent (h : Consistent env clock s) (hclock : clock ≤ now) (hg : s.generations t g.id = some g) {row : Generation}
    {expected : Option Int} (hw : writeGeneration env s now t row expected = .ok s') (hrow : Rewritten g row)
    (hover : row.over g = row)
    (hexpires : row.expiresAt = g.expiresAt) (howner : row.ownerId = g.ownerId) : Consistent env now s' ∧ Extends s s' := by
  obtain ⟨⟨revision, hgens⟩, hchats, houtputs, -, -⟩ := writeGeneration_eq_ok hw
  rw [hrow.id] at hgens
  have hlogged : Logged env (row.stamped revision now) (s.outputs t g.id) := by
    refine (h.logged t g.id g hg).over ?_ hrow.outcome
    exact congrArg (fun r : Generation => r.stamped revision now) hover
  refine ⟨h.rewrite hclock hg hgens hchats (fun _ _ _ => by rw [houtputs]) ⟨hrow.id, hrow.chatId, hrow.turn, hrow.outcome⟩
    (houtputs ▸ hlogged) hexpires howner, .put (fun old hold => ?_) hgens (fun _ _ _ => by rw [houtputs]) (by rw [houtputs])⟩
  obtain rfl := Option.some.inj (hg.symm.trans hold)
  exact hrow.chatId

theorem recordEvidence_consistent (h : Consistent env clock s) (hclock : clock ≤ now) {sources : List Value}
    (hr : recordEvidence env s now t id sources = .ok s') : Consistent env now s' ∧ Extends s s' := by
  simp only [recordEvidence, bind_eq_ok, context_eq_ok] at hr
  obtain ⟨g, hg, evidence, -, hw⟩ := hr
  obtain ⟨hrow, -⟩ := readGeneration_eq_some hg
  rw [← h.keyed.generation t id g hrow] at hrow
  exact write_consistent h hclock hrow hw ⟨rfl, rfl, rfl, rfl⟩ rfl rfl rfl

theorem saveGeneration_consistent (h : Consistent env clock s) (hclock : clock ≤ now) {row : Generation} {revision : Int}
    (hedit : ∀ old, s.generations t row.id = some old → old.revision = revision →
      row = { old with authorization := row.authorization })
    (hr : saveGeneration env s now t row (some revision) = .ok s') : Consistent env now s' ∧ Extends s s' := by
  obtain ⟨old, hold, hrevision⟩ := writeGeneration_found hr
  have hrow := hedit old hold hrevision
  have hid : row.id = old.id := by rw [hrow]
  rw [hid] at hold
  refine write_consistent h hclock hold hr ⟨hid, ?_, ?_, ?_⟩ ?_ ?_ ?_ <;> rw [hrow] <;> rfl

theorem saveChat_consistent (h : Consistent env clock s) (hclock : clock ≤ now) {chat : Chat} {revision : Int}
    (hedit : ∀ c, s.chats t chat.id = some c → c.revision = revision → Edited c chat)
    (hr : saveChat env s now t chat (some revision) = .ok s') : Consistent env now s' ∧ Extends s s' := by
  simp only [saveChat, bind_eq_ok, pure_eq_ok] at hr
  obtain ⟨m, hw, rfl⟩ := hr
  obtain ⟨old, hold, hrevision⟩ := writeChat_found hw
  have hedited := hedit old hold hrevision
  obtain ⟨hframe, next, hchats⟩ := writeChat_eq_ok hw
  let f : Bool → Generation → Generation := fun t' g =>
    if t' = t ∧ g.chatId = chat.id then { g with projectId := chat.projectId } else g
  have hsame : ∀ t' g, (f t' g).chatId = g.chatId := by
    intro t' g
    simp only [f]
    split <;> rfl
  have hgens : ∀ t' i, (m.generations t' i).map (f t') = (s.generations t' i).map (f t') := fun t' i => by rw [hframe.generations]
  refine ⟨h.mapped hclock (f := f) (e := fun t' c => if t' = t ∧ c.id = chat.id then chat.stamped next now else c) hgens
    (fun t' i => by rw [← put_eq_map h.keyed.chat hold, ← hchats]) (fun t' g hg => ?_) (fun t' i _ => by rw [← hframe.outputs])
    (fun t' c hc => ?_) (fun t' g c hg hc hdeadline howner => ?_), .mapped hgens hsame hframe.outputs⟩
  · have hlogged := h.logged t' g.id g hg
    rw [← hframe.outputs] at hlogged
    simp only [f]
    split
    · exact ⟨⟨rfl, rfl, rfl, rfl⟩, hlogged.over rfl rfl⟩
    · exact ⟨.refl g, hlogged⟩
  · split
    · next hi =>
        obtain ⟨rfl, hi⟩ := hi
        rw [hi] at hc
        obtain rfl := Option.some.inj (hc.symm.trans hold)
        exact ⟨hi.symm, hedited.activeGeneration, hedited.messages, fun hlive => hedited.expiresAt ▸ hlive⟩
    · exact ⟨rfl, rfl, rfl, fun hlive => hlive⟩
  · have hf : (f t' g).expiresAt = g.expiresAt ∧ (f t' g).ownerId = g.ownerId := by
      simp only [f]
      split <;> exact ⟨rfl, rfl⟩
    rw [hf.1, hf.2]
    split
    · next hi =>
        obtain ⟨rfl, hi⟩ := hi
        rw [← h.keyed.chat _ _ c hc, hi] at hc
        obtain rfl := Option.some.inj (hc.symm.trans hold)
        exact ⟨hedited.expiresAt.trans hdeadline, fun ht => hedited.ownerId.trans (howner ht)⟩
    · exact ⟨hdeadline, howner⟩

theorem expireTemporary_consistent (h : Consistent env clock s) (hclock : clock ≤ now) (owner session : String) :
    Consistent env now (expireTemporary s now owner session) ∧ Extends s (expireTemporary s now owner session) := by
  let f : Bool → Generation → Generation := fun t g =>
    if t = true ∧ (g.ownerId == owner && g.chatId == session) = true then { g with expiresAt := some now } else g
  let e : Bool → Chat → Chat := fun t c =>
    if t = true ∧ (c.ownerId == owner && c.id == session) = true then { c with expiresAt := some now } else c
  have hsame : ∀ t g, (f t g).chatId = g.chatId := by
    intro t g
    simp only [f]
    split <;> rfl
  refine ⟨h.mapped hclock (f := f) (e := e) (fun _ _ => rfl) (fun t i => ?_) (fun t g hg => ?_) (fun _ _ _ => rfl)
    (fun t c hc => ?_)
    (fun t g c hg hc hdeadline howner => ?_), .mapped (fun _ _ => rfl) hsame rfl⟩
  · refine Option.map_congr fun c hc => ?_
    simp only [e, h.keyed.chat t i c hc]
  · have hlogged := h.logged t g.id g hg
    simp only [f]
    split
    · exact ⟨⟨rfl, rfl, rfl, rfl⟩, hlogged.over rfl rfl⟩
    · exact ⟨.refl g, hlogged⟩
  · simp only [e]
    split
    · refine ⟨rfl, rfl, rfl, fun hlive => ?_⟩
      simp [unexpired] at hlive
    · exact ⟨rfl, rfl, rfl, fun hlive => hlive⟩
  · have hid : c.id = g.chatId := h.keyed.chat t _ c hc
    cases t with
    | false => exact ⟨hdeadline, fun ht => absurd ht Bool.false_ne_true⟩
    | true =>
        have hcondition : (c.ownerId == owner && c.id == session) = (g.ownerId == owner && g.chatId == session) := by
          rw [hid, howner rfl]
        change (if _ then _ else c).expiresAt = (if _ then _ else g).expiresAt ∧
          (_ → (if _ then _ else c).ownerId = (if _ then _ else g).ownerId)
        rw [hcondition]
        split
        · exact ⟨rfl, howner⟩
        · exact ⟨hdeadline, howner⟩

theorem removeChat_consistent (h : Consistent env clock s) (t : Bool) (id : String) :
    Consistent env clock (removeChat s t id) ∧ Extends s (removeChat s t id) := by
  let gone : Bool → String → Prop := fun t' i => (t' == t && (s.generations t' i).any fun g => g.chatId == id) = true
  refine ⟨h.deleted gone (fun _ _ => rfl) (fun _ _ => rfl) (fun t' i c hc => ?_) (fun t' i g hg hi => ?_)
    fun t' i g c hg hi hc => ?_, fun t' i g hg => ?_⟩
  · by_cases hi : t' = t ∧ i = id
    · simp [removeChat, hi] at hc
    · simpa [removeChat, put_of_ne _ _ hi] using hc
  · refine put_of_ne _ _ ?_
    rintro ⟨rfl, heq⟩
    exact hi (by simp [gone, hg, heq])
  · simp only [gone, hg, Option.any_some, Bool.and_eq_true, beq_iff_eq] at hi
    obtain ⟨rfl, hi⟩ := hi
    simp [removeChat, hi] at hc
  · by_cases hi : gone t' i
    · exact .inl (if_pos hi)
    · refine .inr ⟨⟨g, (if_neg hi).trans hg, rfl⟩, ?_⟩
      have hlog : (removeChat s t id).outputs t' i = s.outputs t' i := if_neg hi
      rw [hlog]

theorem removeGeneration_consistent (h : Consistent env clock s)
    (hexpired : ∀ g, s.generations t id = some g → unexpired clock g.expiresAt = false) :
    Consistent env clock (removeGeneration s t id) ∧ Extends s (removeGeneration s t id) := by
  refine ⟨h.deleted (fun t' i => t' = t ∧ i = id) (fun t' i => rfl) (fun t' i => rfl) (fun _ _ _ hc => hc) (fun _ _ _ _ _ => rfl)
    fun t' i g c hg hi hc => ?_, fun t' i g hg => ?_⟩
  · obtain ⟨rfl, rfl⟩ := hi
    obtain ⟨c', hc', hdeadline, -⟩ := h.housed t' i g hg
    obtain rfl := Option.some.inj (hc'.symm.trans hc)
    rw [hdeadline]
    exact hexpired g hg
  · by_cases hi : t' = t ∧ i = id
    · exact .inl (if_pos hi)
    · refine .inr ⟨⟨g, (if_neg hi).trans hg, rfl⟩, ?_⟩
      have hlog : (removeGeneration s t id).outputs t' i = s.outputs t' i := if_neg hi
      rw [hlog]

theorem extend_logged (hlogged : Logged env g (s.outputs t g.id)) (hlive : g.outcome = none) {event : OutputEvent} {m : Store}
    {a row : Generation} (hext : extend env s now t g event = .ok (m, a)) (hrow : row.over a = row)
    (houtcome : row.outcome = event.kind.outcome) :
    (∃ log, m = s.withLog t g.id log ∧ s.outputs t g.id <+: log ∧ Logged env row log) ∧ a.blank = (g.renewed now).blank := by
  have hrenewed : Logged env (g.renewed now) (s.outputs t g.id) := hlogged.over rfl rfl
  simp only [extend] at hext
  split at hext
  · next hkind =>
      simp only [pure_eq_ok, Prod.mk.injEq] at hext
      obtain ⟨rfl, rfl⟩ := hext
      refine ⟨⟨s.outputs t g.id, (withLog_self s t g.id).symm, List.prefix_refl _, hrenewed.over hrow ?_⟩, rfl⟩
      rw [houtcome, hkind]
      exact hlive.symm
  · simp only [bind_eq_ok, pure_eq_ok, Prod.mk.injEq] at hext
    obtain ⟨b, hb, n, hn, rfl, rfl⟩ := hext
    simp only [appendOutput, bind_eq_ok, pure_eq_ok] at hn
    obtain ⟨_, -, _, -, rfl⟩ := hn
    have hblank := (advance_blank hb).1
    have hid : b.id = g.id := (congrArg Generation.id hblank :)
    rw [hid]
    exact ⟨⟨_, rfl, List.prefix_append _ _, hrenewed.snoc hlive hb hrow houtcome⟩, hblank⟩

theorem turn_running (g : Generation) (hlive : g.outcome = none) : g.turn = [⟨.user, g.id, g.input.prompt, .pending⟩] := by
  rw [Generation.turn, hlive]
  rfl

theorem accept_consistent (h : Consistent env clock s) (hclock : clock ≤ now) (hg : readGeneration s now t id = some g)
    {messageId : String} (hfresh : ∀ c, s.chats t g.chatId = some c → ∀ m ∈ c.messages, m.id ≠ messageId) {event : OutputEvent}
    (ha : accept env s now t messageId g event = .ok s') : Consistent env now s' ∧ Extends s s' := by
  obtain ⟨hrow, hunexpired⟩ := readGeneration_eq_some hg
  obtain rfl : g.id = id := h.keyed.generation t id g hrow
  obtain ⟨hrunning, m, a, n, hext, hset, hw⟩ := accept_eq_ok ha
  have hlive : g.outcome = none := outcome_eq_none.mpr hrunning
  obtain ⟨⟨revision, hgens⟩, hchats, houtputs, -, -⟩ := writeGeneration_eq_ok hw
  have hover : ((a.withStatus (event.kind.outcome.getD .running)).stamped revision now).over a =
      (a.withStatus (event.kind.outcome.getD .running)).stamped revision now := rfl
  obtain ⟨⟨log, rfl, hgrown, hlogged⟩, hblank⟩ := extend_logged (h.logged t g.id g hrow) hlive hext hover (outcome_of_event rfl)
  obtain ⟨hsettled, hlogs, -⟩ := settle_confined hset
  have hid : a.id = g.id := (congrArg Generation.id hblank :)
  have hchatId : a.chatId = g.chatId := (congrArg Generation.chatId hblank :)
  have hinput : a.input = g.input := (congrArg Generation.input hblank :)
  have hexpires : a.expiresAt = g.expiresAt := (congrArg Generation.expiresAt hblank :)
  have howner : a.ownerId = g.ownerId := (congrArg Generation.ownerId hblank :)
  have hgens' : s'.generations = put s.generations t g.id
    (some ((a.withStatus (event.kind.outcome.getD .running)).stamped revision now)) := by
    rw [hgens, hsettled]
    exact congrArg (fun i => put s.generations t i _) hid
  have hlog : s'.outputs = put s.outputs t g.id log := houtputs.trans hlogs
  have hothers : ∀ t' i, ¬ (t' = t ∧ i = g.id) → s'.outputs t' i = s.outputs t' i := fun t' i hi => by rw [hlog, put_of_ne _ _ hi]
  have hhere : s'.outputs t g.id = log := by rw [hlog, put_self]
  refine ⟨?_, .put (fun old hold => ?_) hgens' hothers (hhere.symm ▸ hgrown)⟩
  · cases houtcome : event.kind.outcome with
    | none =>
        rw [houtcome] at hset hgens' hlogged
        have hchats' : s'.chats = s.chats := by
          rw [hchats, ← Except.ok.inj hset]
          rfl
        have hrewritten : Rewritten g ((a.withStatus (none.getD .running)).stamped revision now) := by
          refine ⟨hid, hchatId, ?_, hlive.symm⟩
          rw [turn_running g hlive, turn_running ((a.withStatus (none.getD .running)).stamped revision now) rfl]
          exact congrArg₂ (fun i (input : SendInput) => [(⟨.user, i, input.prompt, .pending⟩ : Line)]) hid hinput
        exact h.rewrite hclock hrow hgens' hchats' hothers hrewritten (hhere.symm ▸ hlogged) hexpires howner
    | some outcome =>
        rw [houtcome] at hset hgens' hlogged
        obtain ⟨c, hc, hdeadline, hsame⟩ := h.housed t g.id g hrow
        have hcid : c.id = g.chatId := h.keyed.chat t _ c hc
        have hread : readChat (s.withLog t g.id log) now t (a.withStatus outcome).chatId = some c := by
          have hc' : s.chats t a.chatId = some c := by rw [hchatId, hc]
          exact Option.filter_eq_some_iff.mpr ⟨hc', hdeadline ▸ hunexpired⟩
        simp only [settle, conclude, bind_eq_ok, pure_eq_ok, Option.getD_some] at hset
        obtain ⟨k, hk, rfl⟩ := hset
        rw [concludeChat, hread] at hk
        obtain ⟨-, next, hconcluded⟩ := writeChat_eq_ok hk
        obtain ⟨gs, hgs⟩ := h.told t _ c hc (unexpired_mono hclock (hdeadline ▸ hunexpired))
        have hmem : g ∈ gs := (hgs.rows g).mpr ⟨hrow, hcid.symm⟩
        have hput : HasRow s s' t ((a.withStatus outcome).stamped revision now) := by
          intro i
          rw [hgens']
          by_cases hi : i = g.id
          · rw [hi, put_self]
            exact (if_pos hid.symm).symm
          · rw [put_of_ne _ _ fun heq => hi heq.2]
            exact (if_neg fun heq => hi (heq.trans hid)).symm
        have hstatus : outcome = event.kind.outcome.getD .running := by
          rw [houtcome]
          rfl
        have houtcome' : ((a.withStatus outcome).stamped revision now).outcome = some outcome :=
          (outcome_of_event hstatus).trans houtcome
        obtain ⟨init, htold⟩ := hgs.conclude ((concluded c messageId (a.withStatus outcome) outcome).stamped next now)
          (m := assistantMessage messageId (a.withStatus outcome) outcome) hmem hlive hput hid hchatId
          (congrArg SendInput.prompt hinput) houtcome' rfl rfl
          (congrArg (fun i => markMessage i outcome c.messages ++ [assistantMessage messageId (a.withStatus outcome) outcome]) hid)
          (congrArg (fun i => (⟨.assistant, i, a.response, outcome⟩ : Line)) hid) (fun x hx => hfresh c hc x hx)
        refine h.update (c := (concluded c messageId (a.withStatus outcome) outcome).stamped next now)
          (g := (a.withStatus outcome).stamped revision now) hclock ?_ (hchats.trans hconcluded) ?_ ?_ ?_ ?_ ?_
            (fun c' hc' => ?_) (fun g' hg' => ?_) htold
        · exact hgens'.trans (congrArg (fun i => put s.generations t i _) hid.symm)
        · exact fun t' i hi => hothers t' i fun heq => hi ⟨heq.1, heq.2.trans hid.symm⟩
        · have hlogged' : Logged env ((a.withStatus outcome).stamped revision now) (s'.outputs t g.id) := hhere.symm ▸ hlogged
          exact (congrArg (s'.outputs t) hid).symm ▸ hlogged'
        · exact hchatId.trans hcid.symm
        · exact hdeadline.trans hexpires.symm
        · exact fun ht => (hsame ht).trans howner.symm
        · have hc'' : s.chats t c.id = some c' := hc'
          rw [hcid, hc] at hc''
          obtain rfl := Option.some.inj hc''
          exact ⟨rfl, fun _ => rfl⟩
        · have hg'' : s.generations t a.id = some g' := hg'
          rw [hid, hrow] at hg''
          exact Option.some.inj hg'' ▸ hcid.symm
  · obtain rfl := Option.some.inj (hrow.symm.trans hold)
    exact hchatId

theorem append_consistent (h : Consistent env clock s) (hclock : clock ≤ now) {messageId : String}
    (hfresh : ∀ t i c, s.chats t i = some c → ∀ m ∈ c.messages, m.id ≠ messageId) {event : OutputEvent}
    (ha : append env s now t id messageId event = .ok s') : Consistent env now s' ∧ Extends s s' := by
  simp only [append, bind_eq_ok, context_eq_ok] at ha
  obtain ⟨g, hg, ha⟩ := ha
  split at ha
  · obtain rfl := Except.ok.inj ha
    exact ⟨h.later hclock, .refl s⟩
  · simp only [bind_eq_ok] at ha
    obtain ⟨e, -, ha⟩ := ha
    split at ha
    · simp only [bind_eq_ok, pure_eq_ok] at ha
      obtain ⟨_, -, rfl⟩ := ha
      exact ⟨h.later hclock, .refl s⟩
    · exact accept_consistent h hclock hg (fun c hc => hfresh t _ c hc) ha

/-- A conversation that nobody has written to. -/
theorem Transcript.fresh (h : Consistent env clock s) {c : Chat} (habsent : s.chats t c.id = none) (hmessages : c.messages = [])
    (hidle : c.activeGeneration = none) : Transcript s t c [] := by
  refine ⟨fun g => ⟨fun hg => absurd hg List.not_mem_nil, ?_⟩, List.nodup_nil, by rw [hmessages]; rfl, ?_, ?_,
    fun _ hg => ?_, hidle⟩
  · rintro ⟨hg, hchat⟩
    obtain ⟨c', hc', -⟩ := h.housed t _ g hg
    rw [hchat, habsent] at hc'
    cases hc'
  · simp [hmessages]
  · simp [hmessages]
  · exact absurd hg List.not_mem_nil

/-- A new prompt, in a conversation where no generation runs. -/
theorem prompt_consistent (h : Consistent env clock s) (hclock : clock ≤ now) {chat : Chat} {gs : List Generation}
    (htold : Transcript s t chat gs) (hidle : chat.activeGeneration = none) (hold : ∀ c, s.chats t chat.id = some c → c = chat)
    {actor : String} (howner : t = true → chat.ownerId = actor) (hapart : ∀ m ∈ chat.messages, m.role = .assistant → m.id ≠ id)
    (habsent : s.generations t id = none) {input : SendInput} {next revision : Int}
    (hchats : s'.chats = put s.chats t chat.id (some ((withPrompt chat id input).stamped next now)))
    (hgens : s'.generations = put s.generations t id (some ((freshGeneration actor chat id input now).stamped revision now)))
    (houtputs : s'.outputs = s.outputs) : Consistent env now s' ∧ Extends s s' := by
  have hrow : HasRow s s' t ((freshGeneration actor chat id input now).stamped revision now) := by
    intro i
    rw [hgens]
    by_cases hi : i = id
    · rw [hi, put_self]
      exact (if_pos rfl).symm
    · rw [put_of_ne _ _ fun heq => hi heq.2]
      exact (if_neg hi).symm
  have hlogged : Logged env ((freshGeneration actor chat id input now).stamped revision now) (s'.outputs t id) := by
    rw [houtputs, h.unlogged _ _ habsent]
    exact ⟨rfl, rfl, fun _ he => absurd he List.not_mem_nil⟩
  have hprompt := htold.prompt ((withPrompt chat id input).stamped next now) (m := userMessage id input) habsent hrow rfl rfl hidle
    rfl rfl rfl rfl rfl hapart
  refine ⟨h.update (c := (withPrompt chat id input).stamped next now)
    (g := (freshGeneration actor chat id input now).stamped revision now) hclock hgens hchats
      (fun _ _ _ => by rw [houtputs]) hlogged rfl rfl
    howner (fun c hc => ?_) (fun g hg => ?_) hprompt, .put (fun old hg => ?_) hgens (fun _ _ _ => by rw [houtputs])
      (by rw [houtputs])⟩
  · obtain rfl := hold c hc
    exact ⟨rfl, fun _ => rfl⟩
  · cases habsent.symm.trans hg
  · cases habsent.symm.trans hg

theorem createReservation_consistent (h : Consistent env clock s) (hclock : clock ≤ now) {actor : String} {input : SendInput}
    {capability freshId : String} (hexisting : ∀ c, input.chatId.bind (readChat s now input.temporary) = some c →
      (input.temporary = true → c.ownerId = actor) ∧ ∀ m ∈ c.messages, m.role = .assistant → m.id ≠ id)
    (hr : createReservation env s now actor input capability freshId id = .ok s') : Consistent env now s' ∧ Extends s s' := by
  simp only [createReservation, bind_eq_ok, pure_eq_ok, ensure_eq_ok, Option.isNone_iff_eq_none] at hr
  obtain ⟨_, -, _, -, _, hidle, _, -, a, hwchat, b, hwgen, _, -, _, -, rfl⟩ := hr
  have habsent := insert_absent hwgen
  obtain ⟨⟨revision, hgens⟩, hchats', houtputs', -, -⟩ := writeGeneration_eq_ok hwgen
  obtain ⟨hframe, next, hchats⟩ := writeChat_eq_ok hwchat
  rw [hframe.generations] at habsent hgens
  cases hfound : input.chatId.bind (readChat s now input.temporary) with
  | some c =>
      rw [hfound] at hgens hchats hidle
      obtain ⟨howner, hapart⟩ := hexisting c hfound
      obtain ⟨i, -, hread⟩ := Option.bind_eq_some_iff.mp hfound
      obtain ⟨hc, hunexpired⟩ : s.chats input.temporary i = some c ∧ unexpired now c.expiresAt = true :=
        Option.filter_eq_some_iff.mp hread
      rw [← h.keyed.chat _ i c hc] at hc
      obtain ⟨gs, hgs⟩ := h.told _ _ c hc (unexpired_mono hclock hunexpired)
      exact prompt_consistent h hclock hgs hidle (fun c' hc' => Option.some.inj (hc'.symm.trans hc)) howner hapart habsent
        (hchats'.trans hchats) hgens (houtputs'.trans hframe.outputs)
  | none =>
      rw [hfound] at hgens hwchat hchats hidle
      have hnew := writeChat_absent hwchat
      exact prompt_consistent h hclock (Transcript.fresh h (c := freshChat actor input now freshId) hnew rfl rfl) hidle
        (fun c' hc' => by cases hnew.symm.trans hc') (fun _ => rfl) (fun _ hm => absurd hm List.not_mem_nil) habsent
        (hchats'.trans hchats) hgens (houtputs'.trans hframe.outputs)

theorem reserve_consistent (h : Consistent env clock s) (hclock : clock ≤ now) {actor : String} {input : SendInput}
    {capability freshId : String} (hexisting : ∀ c, input.chatId.bind (readChat s now input.temporary) = some c →
      (input.temporary = true → c.ownerId = actor) ∧ ∀ m ∈ c.messages, m.role = .assistant →
        env.uuid input.idempotencyKey ≠ some m.id)
    (hr : reserve env s now actor input capability freshId = .ok s') : Consistent env now s' ∧ Extends s s' := by
  simp only [reserve, bind_eq_ok, context_eq_ok] at hr
  obtain ⟨i, hi, hr⟩ := hr
  split at hr
  · simp only [replayReservation, bind_eq_ok, pure_eq_ok] at hr
    obtain ⟨_, -, _, -, rfl⟩ := hr
    exact ⟨h.later hclock, .refl s⟩
  · refine createReservation_consistent h hclock (fun c hc => ?_) hr
    obtain ⟨howner, hapart⟩ := hexisting c hc
    refine ⟨howner, fun m hm hrole heq => hapart m hm hrole ?_⟩
    rw [hi, heq]

theorem perform_consistent (h : Consistent env clock s) {r : Request} (hr : Orderly env clock s r) (hp : perform env s r = .ok s') :
    Consistent env (r.time.getD clock) s' ∧ Extends s s' := by
  obtain ⟨hclock, hr⟩ := hr
  cases r with
  | reserve now actor input capability freshId => exact reserve_consistent h (hclock now rfl) hr hp
  | append now t id messageId event => exact append_consistent h (hclock now rfl) hr hp
  | recordEvidence now t id sources => exact recordEvidence_consistent h (hclock now rfl) hp
  | saveChat now t chat expected =>
      obtain ⟨revision, rfl, hedit⟩ := hr
      exact saveChat_consistent h (hclock now rfl) hedit hp
  | saveGeneration now t g expected =>
      obtain ⟨revision, rfl, hedit⟩ := hr
      exact saveGeneration_consistent h (hclock now rfl) hedit hp
  | expireTemporary now owner session =>
      obtain rfl := Except.ok.inj hp
      exact expireTemporary_consistent h (hclock now rfl) owner session
  | removeChat t id =>
      obtain rfl := Except.ok.inj hp
      exact removeChat_consistent h t id
  | removeGeneration t id =>
      obtain rfl := Except.ok.inj hp
      exact removeGeneration_consistent h hr

theorem step_consistent {w : Timed} (h : Consistent env w.clock w.store) {r : Request} (hr : Orderly env w.clock w.store r) :
    Consistent env (w.step env r).clock (w.step env r).store ∧ Extends w.store (w.step env r).store := by
  rw [Timed.step, Store.step]
  split
  · next s' hp => exact perform_consistent h hr hp
  · refine ⟨?_, .refl w.store⟩
    cases htime : r.time with
    | none => exact h
    | some now => exact h.later (hr.1 now htime)

variable {log : List OutputEvent}

theorem advance_response {event : OutputEvent} (h : advance env g event = .ok g') :
    g'.response = if event.kind = .content then g.response ++ event.content else g.response := by
  simp only [advance, bind_eq_ok] at h
  obtain ⟨_, -, h⟩ := h
  cases hk : event.kind with
  | content =>
      simp only [hk, addContent, bind_eq_ok, pure_eq_ok] at h
      obtain ⟨_, -, rfl⟩ := h
      rfl
  | tool =>
      simp only [hk, addTool, bind_eq_ok, pure_eq_ok] at h
      obtain ⟨_, -, rfl⟩ := h
      split <;> rfl
  | activity =>
      simp only [hk, addActivity, bind_eq_ok] at h
      obtain ⟨activity, -, h⟩ := h
      cases activity with
      | emailDraft =>
          simp only [bind_eq_ok, pure_eq_ok] at h
          obtain ⟨_, -, rfl⟩ := h
          rfl
      | webResearch | warning | python | question | silent =>
          simp only [pure_eq_ok] at h
          subst h
          rfl
  | completed | failed | cancelled =>
      simp only [hk, Except.ok.injEq] at h
      subst h
      rfl
  | heartbeat | other => simp [hk] at h

theorem foldlM_advance (h : log.foldlM (advance env) g = .ok g') :
    log.map OutputEvent.sequence = (List.range log.length).map (fun n => ((g.sequence + n : Nat) : Int) + 1) ∧
      g'.sequence = g.sequence + log.length ∧
      g'.response = (log.filter (·.kind = .content)).foldl (fun text e => text ++ e.content) g.response := by
  induction log generalizing g with
  | nil =>
      obtain rfl := Except.ok.inj h
      exact ⟨rfl, rfl, rfl⟩
  | cons e log ih =>
      obtain ⟨a, ha, hrest⟩ := bind_eq_ok.mp h
      obtain ⟨hgap, hnext⟩ := advance_sequence ha
      obtain ⟨hnumbers, hlast, htext⟩ := ih hrest
      refine ⟨?_, ?_, ?_⟩
      · rw [List.map_cons, hnumbers, List.length_cons, List.range_succ_eq_map, List.map_cons, List.map_map, hgap, hnext]
        refine congrArg₂ _ rfl (List.map_congr_left fun n _ => ?_)
        simp only [Function.comp_apply]
        push_cast
        omega
      · rw [hlast, hnext, List.length_cons]
        omega
      · rw [htext, advance_response ha, List.filter_cons]
        by_cases hkind : e.kind = .content
        · simp [hkind]
        · simp [hkind]

theorem Logged.numbered (h : Logged env g log) :
    log.map OutputEvent.sequence = (List.range g.sequence).map (fun n : Nat => (n : Int) + 1) ∧ log.length = g.sequence ∧
      g.response = written log := by
  obtain ⟨hnumbers, hlast, htext⟩ := foldlM_advance h.replays
  have hlength : log.length = g.sequence := by
    rw [hlast]
    exact (Nat.zero_add _).symm
  refine ⟨?_, hlength, htext⟩
  rw [hnumbers, hlength]
  refine List.map_congr_left fun n _ => ?_
  have hzero : g.blank.sequence = 0 := rfl
  rw [hzero, Nat.zero_add]

/-- The log of a generation that has ended does not grow. -/
theorem Logged.frozen {log' : List OutputEvent} (h : Logged env g log) (h' : Logged env g' log') (hgrown : log <+: log')
    (hended : g.outcome ≠ none) : log' = log ∧ g'.outcome = g.outcome ∧ g'.response = g.response := by
  have hsame : log' = log := by
    obtain ⟨more, rfl⟩ := hgrown
    rcases List.eq_nil_or_concat log with rfl | ⟨init, last, rfl⟩
    · exact absurd h.ended.symm hended
    · rw [List.concat_eq_append] at h h' ⊢
      cases more with
      | nil => exact List.append_nil _
      | cons e more =>
          have hlast := h.ended
          rw [List.getLast?_concat] at hlast
          have hmem : last ∈ (init ++ [last] ++ e :: more).dropLast := by
            rw [List.dropLast_append_of_ne_nil (List.cons_ne_nil _ _)]
            exact List.mem_append_left _ (List.mem_append_right _ (List.mem_singleton_self _))
          exact absurd (hlast.symm.trans (h'.earlier last hmem)) hended
  subst hsame
  exact ⟨rfl, h'.ended.symm.trans h.ended, h'.numbered.2.2.trans h.numbered.2.2.symm⟩

theorem consistent_empty (env : Engine) (clock : Int) : Consistent env clock .empty := by
  refine ⟨keyed_empty, fun t i g hg => ?_, fun _ _ _ => rfl, fun t i g hg => ?_, fun t i c hc => ?_⟩
  · cases hg
  · cases hg
  · cases hc

def Timed.after (env : Engine) (start : Int) (requests : List Request) : Timed := run (Timed.step env) ⟨start, .empty⟩ requests

theorem after_consistent {start : Int} {requests : List Request}
    (h : Along (Timed.step env) (fun w r => Orderly env w.clock w.store r) ⟨start, .empty⟩ requests) :
    Consistent env (Timed.after env start requests).clock (Timed.after env start requests).store :=
  have hstep : ∀ (w : Timed) (r : Request), Consistent env w.clock w.store → Orderly env w.clock w.store r →
      Consistent env (w.step env r).clock (w.step env r).store := fun _ _ hw hr => (step_consistent hw hr).1
  run_invariant hstep (consistent_empty env start) h

/-- Whatever the order of prompts, output, cancellations, expiries, edits and
deletions, the log of every generation is numbered from one on, its texts are the
answer, its last event alone ends it, and then it stays as it is. Every
conversation tells the turns of its generations in their order: their prompts, and
an answer with its final text and status for each of them that has ended. Only the
last one may be running, and it is the active one. -/
theorem transcripts_consistent (env : Engine) (start : Int) (requests : List Request)
    (h : Along (Timed.step env) (fun w r => Orderly env w.clock w.store r) ⟨start, .empty⟩ requests) :
    (∀ t i g, (Timed.after env start requests).store.generations t i = some g → g.id = i ∧
      ((Timed.after env start requests).store.outputs t i).map OutputEvent.sequence = (List.range g.sequence).map
      (fun n : Nat => (n : Int) + 1) ∧
      g.response = written ((Timed.after env start requests).store.outputs t i) ∧
      (((Timed.after env start requests).store.outputs t i).getLast?.bind fun e => e.kind.outcome) = g.outcome ∧
      ∀ e ∈ ((Timed.after env start requests).store.outputs t i).dropLast, e.kind.outcome = none) ∧
    (∀ t i c, (Timed.after env start requests).store.chats t i = some c →
      unexpired (Timed.after env start requests).clock c.expiresAt = true →
      ∃ gs, Transcript (Timed.after env start requests).store t c gs) ∧
    ∀ r, Orderly env (Timed.after env start requests).clock (Timed.after env start requests).store r → ∀ t i g,
      (Timed.after env start requests).store.generations t i = some g → g.outcome ≠ none →
      ((Timed.after env start requests).store.step env r).generations t i = none ∨
        ((Timed.after env start requests).store.step env r).outputs t i = (Timed.after env start requests).store.outputs t i ∧
        ∃ g', ((Timed.after env start requests).store.step env r).generations t i = some g' ∧ g'.outcome = g.outcome ∧
          g'.response = g.response := by
  have hconsistent := after_consistent h
  refine ⟨fun t i g hg => ?_, hconsistent.told, fun r hr t i g hg hended => ?_⟩
  · have hlogged := hconsistent.logged t i g hg
    obtain ⟨hnumbers, -, htext⟩ := hlogged.numbered
    exact ⟨hconsistent.keyed.generation t i g hg, hnumbers, htext, hlogged.ended, hlogged.earlier⟩
  · obtain ⟨hnext, hextends⟩ := step_consistent hconsistent hr
    rcases hextends t i g hg with hgone | ⟨⟨g', hg', -⟩, hgrown⟩
    · exact .inl hgone
    · obtain ⟨hlog, houtcome, hresponse⟩ := (hconsistent.logged t i g hg).frozen (hnext.logged t i g' hg') hgrown hended
      exact .inr ⟨hlog, g', hg', houtcome, hresponse⟩

def sampleKey : String := "7f1f0d6e3c1b4f6c9d530f5d6d1a2b3c"

def answeredRun : List Request :=
  [.reserve 0 "ada" (sampleInput false) "t1" "c1", .append 1 false sampleKey "m1" ⟨1, .content, "Hello"⟩,
    .append 2 false sampleKey "m2" ⟨2, .completed, ""⟩]

theorem fresh_beside_prompt {s : Store} {c : Chat} {messageId : String} (hs : s.chats = put (fun _ _ => none) false "c1" (some c))
    (hc : c.messages.map Message.id = [sampleKey]) (hfresh : messageId ≠ sampleKey) :
    ∀ t i c, s.chats t i = some c → ∀ m ∈ c.messages, m.id ≠ messageId := by
  intro t i c' hc' m hm
  rw [hs] at hc'
  by_cases hi : t = false ∧ i = "c1"
  · rw [hi.1, hi.2, put_self] at hc'
    obtain rfl := Option.some.inj hc'
    have hid : m.id ∈ c.messages.map Message.id := List.mem_map_of_mem hm
    rw [hc, List.mem_singleton] at hid
    exact hid ▸ hfresh.symm
  · rw [put_of_ne _ _ hi] at hc'
    cases hc'

theorem answeredRun_orderly : Along (Timed.step sampleEngine)
    (fun w r => Orderly sampleEngine w.clock w.store r) ⟨0, .empty⟩ answeredRun := by
  have hlater : ∀ {clock now : Int}, clock ≤ now → ∀ n, some now = some n → clock ≤ n := fun h n hn => Option.some.inj hn ▸ h
  refine ⟨⟨hlater (Int.le_refl 0), fun c hc => ?_⟩, ⟨hlater (show (0 : Int) ≤ 1 by decide), ?_⟩,
    ⟨hlater (show (1 : Int) ≤ 2 by decide), ?_⟩,
    trivial⟩
  · cases hc
  · exact fresh_beside_prompt (c :=
      (withPrompt (freshChat "ada" (sampleInput false) 0 "c1") sampleKey (sampleInput false)).stamped 1 0)
      rfl rfl (by decide)
  · exact fresh_beside_prompt (c :=
      (withPrompt (freshChat "ada" (sampleInput false) 0 "c1") sampleKey (sampleInput false)).stamped 1 0)
      rfl rfl (by decide)

theorem transcripts_consistent_answered : ∃ c gs, (Timed.after sampleEngine 0 answeredRun).store.chats false "c1" = some c ∧
    c.messages.map Message.text = ["hello", "Hello"] ∧ Transcript (Timed.after sampleEngine 0 answeredRun).store false c gs := by
  have hmessages : ((Timed.after sampleEngine 0 answeredRun).store.chats false "c1").map
    (fun c => (c.messages.map Message.text, c.expiresAt)) =
      some (["hello", "Hello"], none) := by
    decide +kernel
  obtain ⟨c, hc, htexts⟩ := Option.map_eq_some_iff.mp hmessages
  obtain ⟨gs, hgs⟩ := (transcripts_consistent sampleEngine 0 answeredRun answeredRun_orderly).2.1 false "c1" c hc
    (by rw [show c.expiresAt = none from congrArg Prod.snd htexts]; rfl)
  exact ⟨c, gs, hc, congrArg Prod.fst htexts, hgs⟩

end Galadril.Pengolo
