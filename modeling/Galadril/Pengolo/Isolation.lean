import Galadril.Lib.Transitions
import Galadril.Pengolo.Output

namespace Galadril.Pengolo

open Json Lib.Checked Lib.Transitions

variable {env : Engine} {s s' : Store} {now : Int} {temporary : Bool}

structure ChatsOnly (s s' : Store) : Prop where
  generations : s'.generations = s.generations
  outputs : s'.outputs = s.outputs
  capabilities : s'.capabilities = s.capabilities
  lease : s'.retention .lease = s.retention .lease

theorem retain_frame (s : Store) {kind : RetentionKind} (hk : kind ≠ .lease) (id : String) (temporary : Bool)
    (deadline : Option Int) : ChatsOnly s (retain s kind id temporary deadline) ∧
      (retain s kind id temporary deadline).chats = s.chats := by
  cases deadline with
  | none => exact ⟨⟨rfl, rfl, rfl, rfl⟩, rfl⟩
  | some d =>
      refine ⟨⟨rfl, rfl, rfl, ?_⟩, rfl⟩
      funext i t
      simp [retain, hk.symm]

theorem writeChat_eq_ok {chat : Chat} {expected : Option Int} (h : writeChat env s now temporary chat expected = .ok s') :
    ChatsOnly s s' ∧ ∃ revision, s'.chats = put s.chats temporary chat.id (some (chat.stamped revision now)) := by
  simp only [writeChat, bind_eq_ok, pure_eq_ok] at h
  obtain ⟨revision, -, _, -, rfl⟩ := h
  obtain ⟨hframe, hchats⟩ := retain_frame
    { s with chats := put s.chats temporary chat.id (some (chat.stamped revision now)) }
    (show RetentionKind.chat ≠ .lease by decide) chat.id temporary chat.expiresAt
  exact ⟨⟨hframe.generations, hframe.outputs, hframe.capabilities, hframe.lease⟩, revision, hchats⟩

theorem writeGeneration_eq_ok {g : Generation} {expected : Option Int}
    (h : writeGeneration env s now temporary g expected = .ok s') :
    (∃ revision, s'.generations = put s.generations temporary g.id (some (g.stamped revision now))) ∧
      s'.chats = s.chats ∧ s'.outputs = s.outputs ∧ s'.capabilities = s.capabilities ∧
      s'.retention .lease = s.retention .lease := by
  simp only [writeGeneration, bind_eq_ok, pure_eq_ok] at h
  obtain ⟨revision, -, _, -, rfl⟩ := h
  obtain ⟨hframe, hchats⟩ := retain_frame
    { s with generations := put s.generations temporary g.id (some (g.stamped revision now)) }
    (show RetentionKind.generation ≠ .lease by decide) g.id temporary g.expiresAt
  exact ⟨⟨revision, hframe.generations⟩, hchats, hframe.outputs, hframe.capabilities, hframe.lease⟩

/-- What a transaction on one generation does to the tables of generations. -/
structure Confined (s s' : Store) (t : Bool) (id : String) : Prop where
  generations : ∀ t' i, ¬ (t' = t ∧ i = id) → s'.generations t' i = s.generations t' i
  outputs : ∀ t' i, ¬ (t' = t ∧ i = id) → s'.outputs t' i = s.outputs t' i
  capabilities : s'.capabilities = s.capabilities ∨ s'.capabilities = s.capabilities.filter fun c => c.generationId != id
  lease : ∀ i t', s'.retention .lease i t' = s.retention .lease i t' ∨
    (i = id ∧ (t' = t ∨ s'.retention .lease i t' = none))

theorem concludeChat_frame {messageId : String} {g : Generation} {outcome : Status}
    (h : concludeChat env s now temporary messageId g outcome = .ok s') : ChatsOnly s s' := by
  rw [concludeChat] at h
  split at h
  · exact (writeChat_eq_ok h).1
  · cases h
    exact ⟨rfl, rfl, rfl, rfl⟩

theorem conclude_frame {messageId : String} {g : Generation} {outcome : Status}
    (h : conclude env s now temporary messageId g outcome = .ok s') :
    s'.generations = s.generations ∧ s'.outputs = s.outputs ∧
      (s'.capabilities = s.capabilities.filter fun c => c.generationId != g.id) ∧
      ∀ i t, s'.retention .lease i t = if i = g.id then none else s.retention .lease i t := by
  simp only [conclude, bind_eq_ok, pure_eq_ok] at h
  obtain ⟨m, hm, rfl⟩ := h
  have hframe := concludeChat_frame hm
  refine ⟨hframe.generations, hframe.outputs, by rw [hframe.capabilities], fun i t => ?_⟩
  simp [hframe.lease]

theorem settle_confined {messageId : String} {g : Generation} {outcome : Option Status}
    (h : settle env s now temporary messageId g outcome = .ok s') :
    s'.generations = s.generations ∧ s'.outputs = s.outputs ∧ Confined s s' temporary g.id := by
  cases outcome with
  | some outcome =>
      obtain ⟨hg, ho, hc, hl⟩ := conclude_frame h
      refine ⟨hg, ho, fun t i _ => by rw [hg], fun t i _ => by rw [ho], .inr hc, fun i t => ?_⟩
      rw [hl]
      split
      · next hi => exact .inr ⟨hi, .inr rfl⟩
      · exact .inl rfl
  | none =>
      simp only [settle, Except.ok.injEq] at h
      subst h
      refine ⟨rfl, rfl, fun _ _ _ => rfl, fun _ _ _ => rfl, .inl rfl, fun i t => ?_⟩
      by_cases hi : i = g.id ∧ t = temporary
      · exact .inr ⟨hi.1, .inl hi.2⟩
      · simp [extendLease, hi]

/-- What the events of a log leave alone in its generation. -/
structure SameRow (g g' : Generation) : Prop where
  id : g'.id = g.id
  chatId : g'.chatId = g.chatId
  ownerId : g'.ownerId = g.ownerId
  projectId : g'.projectId = g.projectId
  expiresAt : g'.expiresAt = g.expiresAt

theorem advance_sameRow {g g' : Generation} {event : OutputEvent} (h : advance env g event = .ok g') : SameRow g g' := by
  simp only [advance, bind_eq_ok] at h
  obtain ⟨_, -, h⟩ := h
  cases hk : event.kind with
  | content =>
      simp only [hk, addContent, bind_eq_ok, pure_eq_ok] at h
      obtain ⟨_, -, rfl⟩ := h
      exact ⟨rfl, rfl, rfl, rfl, rfl⟩
  | tool =>
      simp only [hk, addTool, bind_eq_ok, pure_eq_ok] at h
      obtain ⟨_, -, rfl⟩ := h
      split <;> exact ⟨rfl, rfl, rfl, rfl, rfl⟩
  | activity =>
      simp only [hk, addActivity, bind_eq_ok] at h
      obtain ⟨activity, -, h⟩ := h
      cases activity with
      | emailDraft =>
          simp only [bind_eq_ok, pure_eq_ok] at h
          obtain ⟨_, -, rfl⟩ := h
          exact ⟨rfl, rfl, rfl, rfl, rfl⟩
      | webResearch | warning | python | question | silent =>
          simp only [pure_eq_ok] at h
          subst h
          exact ⟨rfl, rfl, rfl, rfl, rfl⟩
  | completed | failed | cancelled =>
      simp only [hk, Except.ok.injEq] at h
      subst h
      exact ⟨rfl, rfl, rfl, rfl, rfl⟩
  | heartbeat | other => simp [hk] at h

theorem withLog_self (s : Store) (t : Bool) (id : String) : s.withLog t id (s.outputs t id) = s := by
  have hput : put s.outputs t id (s.outputs t id) = s.outputs := by
    funext t' i
    by_cases hi : t' = t ∧ i = id
    · rw [hi.1, hi.2, put_self]
    · exact put_of_ne _ _ hi
  rw [Store.withLog, hput]

theorem extend_frame {g g' : Generation} {event : OutputEvent} (h : extend env s now temporary g event = .ok (s', g')) :
    SameRow g g' ∧ ∃ log, s' = s.withLog temporary g.id log := by
  simp only [extend] at h
  split at h
  · simp only [pure_eq_ok, Prod.mk.injEq] at h
    obtain ⟨rfl, rfl⟩ := h
    exact ⟨⟨rfl, rfl, rfl, rfl, rfl⟩, s.outputs temporary g.id, (withLog_self s temporary g.id).symm⟩
  · simp only [bind_eq_ok, pure_eq_ok, Prod.mk.injEq] at h
    obtain ⟨a, ha, m, hm, rfl, rfl⟩ := h
    obtain ⟨hid, hchat, howner, hproject, hexpires⟩ := advance_sameRow ha
    simp only [appendOutput, bind_eq_ok, pure_eq_ok] at hm
    obtain ⟨_, -, _, -, rfl⟩ := hm
    have hid : a.id = g.id := hid
    exact ⟨⟨hid, hchat, howner, hproject, hexpires⟩, s.outputs temporary a.id ++ [event], by rw [hid]⟩

theorem accept_eq_ok {messageId : String} {g : Generation} {event : OutputEvent}
    (h : accept env s now temporary messageId g event = .ok s') :
    g.status.terminal = false ∧ ∃ m g' n, extend env s now temporary g event = .ok (m, g') ∧
      settle env m now temporary messageId (g'.withStatus (event.kind.outcome.getD .running)) event.kind.outcome = .ok n ∧
      writeGeneration env n now temporary (g'.withStatus (event.kind.outcome.getD .running)) (some g.revision) = .ok s' := by
  simp only [accept, bind_eq_ok, ensure_eq_ok, Bool.not_eq_true'] at h
  obtain ⟨_, ht, _, -, ⟨m, g'⟩, hext, n, hset, hw⟩ := h
  exact ⟨ht, m, g', n, hext, hset, hw⟩

theorem accept_confined {messageId : String} {g : Generation} {event : OutputEvent}
    (h : accept env s now temporary messageId g event = .ok s') : Confined s s' temporary g.id := by
  obtain ⟨-, m, g', n, hext, hset, hw⟩ := accept_eq_ok h
  obtain ⟨hrow, log, rfl⟩ := extend_frame hext
  obtain ⟨hgens, houts, hconf⟩ := settle_confined hset
  obtain ⟨⟨revision, hg⟩, -, ho, hc, hl⟩ := writeGeneration_eq_ok hw
  have hid : (g'.withStatus (event.kind.outcome.getD .running)).id = g.id := hrow.id
  rw [hid] at hg hconf
  refine ⟨fun t i hne => ?_, fun t i hne => ?_, ?_, fun i t => ?_⟩
  · rw [hg, put_of_ne _ _ hne, hgens]
    rfl
  · rw [ho, houts]
    exact put_of_ne _ _ hne
  · rw [hc]
    exact hconf.capabilities
  · rw [hl]
    exact hconf.lease i t

theorem append_confined {id messageId : String} {event : OutputEvent}
    (hkey : ∀ g, s.generations temporary id = some g → g.id = id)
    (h : append env s now temporary id messageId event = .ok s') : Confined s s' temporary id := by
  have hsame : Confined s s temporary id := ⟨fun _ _ _ => rfl, fun _ _ _ => rfl, .inl rfl, fun _ _ => .inl rfl⟩
  simp only [append, bind_eq_ok, context_eq_ok] at h
  obtain ⟨g, hg, h⟩ := h
  have hid : g.id = id := hkey g (Option.filter_eq_some_iff.mp hg).1
  split at h
  · simp only [pure_eq_ok] at h
    exact h ▸ hsame
  · simp only [bind_eq_ok] at h
    obtain ⟨e, -, h⟩ := h
    split at h
    · simp only [bind_eq_ok, pure_eq_ok] at h
      obtain ⟨_, -, rfl⟩ := h
      exact hsame
    · exact hid ▸ accept_confined h

theorem removeGeneration_confined (s : Store) (t : Bool) (id : String) : Confined s (removeGeneration s t id) t id := by
  refine ⟨fun t' i hne => put_of_ne _ _ hne, fun t' i hne => put_of_ne _ _ hne, .inr rfl, fun i t' => ?_⟩
  by_cases hi : i = id
  · exact .inr ⟨hi, .inr (by simp [removeGeneration, hi])⟩
  · exact .inl (by simp [removeGeneration, hi])

structure Keyed (s : Store) : Prop where
  chat : ∀ t i c, s.chats t i = some c → c.id = i
  generation : ∀ t i g, s.generations t i = some g → g.id = i

theorem put_id {α : Type} (key : α → String) {rows : Bool → String → Option α} {t : Bool} {id : String} {row : Option α}
    (h : ∀ t i a, rows t i = some a → key a = i) (hrow : ∀ a, row = some a → key a = id) {t' : Bool} {i : String} {a : α}
    (ha : put rows t id row t' i = some a) : key a = i := by
  by_cases hi : t' = t ∧ i = id
  · rw [hi.1, hi.2, put_self] at ha
    rw [hi.2, hrow a ha]
  · rw [put_of_ne _ _ hi] at ha
    exact h t' i a ha

theorem Keyed.writeChat (h : Keyed s) {now : Int} {t : Bool} {chat : Chat} {expected : Option Int}
    (hw : writeChat env s now t chat expected = .ok s') : Keyed s' := by
  obtain ⟨hframe, revision, hchats⟩ := writeChat_eq_ok hw
  refine ⟨fun t' i c hc => ?_, fun t' i g hg => h.generation t' i g (hframe.generations ▸ hg)⟩
  rw [hchats] at hc
  refine put_id Chat.id h.chat ?_ hc
  rintro a ⟨⟩
  rfl

theorem Keyed.writeGeneration (h : Keyed s) {now : Int} {t : Bool} {g : Generation} {expected : Option Int}
    (hw : writeGeneration env s now t g expected = .ok s') : Keyed s' := by
  obtain ⟨⟨revision, hgens⟩, hchats, -⟩ := writeGeneration_eq_ok hw
  refine ⟨fun t' i c hc => h.chat t' i c (hchats ▸ hc), fun t' i a ha => ?_⟩
  rw [hgens] at ha
  refine put_id Generation.id h.generation ?_ ha
  rintro b ⟨⟩
  rfl

theorem Keyed.mono (h : Keyed s) (hc : s'.chats = s.chats) (hg : s'.generations = s.generations) : Keyed s' :=
  ⟨fun t i c hr => h.chat t i c (hc ▸ hr), fun t i g hr => h.generation t i g (hg ▸ hr)⟩

theorem Keyed.reserve (h : Keyed s) {now : Int} {actor : String} {input : SendInput} {capability freshId : String}
    (hr : reserve env s now actor input capability freshId = .ok s') : Keyed s' := by
  simp only [Pengolo.reserve, bind_eq_ok, context_eq_ok] at hr
  obtain ⟨id, -, hr⟩ := hr
  split at hr
  · simp only [replayReservation, bind_eq_ok, pure_eq_ok] at hr
    obtain ⟨_, -, _, -, rfl⟩ := hr
    exact h
  · simp only [createReservation, bind_eq_ok, pure_eq_ok] at hr
    obtain ⟨_, -, _, -, _, -, _, -, a, ha, b, hb, _, -, _, -, rfl⟩ := hr
    exact ((h.writeChat ha).writeGeneration hb).mono rfl rfl

theorem Keyed.accept (h : Keyed s) {now : Int} {t : Bool} {messageId : String} {g : Generation} {event : OutputEvent}
    (ha : accept env s now t messageId g event = .ok s') : Keyed s' := by
  obtain ⟨-, m, g', n, hext, hset, hw⟩ := accept_eq_ok ha
  obtain ⟨-, log, rfl⟩ := extend_frame hext
  refine Keyed.writeGeneration ?_ hw
  have hm : Keyed (s.withLog t g.id log) := h.mono rfl rfl
  cases ho : event.kind.outcome with
  | none =>
      rw [ho] at hset
      simp only [settle, Except.ok.injEq] at hset
      subst hset
      exact hm.mono rfl rfl
  | some outcome =>
      rw [ho] at hset
      simp only [settle, conclude, bind_eq_ok, pure_eq_ok] at hset
      obtain ⟨c, hc, rfl⟩ := hset
      rw [concludeChat] at hc
      split at hc
      · exact (hm.writeChat hc).mono rfl rfl
      · cases hc
        exact hm.mono rfl rfl

theorem Keyed.append (h : Keyed s) {now : Int} {t : Bool} {id messageId : String} {event : OutputEvent}
    (ha : append env s now t id messageId event = .ok s') : Keyed s' := by
  simp only [Pengolo.append, bind_eq_ok, context_eq_ok] at ha
  obtain ⟨g, hg, ha⟩ := ha
  split at ha
  · simp only [pure_eq_ok] at ha
    exact ha ▸ h
  · simp only [bind_eq_ok] at ha
    obtain ⟨e, -, ha⟩ := ha
    split at ha
    · simp only [bind_eq_ok, pure_eq_ok] at ha
      obtain ⟨_, -, rfl⟩ := ha
      exact h
    · exact h.accept ha

theorem Keyed.step (h : Keyed s) (r : Request) : Keyed (s.step env r) := by
  rw [Store.step]
  split
  · next s' hr =>
      cases r with
      | reserve => exact h.reserve hr
      | append => exact h.append hr
      | recordEvidence now t id sources =>
          simp only [perform, recordEvidence, bind_eq_ok] at hr
          obtain ⟨g, -, evidence, -, hw⟩ := hr
          exact h.writeGeneration hw
      | saveChat now t chat expected =>
          simp only [perform, saveChat, bind_eq_ok, pure_eq_ok] at hr
          obtain ⟨m, hw, rfl⟩ := hr
          have hm := h.writeChat hw
          refine ⟨hm.chat, fun t' i g hg => ?_⟩
          obtain ⟨a, ha, rfl⟩ := Option.map_eq_some_iff.mp hg
          rw [← hm.generation t' i a ha]
          split <;> rfl
      | saveGeneration => exact h.writeGeneration hr
      | expireTemporary now owner session =>
          cases hr
          refine ⟨fun t i c hc => ?_, fun t i g hg => ?_⟩
          · obtain ⟨a, ha, rfl⟩ := Option.map_eq_some_iff.mp hc
            rw [← h.chat t i a ha]
            split <;> rfl
          · obtain ⟨a, ha, rfl⟩ := Option.map_eq_some_iff.mp hg
            rw [← h.generation t i a ha]
            split <;> rfl
      | removeChat t id =>
          cases hr
          refine ⟨fun t' i c hc => put_id Chat.id h.chat (fun a ha => by cases ha) hc, fun t' i g hg => ?_⟩
          simp only [removeChat] at hg
          split at hg
          · cases hg
          · exact h.generation t' i g hg
      | removeGeneration t id =>
          cases hr
          exact ⟨h.chat, fun t' i g hg => put_id Generation.id h.generation (fun a ha => by cases ha) hg⟩
  · exact h

section Isolation

variable (env : Engine)

def reached (requests : List Request) : Store := run (Store.step env) .empty requests

theorem keyed_empty : Keyed .empty := by
  refine ⟨fun _ _ _ h => ?_, fun _ _ _ h => ?_⟩
  · cases h
  · cases h

theorem reached_keyed (requests : List Request) : Keyed (reached env requests) :=
  run_invariant_always (fun _ r h => h.step r) keyed_empty requests

/-- Output, cancellation and lease expiry append an event to a generation; its
removal deletes it. -/
inductive Operation
  | append (now : Int) (messageId : String) (event : OutputEvent)
  | remove

def operate (s : Store) (t : Bool) (id : String) : Operation → Store
  | .append now messageId event => s.step env (.append now t id messageId event)
  | .remove => s.step env (.removeGeneration t id)

def ofGeneration (t : Bool) (id : String) (c : Capability) : Bool := c.generationId == id && c.temporary == t

/-- A generation that a transaction on another one leaves alone. -/
structure Untouched (s s' : Store) (t : Bool) (id : String) : Prop where
  record : s'.generations t id = s.generations t id
  events : s'.outputs t id = s.outputs t id
  capability : s'.capabilities.filter (ofGeneration t id) = s.capabilities.filter (ofGeneration t id)
  lease : s'.retention .lease id t = s.retention .lease id t

variable {env}

theorem operate_confined {s : Store} (hk : Keyed s) (t : Bool) (id : String) (op : Operation) :
    Confined s (operate env s t id op) t id := by
  cases op with
  | append now messageId event =>
      simp only [operate, Store.step]
      split
      · next s' h => exact append_confined (fun g hg => hk.generation t id g hg) h
      · exact ⟨fun _ _ _ => rfl, fun _ _ _ => rfl, .inl rfl, fun _ _ => .inl rfl⟩
  | remove => exact removeGeneration_confined s t id

/-- Capabilities and leases are kept by id alone, so a confined transaction
reaches at most the generation of the same id with the opposite flag. -/
theorem Confined.untouched {s s' : Store} {t : Bool} {id : String} (h : Confined s s' t id)
    (hcap : ∀ c ∈ s.capabilities, c.generationId = id → c.temporary = t) (hlease : s.retention .lease id (!t) = none)
    {t' : Bool} {i : String} (hne : ¬ (t' = t ∧ i = id)) : Untouched s s' t' i := by
  refine ⟨h.generations t' i hne, h.outputs t' i hne, ?_, ?_⟩
  · rcases h.capabilities with hc | hc
    · rw [hc]
    · rw [hc, List.filter_filter]
      refine List.filter_congr fun c hc => ?_
      by_cases hi : c.generationId = id
      · have hct := hcap c hc hi
        have hother : ofGeneration t' i c = false := by
          rw [Bool.eq_false_iff]
          intro ho
          simp only [ofGeneration, Bool.and_eq_true, beq_iff_eq] at ho
          exact hne ⟨ho.2.symm.trans hct, ho.1.symm.trans hi⟩
        simp [hother]
      · simp [hi]
  · rcases h.lease i t' with hl | ⟨hi, ht | hl⟩
    · exact hl
    · exact absurd ⟨ht, hi⟩ hne
    · have ht : t' = !t := by
        have : t' ≠ t := fun ht => hne ⟨ht, hi⟩
        cases t <;> cases t' <;> simp_all
      rw [hl, hi, ht, hlease]

/-- Operations on a generation leave all others alone, and its capability is
not taken for another's, exactly when no generation with the same id and the
opposite flag has a capability or a lease. -/
theorem generations_isolated (requests : List Request) (t : Bool) (id : String) :
    ((∀ op t' i, ¬ (t' = t ∧ i = id) →
        Untouched (reached env requests) (operate env (reached env requests) t id op) t' i) ∧
      ∀ c ∈ generationCapability (reached env requests) id, c.temporary = t) ↔
    (∀ c ∈ (reached env requests).capabilities, c.generationId = id → c.temporary = t) ∧
      (reached env requests).retention .lease id (!t) = none := by
  constructor
  · rintro ⟨hops, hrows⟩
    refine ⟨fun c hc hi => hrows c (List.mem_filter.mpr ⟨hc, by simp [hi]⟩), ?_⟩
    have hne : ¬ ((!t) = t ∧ id = id) := by simp
    have hlease := (hops .remove (!t) id hne).lease
    simpa [operate, Store.step, perform, removeGeneration] using hlease.symm
  · rintro ⟨hcap, hlease⟩
    refine ⟨fun op t' i hne => ?_, fun c hc => ?_⟩
    · exact (operate_confined (reached_keyed env requests) t id op).untouched hcap hlease hne
    · obtain ⟨hc, hi⟩ := List.mem_filter.mp hc
      exact hcap c hc (by simpa using hi)

def sampleInput (temporary : Bool) : SendInput where
  idempotencyKey := "7f1f0d6e3c1b4f6c9d530f5d6d1a2b3c"
  chatId := none
  projectId := none
  prompt := "hello"
  modelAlias := "m"
  agentIds := []
  fileIds := []
  graphContext := none
  webQuery := none
  webSearch := false
  temporary := temporary
  withLibrary := false

def sampleEngine : Engine := ⟨some, fun _ => .ok .silent, fun _ _ => true, fun _ _ => true, fun _ => true⟩

def sampleRequests : List Request :=
  [.reserve 0 "ada" (sampleInput false) "t1" "c1", .reserve 1 "ada" (sampleInput true) "t2" "c2"]

/-- Cancelling the one generation takes the other's capability and lease. -/
theorem capability_shared :
    (reached sampleEngine sampleRequests).capabilities =
      [⟨"t2", "7f1f0d6e3c1b4f6c9d530f5d6d1a2b3c", true, 900001⟩, ⟨"t1", "7f1f0d6e3c1b4f6c9d530f5d6d1a2b3c", false, 900000⟩] ∧
    (operate sampleEngine (reached sampleEngine sampleRequests) false "7f1f0d6e3c1b4f6c9d530f5d6d1a2b3c"
      (.append 2 "m1" ⟨-1, .cancelled, ""⟩)).capabilities = [] ∧
    ¬ ∀ op t' i, ¬ (t' = false ∧ i = "7f1f0d6e3c1b4f6c9d530f5d6d1a2b3c") →
      Untouched (reached sampleEngine sampleRequests)
        (operate sampleEngine (reached sampleEngine sampleRequests) false "7f1f0d6e3c1b4f6c9d530f5d6d1a2b3c" op) t' i := by
  have hbefore : (reached sampleEngine sampleRequests).capabilities =
      [⟨"t2", "7f1f0d6e3c1b4f6c9d530f5d6d1a2b3c", true, 900001⟩, ⟨"t1", "7f1f0d6e3c1b4f6c9d530f5d6d1a2b3c", false, 900000⟩] := by
    decide +kernel
  have hafter : (operate sampleEngine (reached sampleEngine sampleRequests) false "7f1f0d6e3c1b4f6c9d530f5d6d1a2b3c"
      (.append 2 "m1" ⟨-1, .cancelled, ""⟩)).capabilities = [] := by
    decide +kernel
  refine ⟨hbefore, hafter, fun h => ?_⟩
  have hu := (h (.append 2 "m1" ⟨-1, .cancelled, ""⟩) true "7f1f0d6e3c1b4f6c9d530f5d6d1a2b3c" (by simp)).capability
  rw [hbefore, hafter] at hu
  exact absurd hu (by decide)

end Isolation

end Galadril.Pengolo
