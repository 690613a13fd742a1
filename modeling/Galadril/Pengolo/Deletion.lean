import Galadril.Pengolo.Isolation

namespace Galadril.Pengolo

open Json Lib.Checked Lib.Transitions

variable (env : Engine)

/-- The checks of a deletion, made on the conversation as it is read. Its
removal is a later transaction without conditions. -/
def viewChat (s : Store) (now : Int) (actor id : String) (revision : Int) : Except String Chat := do
  let chat ← context (readChat s now false id) "Conversation unavailable"
  ensure (chat.ownerId == actor && chat.revision == revision) "Conversation deletion unavailable"
  ensure chat.activeGeneration.isNone "Stop the active generation before deleting this chat"
  return chat

def Request.conversational : Request → Bool
  | .reserve _ _ _ _ _ | .append _ _ _ _ _ => true
  | .saveChat _ _ _ expected => expected.isSome
  | _ => false

def ends (now : Int) (g : Generation) (event : OutputEvent) : Bool :=
  event.kind.outcome.isSome && !(event.sequence == -2 && now < g.leaseExpires) &&
    !(0 < event.sequence && event.sequence ≤ g.sequence)

def writesChat (s : Store) (id : String) : Request → Bool
  | .reserve now _ input _ _ => !input.temporary && input.chatId == some id &&
      (env.uuid input.idempotencyKey).any fun g => (readGeneration s now false g).isNone
  | .append now temporary g _ event => !temporary && (readChat s now false id).isSome &&
      (readGeneration s now false g).any fun g => g.chatId == id && ends now g event
  | .saveChat _ temporary chat _ => !temporary && chat.id == id
  | _ => false

section Writes

variable {env : Engine} {s s' : Store} {now : Int} {temporary : Bool}

def Advances (s s' : Store) (id : String) (written : Bool) : Prop :=
  ∀ c, s.chats false id = some c →
    if written = true then ∃ c', s'.chats false id = some c' ∧ c'.revision = c.revision + 1
    else s'.chats false id = some c

theorem Advances.same {id : String} (h : s'.chats = s.chats) : Advances s s' id false := by
  intro c hc
  simpa [h] using hc

theorem writeChat_advances {chat : Chat} {expected : Option Int} (h : writeChat env s now temporary chat expected = .ok s')
    (id : String) : Advances s s' id (!temporary && chat.id == id) := by
  simp only [writeChat, bind_eq_ok, pure_eq_ok] at h
  obtain ⟨revision, hrev, _, -, rfl⟩ := h
  have hchats := (retain_frame { s with chats := put s.chats temporary chat.id (some (chat.stamped revision now)) }
    (show RetentionKind.chat ≠ .lease by decide) chat.id temporary chat.expiresAt).2
  intro c hc
  rw [hchats]
  by_cases hid : false = temporary ∧ id = chat.id
  · obtain ⟨rfl, rfl⟩ := hid
    simp only [put_self, Bool.not_false, beq_self_eq_true, Bool.and_self, if_true]
    refine ⟨_, rfl, ?_⟩
    rw [hc] at hrev
    cases expected with
    | none => cases hrev
    | some r =>
        simp only [Option.map_some, nextRevision] at hrev
        split at hrev
        · next heq =>
            cases hrev
            simp [Chat.stamped, heq]
        · cases hrev
  · have hfalse : (!temporary && chat.id == id) = false := by
      cases temporary with
      | true => rfl
      | false =>
          refine Bool.eq_false_iff.mpr fun hsame => hid ⟨rfl, ?_⟩
          exact (beq_iff_eq.mp hsame).symm
    simp only [hfalse, Bool.false_eq_true, if_false]
    rw [put_of_ne _ _ hid]
    exact hc

theorem Advances.congr {id : String} {written : Bool} {m : Store} (h : Advances s m id written) (hm : s'.chats = m.chats) :
    Advances s s' id written := by
  intro c hc
  simpa only [hm] using h c hc

/-- An insert finds no row. -/
theorem writeChat_absent {chat : Chat} (h : writeChat env s now temporary chat none = .ok s') :
    s.chats temporary chat.id = none := by
  simp only [writeChat, bind_eq_ok] at h
  obtain ⟨revision, hrev, -⟩ := h
  cases hrow : s.chats temporary chat.id with
  | none => rfl
  | some row =>
      rw [hrow] at hrev
      cases hrev

theorem readChat_eq_some {id : String} {chat : Chat} (h : readChat s now temporary id = some chat) :
    s.chats temporary id = some chat := (Option.filter_eq_some_iff.mp h).1

theorem createReservation_advances {actor : String} {input : SendInput} {capability freshId id : String} (hk : Keyed s)
    (h : createReservation env s now actor input capability freshId id = .ok s') (chatId : String) :
    Advances s s' chatId (!input.temporary && input.chatId == some chatId) := by
  simp only [createReservation, bind_eq_ok, pure_eq_ok, ensure_eq_ok] at h
  obtain ⟨_, hexists, _, -, _, -, _, -, m, hm, n, hn, _, -, _, -, rfl⟩ := h
  refine Advances.congr (m := m) ?_ (writeGeneration_eq_ok hn).2.1
  have hadv := writeChat_advances hm chatId
  cases ht : input.temporary with
  | true =>
      rw [ht] at hadv
      exact hadv
  | false =>
      rw [ht] at hadv hexists hm
      cases he : input.chatId.bind (readChat s now false) with
      | some chat =>
          obtain ⟨x, hx, hread⟩ := Option.bind_eq_some_iff.mp he
          have hid : chat.id = x := hk.chat false x chat (readChat_eq_some hread)
          rw [he] at hadv
          rw [hx]
          simpa [withPrompt, hid] using hadv
      | none =>
          have hnone : input.chatId = none := by simpa [he] using hexists
          rw [he] at hm hadv
          have habsent := writeChat_absent hm
          have hfresh : (withPrompt (freshChat actor input now freshId) id input).id = freshId := by
            simp [withPrompt, freshChat, ht]
          intro c hc
          have hne : freshId ≠ chatId := by
            rintro rfl
            rw [Option.getD_none, hfresh, hc] at habsent
            cases habsent
          have hsame := hadv c hc
          simpa [hnone, withPrompt, freshChat, ht, hne] using hsame

theorem reserve_advances {actor : String} {input : SendInput} {capability freshId : String} (hk : Keyed s)
    (h : reserve env s now actor input capability freshId = .ok s') (id : String) :
    Advances s s' id (writesChat env s id (.reserve now actor input capability freshId)) := by
  simp only [reserve, bind_eq_ok, context_eq_ok] at h
  obtain ⟨key, hkey, h⟩ := h
  cases ht : input.temporary with
  | true =>
      have hfalse : writesChat env s id (.reserve now actor input capability freshId) = false := by simp [writesChat, ht]
      rw [hfalse]
      split at h
      · simp only [replayReservation, bind_eq_ok, pure_eq_ok] at h
        obtain ⟨_, -, _, -, rfl⟩ := h
        exact .same rfl
      · simpa [ht] using createReservation_advances hk h id
  | false =>
      rw [ht] at h
      cases hg : readGeneration s now false key with
      | some g =>
          rw [hg] at h
          simp only [replayReservation, bind_eq_ok, pure_eq_ok] at h
          obtain ⟨_, -, _, -, rfl⟩ := h
          have hfalse : writesChat env s id (.reserve now actor input capability freshId) = false := by
            simp [writesChat, hkey, hg]
          rw [hfalse]
          exact .same rfl
      | none =>
          rw [hg] at h
          have hadv := createReservation_advances hk h id
          simpa [writesChat, hkey, hg, ht] using hadv

theorem concludeChat_advances {messageId : String} {g : Generation} {outcome : Status} (hk : Keyed s)
    (h : concludeChat env s now temporary messageId g outcome = .ok s') (id : String) :
    Advances s s' id (!temporary && (readChat s now false id).isSome && g.chatId == id) := by
  rw [concludeChat] at h
  cases hread : readChat s now temporary g.chatId with
  | some chat =>
      rw [hread] at h
      have hadv := writeChat_advances h id
      have hid : chat.id = g.chatId := hk.chat temporary g.chatId chat (readChat_eq_some hread)
      cases temporary with
      | true => exact hadv
      | false =>
          by_cases hsame : g.chatId = id
          · subst hsame
            simpa [concluded, hid, hread] using hadv
          · have hother : (g.chatId == id) = false := by simpa using hsame
            simpa [concluded, hid, hother] using hadv
  | none =>
      rw [hread] at h
      cases h
      have hfalse : (!temporary && (readChat s now false id).isSome && g.chatId == id) = false := by
        cases temporary with
        | true => rfl
        | false =>
            by_cases hsame : g.chatId = id
            · simp [← hsame, hread]
            · simp [hsame]
      rw [hfalse]
      exact .same rfl

theorem Keyed.withLog (h : Keyed s) (t : Bool) (id : String) (log : List OutputEvent) : Keyed (s.withLog t id log) :=
  h.mono rfl rfl

theorem accept_advances {messageId : String} {g : Generation} {event : OutputEvent} (hk : Keyed s)
    (h : accept env s now temporary messageId g event = .ok s') (id : String) :
    Advances s s' id (!temporary && (readChat s now false id).isSome && g.chatId == id && event.kind.outcome.isSome) := by
  obtain ⟨-, m, g', n, hext, hset, hw⟩ := accept_eq_ok h
  obtain ⟨hrow, log, rfl⟩ := extend_frame hext
  refine Advances.congr (m := n) ?_ (writeGeneration_eq_ok hw).2.1
  cases ho : event.kind.outcome with
  | none =>
      rw [ho] at hset
      simp only [settle, Except.ok.injEq] at hset
      subst hset
      simp only [Option.isSome_none, Bool.and_false]
      exact .same rfl
  | some outcome =>
      rw [ho] at hset
      simp only [settle, conclude, bind_eq_ok, pure_eq_ok] at hset
      obtain ⟨c, hc, rfl⟩ := hset
      have hchat : (g'.withStatus ((some outcome).getD .running)).chatId = g.chatId := hrow.chatId
      have hadv := concludeChat_advances (hk.withLog temporary g.id log) hc id
      rw [hchat] at hadv
      simp only [Option.isSome_some, Bool.and_true]
      exact hadv

/-- Commands are numbered past the log, so they are never replays. -/
theorem allocate_eq_ok {sequence : Nat} {event e : OutputEvent} (h : allocate sequence event = .ok e) :
    e.kind = event.kind ∧ (0 < e.sequence ∧ e.sequence ≤ sequence ↔ 0 < event.sequence ∧ event.sequence ≤ sequence) := by
  rw [allocate] at h
  split at h
  · next hneg =>
      simp only [bind_eq_ok, pure_eq_ok] at h
      obtain ⟨_, -, _, -, rfl⟩ := h
      refine ⟨rfl, ?_⟩
      constructor <;> (rintro ⟨_, _⟩; simp only at *; omega)
  · cases h
    exact ⟨rfl, Iff.rfl⟩

theorem append_advances {gid messageId : String} {event : OutputEvent} (hk : Keyed s)
    (h : append env s now temporary gid messageId event = .ok s') (id : String) :
    Advances s s' id (writesChat env s id (.append now temporary gid messageId event)) := by
  simp only [append, bind_eq_ok, context_eq_ok] at h
  obtain ⟨g, hg, h⟩ := h
  have hquiet : s' = s → ends now g event = false →
      Advances s s' id (writesChat env s id (.append now temporary gid messageId event)) := by
    rintro rfl hends
    have hfalse : writesChat env s' id (.append now temporary gid messageId event) = false := by
      cases temporary with
      | true => rfl
      | false => simp [writesChat, hg, hends]
    rw [hfalse]
    exact .same rfl
  split at h
  · next hearly =>
      refine hquiet (pure_eq_ok.mp h).symm ?_
      simp [ends, hearly]
  · next hearly =>
      simp only [bind_eq_ok] at h
      obtain ⟨e, he, h⟩ := h
      obtain ⟨hkind, hreplay⟩ := allocate_eq_ok he
      split at h
      · next hold =>
          simp only [bind_eq_ok, pure_eq_ok] at h
          obtain ⟨_, -, rfl⟩ := h
          refine hquiet rfl ?_
          simp [ends, hreplay.mp hold]
      · next hnew =>
          have hends : ends now g event = event.kind.outcome.isSome := by
            have hnew : ¬ (0 < event.sequence ∧ event.sequence ≤ g.sequence) := fun ho => hnew (hreplay.mpr ho)
            have hnew' : (decide (0 < event.sequence) && decide (event.sequence ≤ (g.sequence : Int))) = false := by
              simpa using hnew
            have hearly' : (event.sequence == -2 && decide (now < g.leaseExpires)) = false := by
              simpa using hearly
            simp [ends, hnew', hearly']
          have hadv := accept_advances hk h id
          rw [hkind] at hadv
          cases temporary with
          | true => exact hadv
          | false => simpa [writesChat, hg, hends, Bool.and_assoc] using hadv

end Writes

section Runs

variable {env : Engine} {s s' : Store}

/-- A committed request writes the conversation exactly when it is addressed to
it. -/
theorem perform_advances (hk : Keyed s) {r : Request} (hr : r.conversational = true) (h : perform env s r = .ok s')
    (id : String) : Advances s s' id (writesChat env s id r) := by
  cases r with
  | reserve => exact reserve_advances hk h id
  | append => exact append_advances hk h id
  | saveChat now t chat expected =>
      simp only [perform, saveChat, bind_eq_ok, pure_eq_ok] at h
      obtain ⟨m, hw, rfl⟩ := h
      exact (writeChat_advances hw id).congr rfl
  | recordEvidence | saveGeneration | expireTemporary | removeChat | removeGeneration => cases hr

def Quiet (env : Engine) (id : String) (s : Store) (r : Request) : Prop :=
  Accepts (perform env s r) → writesChat env s id r = false

theorem step_advances (hk : Keyed s) {r : Request} (hr : r.conversational = true) {id : String} {c : Chat}
    (hc : s.chats false id = some c) :
    ∃ c', (s.step env r).chats false id = some c' ∧ c.revision ≤ c'.revision ∧
      (Quiet env id s r → c' = c) ∧ (¬ Quiet env id s r → c.revision < c'.revision) := by
  rw [Store.step]
  cases hp : perform env s r with
  | error e =>
      refine ⟨c, hc, le_refl _, fun _ => rfl, fun hq => absurd ?_ hq⟩
      intro hok
      rw [hp] at hok
      exact absurd hok (not_accepts_error e)
  | ok s' =>
      have hadv := perform_advances hk hr hp id c hc
      have hok : Accepts (perform env s r) := ⟨s', hp⟩
      by_cases hw : writesChat env s id r = true
      · simp only [hw, if_true] at hadv
        obtain ⟨c', hc', hrev⟩ := hadv
        refine ⟨c', hc', by omega, fun hq => absurd (hq hok) (by simp [hw]), fun _ => by omega⟩
      · have hw : writesChat env s id r = false := by simpa using hw
        simp only [hw, Bool.false_eq_true, if_false] at hadv
        exact ⟨c, hadv, le_refl _, fun _ => rfl, fun hq => absurd (fun _ => hw) hq⟩

theorem run_revision (hk : Keyed s) {requests : List Request} (hr : ∀ r ∈ requests, r.conversational = true) {id : String}
    {c : Chat} (hc : s.chats false id = some c) :
    ∃ c', (run (Store.step env) s requests).chats false id = some c' ∧ c.revision ≤ c'.revision ∧
      (Along (Store.step env) (Quiet env id) s requests → c' = c) ∧
      (¬ Along (Store.step env) (Quiet env id) s requests → c.revision < c'.revision) := by
  induction requests generalizing s c with
  | nil => exact ⟨c, hc, le_refl _, fun _ => rfl, fun h => absurd trivial h⟩
  | cons r rest ih =>
      obtain ⟨d, hd, hle, hquiet, hloud⟩ := step_advances hk (hr r List.mem_cons_self) hc
      obtain ⟨c', hc', hle', hquiet', hloud'⟩ := ih (hk.step r) (fun q hq => hr q (List.mem_cons_of_mem _ hq)) hd
      refine ⟨c', hc', hle.trans hle', fun hall => ?_, fun hnot => ?_⟩
      · rw [hquiet' hall.2, hquiet hall.1]
      · by_cases hq : Quiet env id s r
        · have hrest : ¬ Along (Store.step env) (Quiet env id) (s.step env r) rest := fun h => hnot ⟨hq, h⟩
          exact lt_of_le_of_lt hle (hloud' hrest)
        · exact lt_of_lt_of_le (hloud hq) hle'

/-- At its removal a conversation is the one that was seen exactly when nothing
was written to it in between. -/
theorem deletion_current (env : Engine) (earlier between : List Request) (now : Int) (actor id : String) (revision : Int)
    (hview : Accepts (viewChat (reached env earlier) now actor id revision))
    (hbetween : ∀ r ∈ between, r.conversational = true) :
    (∃ chat, (run (Store.step env) (reached env earlier) between).chats false id = some chat ∧ chat.revision = revision ∧
      chat.activeGeneration = none) ↔
    Along (Store.step env) (Quiet env id) (reached env earlier) between := by
  obtain ⟨chat, hview⟩ := hview
  simp only [viewChat, bind_eq_ok, context_eq_ok, ensure_eq_ok, pure_eq_ok, Bool.and_eq_true, beq_iff_eq,
    Option.isNone_iff_eq_none] at hview
  obtain ⟨_, hread, _, ⟨-, hrev⟩, _, hidle, rfl⟩ := hview
  obtain ⟨c', hc', -, hquiet, hloud⟩ := run_revision (reached_keyed env earlier) hbetween (readChat_eq_some hread)
  constructor
  · rintro ⟨row, hrow, hsame, -⟩
    by_contra hnot
    obtain rfl := Option.some.inj (hrow.symm.trans hc')
    have hlt := hloud hnot
    omega
  · intro hall
    obtain rfl := hquiet hall
    exact ⟨c', hc', hrev, hidle⟩

def answered : List Request :=
  [.reserve 0 "ada" (sampleInput false) "t1" "c1",
    .append 1 false "7f1f0d6e3c1b4f6c9d530f5d6d1a2b3c" "m1" ⟨1, .completed, ""⟩]

def followUp : SendInput :=
  { sampleInput false with
    idempotencyKey := "0a6b6d0e8f5b4d0c9f7e2b1a3c4d5e6f"
    chatId := some "c1" }

theorem answered_viewed : Accepts (viewChat (reached sampleEngine answered) 2 "ada" "c1" 2) := by
  decide +kernel

/-- The prompt is sent once more, its output is delivered again, and another
conversation starts and is answered. -/
def aside : List Request :=
  [.reserve 2 "ada" (sampleInput false) "t3" "c3",
    .reserve 2 "ada" { followUp with chatId := none } "t4" "c4",
    .append 2 false "7f1f0d6e3c1b4f6c9d530f5d6d1a2b3c" "m1" ⟨1, .completed, ""⟩,
    .append 3 false "0a6b6d0e8f5b4d0c9f7e2b1a3c4d5e6f" "m2" ⟨1, .completed, ""⟩]

theorem aside_quiet : Along (Store.step sampleEngine) (Quiet sampleEngine "c1") (reached sampleEngine answered) aside := by
  refine ⟨fun _ => ?_, fun _ => ?_, fun _ => ?_, fun _ => ?_, trivial⟩ <;> decide +kernel

theorem deletion_current_undisturbed :
    ∃ chat, (run (Store.step sampleEngine) (reached sampleEngine answered) aside).chats false "c1" = some chat ∧
      chat.revision = 2 ∧ chat.activeGeneration = none :=
  (deletion_current sampleEngine answered aside 2 "ada" "c1" 2 answered_viewed (by decide)).mpr aside_quiet

/-- A prompt comes in between the checks and the removal, which takes it
along. -/
theorem prompt_deleted :
    let s := run (Store.step sampleEngine) (reached sampleEngine answered) [.reserve 3 "ada" followUp "t2" "c2"]
    Accepts (viewChat (reached sampleEngine answered) 2 "ada" "c1" 2) ∧
    (¬ ∃ chat, s.chats false "c1" = some chat ∧ chat.revision = 2 ∧ chat.activeGeneration = none) ∧
    (s.generations false "0a6b6d0e8f5b4d0c9f7e2b1a3c4d5e6f").map Generation.status = some .pending ∧
    ((s.step sampleEngine (.removeChat false "c1")).generations false "0a6b6d0e8f5b4d0c9f7e2b1a3c4d5e6f").isNone := by
  intro s
  refine ⟨answered_viewed, ?_, by decide +kernel, by decide +kernel⟩
  rintro ⟨chat, hchat, hrev, -⟩
  have hstored : (s.chats false "c1").map Chat.revision = some 3 := by
    decide +kernel
  rw [hchat, Option.map_some, hrev] at hstored
  cases hstored

end Runs

end Galadril.Pengolo
