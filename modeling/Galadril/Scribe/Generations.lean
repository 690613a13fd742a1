import Galadril.Pengolo.Logs
import Galadril.Scribe.EventLog

namespace Galadril.Scribe

open Lib.Checked Lib.Transitions Lib.Numbering Pengolo

variable {env : Engine} {temporary : Bool} {id : String} {w : Background}

/-- The log of a running generation consists of events of the worker. -/
structure Recorded (temporary : Bool) (id : String) (w : Background) (g : Generation) : Prop where
  behind : w.sequence ≤ g.sequence
  acknowledged : ∀ e ∈ w.acknowledged, e.sequence ≤ g.sequence
  bounded : ∀ e ∈ w.store.outputs temporary id, e.sequence ≤ g.sequence
  stored : ∀ k : Int, 1 ≤ k → k ≤ g.sequence →
    ∃ e ∈ w.submitted, e.sequence = k ∧ (w.store.outputs temporary id).find? (·.sequence = k) = some e

structure Logged (temporary : Bool) (id : String) (w : Background) : Prop where
  keyed : Keyed w.store
  kinds : ∀ e ∈ w.submitted, e.kind ≠ .heartbeat
  row : w.gone = false →
    ∃ g, w.store.generations temporary id = some g ∧ (g.status.terminal = false → Recorded temporary id w g)

theorem ChunkKind.event_ne_heartbeat (kind : ChunkKind) : kind.event ≠ .heartbeat := by cases kind <;> simp [event]

theorem Sends.kind {e : OutputEvent} (h : Sends w e) : e.kind ≠ .heartbeat := by
  rcases h with ⟨d, rest, -, rfl⟩ | ⟨d, -, rfl⟩ | ⟨a, p, -, rfl⟩
  · exact d.kind.event_ne_heartbeat
  · exact d.kind.event_ne_heartbeat
  · simp [failedEvent]

theorem Logged.progress {w' : Background} (h : Logged temporary id w) (hw : Progress w w') : Logged temporary id w' := by
  have hmem : ∀ e ∈ w.submitted, e ∈ w'.submitted := by
    intro e he
    rcases hw.submitted with hs | ⟨e', hs, -⟩
    · exact hs ▸ he
    · exact hs ▸ List.mem_append_left _ he
  refine ⟨hw.store ▸ h.keyed, fun e he => ?_, fun hgone => ?_⟩
  · rcases hw.submitted with hs | ⟨e', hs, hsends⟩
    · exact h.kinds e (hs ▸ he)
    · rw [hs] at he
      rcases List.mem_append.mp he with he | he
      · exact h.kinds e he
      · rw [List.mem_singleton.mp he]
        exact hsends.kind
  · obtain ⟨g, hg, hlive⟩ := h.row (hw.gone ▸ hgone)
    refine ⟨g, hw.store ▸ hg, fun hl => ?_⟩
    have hrecorded := hlive hl
    refine ⟨?_, hw.acknowledged ▸ hrecorded.acknowledged, hw.store ▸ hrecorded.bounded, fun k h₁ h₂ => ?_⟩
    · rcases hw.sequence with hs | ⟨hs, e, he, hk⟩
      · exact hs ▸ hrecorded.behind
      · have := hrecorded.acknowledged e he
        omega
    · obtain ⟨e, he, hk, hfind⟩ := hrecorded.stored k h₁ h₂
      exact ⟨e, hmem e he, hk, hw.store ▸ hfind⟩

theorem find_append_of_some {p : OutputEvent → Bool} {log : List OutputEvent} {x e : OutputEvent} (h : log.find? p = some e) :
    (log ++ [x]).find? p = some e := by rw [List.find?_append, h, Option.some_or]

theorem Logged.received (h : Logged temporary id w) (hw : Coherent w) (now : Int) (messageId : String) (event : OutputEvent) :
    Logged temporary id (received env temporary id w now messageId event) := by
  rw [Scribe.received]
  split
  · next hmem =>
      split
      · next store happend =>
          refine ⟨h.keyed.append happend, h.kinds, fun hgone => ?_⟩
          obtain ⟨g, hg, hlive⟩ := h.row hgone
          obtain ⟨hlow, -⟩ := hw.numbered.range event hmem
          rcases append_output h.keyed hg (by omega) (h.kinds event hmem) happend with
            ⟨rfl, hreplay⟩ | ⟨hl, g', hg', hgap, hsequence, hlog⟩
          · refine ⟨g, hg, fun hl => ?_⟩
            have hrecorded := hlive hl
            refine ⟨hrecorded.behind, fun e he => ?_, hrecorded.bounded, hrecorded.stored⟩
            rcases List.mem_cons.mp he with rfl | he
            · exact hreplay
            · exact hrecorded.acknowledged e he
          · refine ⟨g', hg', fun _ => ?_⟩
            have hrecorded := hlive hl
            have hbehind := hrecorded.behind
            refine ⟨?_, fun e he => ?_, fun e he => ?_, fun k h₁ h₂ => ?_⟩
            · show w.sequence ≤ g'.sequence
              omega
            · rcases List.mem_cons.mp he with rfl | he
              · omega
              · have := hrecorded.acknowledged e he
                omega
            · rw [hlog] at he
              rcases List.mem_append.mp he with he | he
              · have := hrecorded.bounded e he
                omega
              · rw [List.mem_singleton.mp he]
                omega
            · show ∃ e ∈ w.submitted, e.sequence = k ∧ (store.outputs temporary id).find? (·.sequence = k) = some e
              rw [hlog]
              by_cases hk : k = event.sequence
              · refine ⟨event, hmem, hk.symm, ?_⟩
                have hnone : (w.store.outputs temporary id).find? (·.sequence = k) = none := by
                  refine List.find?_eq_none.mpr fun e he => ?_
                  have := hrecorded.bounded e he
                  simp only [decide_eq_true_eq]
                  omega
                rw [List.find?_append, hnone]
                simp [hk]
              · obtain ⟨e, he, hke, hfind⟩ := hrecorded.stored k h₁ (by omega)
                exact ⟨e, he, hke, find_append_of_some hfind⟩
      · exact h
  · exact h

/-- Requests of others leave the log of a running generation. -/
theorem step_continued {s : Store} {g : Generation} (hk : Keyed s) (hg : s.generations temporary id = some g)
    {request : Request} (hforeign : foreign temporary id request = true) :
    Continued s (s.step env request) temporary id g := by
  rw [Store.step]
  split
  · next s' hr =>
      cases request with
      | reserve => exact reserve_continued hg hr
      | append now t i messageId event =>
          refine append_continued hk hg ?_ hr
          simp only [foreign, Bool.or_eq_true, Bool.not_eq_true', Bool.and_eq_false_iff, beq_eq_false_iff_ne,
            decide_eq_true_eq] at hforeign
          rcases hforeign with (ht | hi) | hnonpos
          · exact .inl fun heq => ht heq.1
          · exact .inl fun heq => hi heq.2
          · exact .inr hnonpos
      | recordEvidence => exact recordEvidence_continued hk hg hr
      | saveChat => exact saveChat_continued hg hr
      | saveGeneration now t generation expected =>
          obtain ⟨⟨revision, hrows⟩, -, hlogs, -, -⟩ := writeGeneration_eq_ok hr
          refine .put hg hrows hlogs ?_
          rintro ⟨ht, hi⟩
          simp [foreign, ht, hi] at hforeign
      | expireTemporary now owner session =>
          cases hr
          exact expireTemporary_continued hg now owner session
      | removeChat t i =>
          cases hr
          exact removeChat_continued hg t i
      | removeGeneration t i =>
          cases hr
          exact removeGeneration_continued hg t i
  · exact .same hg rfl

theorem Logged.served (h : Logged temporary id w) (request : Request) :
    Logged temporary id (served env temporary id w request) := by
  rw [Scribe.served]
  split
  · next hforeign =>
      refine ⟨h.keyed.step request, h.kinds, fun hgone => ?_⟩
      have hgone : (w.gone || ((w.store.step env request).generations temporary id).isNone) = false := hgone
      obtain ⟨hgone, hsome⟩ := Bool.or_eq_false_iff.mp hgone
      obtain ⟨g, hg, hlive⟩ := h.row hgone
      obtain ⟨g', hg'⟩ := Option.isSome_iff_exists.mp (by simpa using hsome)
      refine ⟨g', hg', fun hl' => ?_⟩
      obtain ⟨hl, hsequence, hlog⟩ := (step_continued h.keyed hg hforeign).kept g' hg' hl'
      have hrecorded := hlive hl
      refine ⟨?_, ?_, ?_, ?_⟩
      · exact hsequence ▸ hrecorded.behind
      · exact hsequence ▸ hrecorded.acknowledged
      · show ∀ e ∈ (w.store.step env request).outputs temporary id, e.sequence ≤ g'.sequence
        rw [hlog, hsequence]
        exact hrecorded.bounded
      · show ∀ k : Int, 1 ≤ k → k ≤ g'.sequence → ∃ e ∈ w.submitted, e.sequence = k ∧
          ((w.store.step env request).outputs temporary id).find? (·.sequence = k) = some e
        rw [hlog, hsequence]
        exact hrecorded.stored
  · exact h

theorem Logged.step (h : Logged temporary id w) (hw : Coherent w) (s : BackgroundStep) :
    Logged temporary id (w.step env temporary id s) := by
  cases hs : s.ofWorker with
  | true => exact h.progress (step_progress hs)
  | false =>
      cases s with
      | receives now messageId event => exact h.received hw now messageId event
      | others request => exact h.served request
      | yields | raises | ends | locks | answers | resumes | wakes | cancels | stops => cases hs

section Consistency

variable (env : Engine) (temporary : Bool) (id : String)

structure SoundStep (w w' : Background) : Prop where
  consistent : ∀ a ∈ w'.submitted, ∀ b ∈ w'.submitted, a.sequence = b.sequence → a.kind = b.kind ∧ a.content = b.content
  consecutive : ∃ last : Nat, ∀ k : Int, (∃ e ∈ w'.submitted, e.sequence = k) ↔ 1 ≤ k ∧ k ≤ last
  spelled : text w'.submitted <+: w'.yielded
  complete : ∀ e, w'.submitted = w.submitted ++ [e] → e.kind.outcome.isSome = true → w'.failed = false →
    text w'.submitted = w'.yielded
  /-- Neither a conflicting replay nor a gap. -/
  accepted : w'.gone = false → ∀ e ∈ w'.submitted, ∀ now messageId g, readGeneration w'.store now temporary id = some g →
    g.status.terminal = false → append env w'.store now temporary id messageId e = .ok w'.store ∨ e.sequence = g.sequence + 1

variable {env temporary id} {w : Background}

theorem Recorded.replay {g : Generation} (h : Recorded temporary id w g) (hw : Coherent w) {e : OutputEvent}
    (he : e ∈ w.submitted) {now : Int} (messageId : String) (hg : readGeneration w.store now temporary id = some g) :
    append env w.store now temporary id messageId e = .ok w.store ∨ e.sequence = g.sequence + 1 := by
  obtain ⟨hlow, hhigh⟩ := hw.numbered.range e he
  have hbehind := h.behind
  by_cases hk : e.sequence ≤ g.sequence
  · refine .inl ?_
    obtain ⟨e', he', hsame, hfind⟩ := h.stored e.sequence hlow hk
    obtain rfl : e' = e := hw.numbered.agree e' he' e he hsame
    simp only [append, hg, context_some, ok_bind, if_neg (by omega : ¬ (e'.sequence = -2 ∧ now < g.leaseExpires)), allocate,
      if_neg (by omega : ¬ e'.sequence < 0), pure_bind, if_pos (⟨by omega, hk⟩ : 0 < e'.sequence ∧ e'.sequence ≤ g.sequence)]
    rw [hfind]
    simp
  · exact .inr (by omega)

theorem Coherent.sound {w' : Background} (hw : Coherent w') (hl : Logged temporary id w')
    (hcomplete : ∀ e, w'.submitted = w.submitted ++ [e] → Sends w' e) : SoundStep env temporary id w w' := by
  refine ⟨fun a ha b hb hk => ?_, hw.numbered.consecutive, hw.spelled, fun e he hterminal _ => ?_,
    fun hgone e he now messageId g hg hlive => ?_⟩
  · rw [hw.numbered.agree a ha b hb hk]
    exact ⟨rfl, rfl⟩
  · exact hw.complete (hcomplete e he) hterminal
  · obtain ⟨g₀, hg₀, hrecorded⟩ := hl.row hgone
    obtain rfl : g₀ = g := by simpa [hg₀] using (Option.filter_eq_some_iff.mp hg).1
    exact (hrecorded hlive).replay hw he messageId hg

theorem step_sends {s : BackgroundStep} {e : OutputEvent}
    (h : (w.step env temporary id s).submitted = w.submitted ++ [e]) : Sends (w.step env temporary id s) e := by
  have hne : w.submitted ++ [e] ≠ w.submitted := by simp
  cases hs : s.ofWorker with
  | true =>
      have hprogress : Progress w (w.step env temporary id s) := step_progress hs
      rcases hprogress.submitted with hsame | ⟨e', hsent, hsends⟩
      · exact absurd (h.symm.trans hsame) hne
      · obtain rfl : e = e' := by simpa using h.symm.trans hsent
        exact hsends
  | false =>
      refine absurd (h.symm.trans ?_) hne
      cases s with
      | receives now messageId event =>
          rw [Background.step, received]
          split
          · split <;> rfl
          · rfl
      | others request =>
          rw [Background.step, served]
          split <;> rfl
      | yields | raises | ends | locks | answers | resumes | wakes | cancels | stops => cases hs

variable (env temporary id) in
theorem fails_step {s : BackgroundStep} (h : w.fails s = true) :
    w.cancelled = false ∧
      ((w.main = .reading ∧ w.step env temporary id s = fail { w with failed := w.failed }) ∨
        (((∃ a p, w.main = .starting a p) ∨ ∃ d rest, w.main = .sending d rest) ∧
          w.step env temporary id s = fail { w with failed := true })) := by
  cases s with
  | raises =>
      cases hm : w.main <;> simp [Background.fails, hm] at h
      refine ⟨h, .inl ⟨rfl, ?_⟩⟩
      simp [Background.step, hm, h]
  | answers party outcome =>
      cases party with
      | flusher => cases h
      | main =>
          simp only [Background.fails, Bool.and_eq_true, Bool.not_eq_true'] at h
          obtain ⟨hc, hx⟩ := h
          refine ⟨hc, .inr ?_⟩
          cases hm : w.main with
          | starting a p =>
              refine ⟨.inl ⟨a, p, rfl⟩, ?_⟩
              cases p with
              | true => simp [hm, Main.exhausts] at hx
              | false => cases outcome <;> simp_all [Main.exhausts, exhausted, Background.step, answerMain]
          | sending d rest =>
              refine ⟨.inr ⟨d, rest, rfl⟩, ?_⟩
              cases outcome <;> simp_all [Main.exhausts, exhausted, Background.step, answerMain]
          | reading | waiting | failing | done => simp [hm, Main.exhausts] at hx
  | yields | ends | locks | resumes | wakes | cancels | stops | receives | others => cases h

/-- A failure that is reported while output is under way takes the sequence of
that output, or leaves it out. -/
theorem Coherent.disturbed (hw : Coherent w) {s : BackgroundStep} (hfails : w.fails s = true)
    (hsound : SoundStep env temporary id w (w.step env temporary id s)) : w.Undisturbed := by
  have hmain := hw.main
  have hnew : failedEvent w ∈ w.submitted ++ [failedEvent w] := List.mem_append_right _ (List.mem_singleton.mpr rfl)
  obtain ⟨hcancelled, ⟨hm, hstep⟩ | ⟨⟨a, p, hm⟩ | ⟨d, rest, hm⟩, hstep⟩⟩ := fails_step env temporary id hfails
  · rw [hstep] at hsound
    refine ⟨?_, by simp [hm]⟩
    have hnot : w.failed = false := hw.not_failed hcancelled (by simp [hm]) (by simp [hm])
    have hall : text (w.submitted ++ [failedEvent w]) = w.yielded := hsound.complete (failedEvent w) rfl rfl hnot
    rw [text_silent (by simp [failedEvent])] at hall
    have hfree : ¬ Counted w := by
      rintro ⟨e, he, hs, hkind⟩
      obtain ⟨hk, -⟩ := hsound.consistent e (List.mem_append_left _ he) (failedEvent w) hnew hs
      simp [hkind, failedEvent] at hk
    have hcontent := hw.uncounted (by simp [hm]) hfree
    by_contra hpending
    refine joined_ne_nil hpending hw.solid ?_
    have hrest : w.main.rest = [] := by simp [hm, Main.rest]
    rw [hrest, List.append_nil, hall] at hcontent
    exact List.append_right_eq_self.mp hcontent
  · rw [hm] at hmain
    exact ⟨hmain, by simp [hm]⟩
  · rw [hstep] at hsound
    rw [hm] at hmain
    obtain ⟨-, hfits, -⟩ := hmain
    obtain ⟨hk, hc⟩ := hsound.consistent (w.event d) (List.mem_append_left _ hfits.sent) (failedEvent w) hnew rfl
    have hkind : d.kind = .failed := by
      have hk : d.kind.event = .failed := hk
      cases hd : d.kind <;> simp [hd, ChunkKind.event] at hk ⊢
    have hsingle : d.batch = false := by
      by_contra hb
      have hcontent := (hfits.batch (by simpa using hb)).1
      simp [hkind] at hcontent
    refine ⟨(hfits.single hsingle).2, fun d' rest' hm' => ?_⟩
    rw [hm] at hm'
    cases hm'
    exact ⟨hkind, hc⟩

/-- In every run of a worker and its gateway, the log is consistent in every
state that is reached exactly when no failure is reported while output of the
worker is pending or under way. -/
theorem log_consistent (env : Engine) (temporary : Bool) (id : String) {store : Store} (hkeyed : Keyed store) {g : Generation}
    (hg : store.generations temporary id = some g) (hsequence : g.sequence = 0) (hlog : store.outputs temporary id = [])
    (steps : List BackgroundStep) :
    Along (Background.step env temporary id) (fun w s => SoundStep env temporary id w (w.step env temporary id s)) (.start store)
        steps ↔
      Along (Background.step env temporary id) (fun w s => w.fails s = true → w.Undisturbed) (.start store) steps := by
  have hall : ∀ steps w, Coherent w → Logged temporary id w →
      (Along (Background.step env temporary id) (fun w s => SoundStep env temporary id w (w.step env temporary id s)) w steps ↔
        Along (Background.step env temporary id) (fun w s => w.fails s = true → w.Undisturbed) w steps) := by
    intro steps
    induction steps with
    | nil => exact fun _ _ _ => Iff.rfl
    | cons s steps ih =>
        intro w hw hl
        have hiff : SoundStep env temporary id w (w.step env temporary id s) ↔ (w.fails s = true → w.Undisturbed) :=
          ⟨fun hsound hfails => hw.disturbed hfails hsound, fun hcondition =>
            (hw.step s hcondition).sound (hl.step hw s) fun _ he => step_sends he⟩
        constructor
        · rintro ⟨hsound, hrest⟩
          exact ⟨hiff.mp hsound, (ih _ (hw.step s (hiff.mp hsound)) (hl.step hw s)).mp hrest⟩
        · rintro ⟨hcondition, hrest⟩
          exact ⟨hiff.mpr hcondition, (ih _ (hw.step s hcondition) (hl.step hw s)).mpr hrest⟩
  refine hall steps _ (coherent_start store) ⟨hkeyed, fun e he => ?_, fun _ => ⟨g, hg, fun _ => ⟨?_, fun e he => ?_, fun e he => ?_,
    fun k h₁ h₂ => ?_⟩⟩⟩
  · cases he
  · exact Nat.zero_le _
  · cases he
  · have he : e ∈ store.outputs temporary id := he
    rw [hlog] at he
    cases he
  · omega

def sampleId : String := "7f1f0d6e3c1b4f6c9d530f5d6d1a2b3c"

def sampleStore : Store := reached sampleEngine [.reserve 0 "ada" (sampleInput false) "t1" "c1"]

/-- An acknowledgement gets lost, and the same batch is sent again. -/
def retriedRun : List BackgroundStep :=
  [.answers .main .accepted, .yields ⟨.content, "Hello"⟩, .locks .main, .wakes, .locks .flusher,
    .receives 1 "m1" ⟨1, .content, "Hello"⟩, .answers .flusher .unavailable, .resumes .flusher,
    .receives 2 "m1" ⟨1, .content, "Hello"⟩, .answers .flusher .accepted, .yields ⟨.completed, ""⟩, .locks .main,
    .receives 3 "m1" ⟨2, .completed, ""⟩, .answers .main .accepted, .ends]

theorem log_consistent_retried :
    (run (Background.step sampleEngine false sampleId) (.start sampleStore) retriedRun).store.outputs false sampleId =
      [⟨1, .content, "Hello"⟩, ⟨2, .completed, ""⟩] ∧
    Along (Background.step sampleEngine false sampleId)
      (fun w s => SoundStep sampleEngine false sampleId w (w.step sampleEngine false sampleId s))
      (.start sampleStore) retriedRun := by
  refine ⟨by decide +kernel, ?_⟩
  obtain ⟨g, hg⟩ : ∃ g, sampleStore.generations false sampleId = some g := Option.isSome_iff_exists.mp (by decide +kernel)
  have hsequence : (sampleStore.generations false sampleId).map Generation.sequence = some 0 := by decide +kernel
  have hquiet : Along (Background.step sampleEngine false sampleId) (fun w s => w.fails s = false) (.start sampleStore)
      retriedRun := by decide +kernel
  have hcondition : ∀ steps w, Along (Background.step sampleEngine false sampleId) (fun w s => w.fails s = false) w steps →
      Along (Background.step sampleEngine false sampleId) (fun w s => w.fails s = true → w.Undisturbed) w steps := by
    intro steps
    induction steps with
    | nil => exact fun _ _ => trivial
    | cons s steps ih => exact fun w h => ⟨fun hf => by simp [h.1] at hf, ih _ h.2⟩
  refine (log_consistent sampleEngine false sampleId (reached_keyed _ _) hg ?_ (by decide +kernel) retriedRun).mpr
    (hcondition _ _ hquiet)
  simpa [hg] using hsequence

def conflictRun : List BackgroundStep :=
  [.answers .main .accepted, .yields ⟨.content, "Hello"⟩, .locks .main, .yields ⟨.tool, "web"⟩, .locks .main,
    .receives 1 "m1" ⟨1, .content, "Hello"⟩, .answers .main .unavailable, .resumes .main, .answers .main .unavailable,
    .resumes .main]

/-- The report of failure takes the sequence of the stored content. -/
theorem failure_conflicts :
    ((run (Background.step sampleEngine false sampleId) (.start sampleStore) conflictRun).step sampleEngine false sampleId
        (.answers .main .unavailable)).submitted =
      [⟨1, .content, "Hello"⟩, ⟨1, .content, "Hello"⟩, ⟨1, .content, "Hello"⟩, ⟨1, .failed, ""⟩] ∧
    (append sampleEngine (run (Background.step sampleEngine false sampleId) (.start sampleStore) conflictRun).store 2 false
        sampleId "m1" ⟨1, .failed, ""⟩).toOption.isNone ∧
    ¬ Along (Background.step sampleEngine false sampleId)
      (fun w s => SoundStep sampleEngine false sampleId w (w.step sampleEngine false sampleId s)) (.start sampleStore)
      (conflictRun ++ [.answers .main .unavailable]) := by
  have hsubmitted : ((run (Background.step sampleEngine false sampleId) (.start sampleStore) conflictRun).step sampleEngine false
      sampleId (.answers .main .unavailable)).submitted =
      [⟨1, .content, "Hello"⟩, ⟨1, .content, "Hello"⟩, ⟨1, .content, "Hello"⟩, ⟨1, .failed, ""⟩] := by
    decide +kernel
  refine ⟨hsubmitted, by decide +kernel, fun h => ?_⟩
  have hconsistent := h.right.1.consistent
  rw [hsubmitted] at hconsistent
  obtain ⟨hkind, -⟩ := hconsistent ⟨1, .content, "Hello"⟩ (by simp) ⟨1, .failed, ""⟩ (by simp) rfl
  cases hkind

end Consistency

end Galadril.Scribe
