import Galadril.Pengolo.Isolation

namespace Galadril.Pengolo

open Json Lib.Checked

variable {env : Engine} {s s' : Store} {t : Bool} {id : String} {g : Generation}

/-- What may become of a running generation while nobody adds output to it: it
is deleted, it ends, or its log stays. -/
structure Continued (s s' : Store) (t : Bool) (id : String) (g : Generation) : Prop where
  kept : ∀ g', s'.generations t id = some g' → g'.status.terminal = false →
    g.status.terminal = false ∧ g'.sequence = g.sequence ∧ s'.outputs t id = s.outputs t id

theorem Continued.same (hrow : s'.generations t id = some g) (hlog : s'.outputs t id = s.outputs t id) :
    Continued s s' t id g := by
  refine ⟨fun g' hg' hlive => ?_⟩
  obtain rfl : g = g' := by simpa [hrow] using hg'
  exact ⟨hlive, rfl, hlog⟩

theorem Continued.put {t' : Bool} {i : String} {row : Generation} (hg : s.generations t id = some g)
    (hrows : s'.generations = put s.generations t' i (some row)) (hlogs : s'.outputs = s.outputs)
    (hrow : t = t' ∧ id = i → row.status = g.status ∧ row.sequence = g.sequence) : Continued s s' t id g := by
  refine ⟨fun g' hg' hlive => ?_⟩
  rw [hrows] at hg'
  by_cases hi : t = t' ∧ id = i
  · obtain ⟨hstatus, hsequence⟩ := hrow hi
    rw [hi.1, hi.2, put_self] at hg'
    cases hg'
    exact ⟨hstatus ▸ hlive, hsequence, by rw [hlogs]⟩
  · rw [put_of_ne _ _ hi, hg] at hg'
    cases hg'
    exact ⟨hlive, rfl, by rw [hlogs]⟩

theorem insert_absent {now : Int} {row : Generation} (hw : writeGeneration env s now t row none = .ok s') :
    s.generations t row.id = none := by
  simp only [writeGeneration, bind_eq_ok] at hw
  obtain ⟨revision, hrevision, -⟩ := hw
  cases hr : s.generations t row.id with
  | none => rfl
  | some old => simp [nextRevision, hr] at hrevision

theorem reserve_continued (hg : s.generations t id = some g) {now : Int} {actor : String} {input : SendInput}
    {capability freshId : String} (hr : reserve env s now actor input capability freshId = .ok s') :
    Continued s s' t id g := by
  simp only [reserve, bind_eq_ok, context_eq_ok] at hr
  obtain ⟨i, -, hr⟩ := hr
  split at hr
  · simp only [replayReservation, bind_eq_ok, pure_eq_ok] at hr
    obtain ⟨_, -, _, -, rfl⟩ := hr
    exact .same hg rfl
  · simp only [createReservation, bind_eq_ok, pure_eq_ok] at hr
    obtain ⟨_, -, _, -, _, -, _, -, a, ha, b, hb, _, -, _, -, rfl⟩ := hr
    have hchats := (writeChat_eq_ok ha).1
    have habsent := insert_absent hb
    obtain ⟨⟨revision, hrows⟩, -, hlogs, -, -⟩ := writeGeneration_eq_ok hb
    have ha' : a.generations t id = some g := by rw [hchats.generations, hg]
    have hcontinued : Continued a b t id g := by
      refine .put ha' hrows hlogs fun ⟨ht, hi⟩ => ?_
      have hnone : a.generations t id = none := by
        rw [ht, hi]
        exact habsent
      rw [ha'] at hnone
      cases hnone
    exact ⟨fun g' hg' hlive => hchats.outputs ▸ hcontinued.kept g' hg' hlive⟩

theorem recordEvidence_continued (hk : Keyed s) (hg : s.generations t id = some g) {now : Int} {t' : Bool} {i : String}
    {sources : List Value} (hr : recordEvidence env s now t' i sources = .ok s') : Continued s s' t id g := by
  simp only [recordEvidence, bind_eq_ok, context_eq_ok] at hr
  obtain ⟨g₀, hg₀, evidence, -, hw⟩ := hr
  have hg₀ : s.generations t' i = some g₀ := (Option.filter_eq_some_iff.mp hg₀).1
  obtain ⟨⟨revision, hrows⟩, -, hlogs, -, -⟩ := writeGeneration_eq_ok hw
  refine .put hg hrows hlogs ?_
  rintro ⟨ht, hi⟩
  have hid : g₀.id = i := hk.generation t' i g₀ hg₀
  have hi : id = i := hi.trans hid
  rw [ht, hi, hg₀] at hg
  cases hg
  exact ⟨rfl, rfl⟩

theorem saveChat_continued (hg : s.generations t id = some g) {now : Int} {t' : Bool} {chat : Chat} {expected : Option Int}
    (hr : saveChat env s now t' chat expected = .ok s') : Continued s s' t id g := by
  simp only [saveChat, bind_eq_ok, pure_eq_ok] at hr
  obtain ⟨m, hw, rfl⟩ := hr
  have hchats := (writeChat_eq_ok hw).1
  refine ⟨fun g' hg' hlive => ?_⟩
  obtain ⟨a, ha, rfl⟩ := Option.map_eq_some_iff.mp hg'
  rw [hchats.generations, hg] at ha
  cases ha
  rw [← hchats.outputs]
  split at hlive <;> exact ⟨hlive, by split <;> rfl, rfl⟩

theorem expireTemporary_continued (hg : s.generations t id = some g) (now : Int) (owner session : String) :
    Continued s (expireTemporary s now owner session) t id g := by
  refine ⟨fun g' hg' hlive => ?_⟩
  obtain ⟨a, ha, rfl⟩ := Option.map_eq_some_iff.mp hg'
  rw [hg] at ha
  cases ha
  split at hlive <;> exact ⟨hlive, by split <;> rfl, rfl⟩

theorem removeChat_continued (hg : s.generations t id = some g) (t' : Bool) (i : String) :
    Continued s (removeChat s t' i) t id g := by
  refine ⟨fun g' hg' hlive => ?_⟩
  simp only [removeChat] at hg' ⊢
  split at hg'
  · cases hg'
  · next hgone =>
      rw [if_neg hgone]
      rw [hg] at hg'
      cases hg'
      exact ⟨hlive, rfl, rfl⟩

theorem removeGeneration_continued (hg : s.generations t id = some g) (t' : Bool) (i : String) :
    Continued s (removeGeneration s t' i) t id g := by
  refine ⟨fun g' hg' hlive => ?_⟩
  by_cases hi : t = t' ∧ id = i
  · rw [hi.1, hi.2] at hg'
    simp [removeGeneration] at hg'
  · simp only [removeGeneration] at hg' ⊢
    rw [put_of_ne _ _ hi] at hg' ⊢
    rw [hg] at hg'
    cases hg'
    exact ⟨hlive, rfl, rfl⟩

theorem advance_sequence {g' : Generation} {event : OutputEvent} (h : advance env g event = .ok g') :
    event.sequence = g.sequence + 1 ∧ g'.sequence = g.sequence + 1 := by
  simp only [advance, bind_eq_ok, ensure_eq_ok, beq_iff_eq] at h
  obtain ⟨_, hgap, h⟩ := h
  refine ⟨hgap, ?_⟩
  cases hk : event.kind with
  | content =>
      simp only [hk, addContent, bind_eq_ok, pure_eq_ok] at h
      obtain ⟨_, -, rfl⟩ := h
      rfl
  | tool =>
      simp only [hk, addTool, bind_eq_ok, pure_eq_ok] at h
      obtain ⟨_, -, rfl⟩ := h
      split <;> rfl
  | activity =>
      simp only [hk, addActivity, bind_eq_ok] at h
      obtain ⟨activity, -, h⟩ := h
      cases activity with
      | emailDraft =>
          simp only [bind_eq_ok, pure_eq_ok] at h
          obtain ⟨_, -, rfl⟩ := h
          rfl
      | webResearch | warning | python | question | silent =>
          simp only [pure_eq_ok] at h
          subst h
          rfl
  | completed | failed | cancelled =>
      simp only [hk, Except.ok.injEq] at h
      subst h
      rfl
  | heartbeat | other => simp [hk] at h

theorem accept_row (hid : g.id = id) {now : Int} {messageId : String} {event : OutputEvent}
    (h : accept env s now t messageId g event = .ok s') :
    g.status.terminal = false ∧ ∃ g', s'.generations t id = some g' ∧
      g'.status = event.kind.outcome.getD .running ∧
      ((event.kind = .heartbeat ∧ g'.sequence = g.sequence ∧ s'.outputs t id = s.outputs t id) ∨
        (event.kind ≠ .heartbeat ∧ event.sequence = g.sequence + 1 ∧ g'.sequence = g.sequence + 1 ∧
          s'.outputs t id = s.outputs t id ++ [event])) := by
  obtain ⟨hlive, m, a, n, hext, hset, hw⟩ := accept_eq_ok h
  obtain ⟨⟨revision, hrows⟩, -, hlogs, -, -⟩ := writeGeneration_eq_ok hw
  obtain ⟨-, hsettled, -⟩ := settle_confined hset
  have hrow := (extend_frame hext).1
  have ha : (a.withStatus (event.kind.outcome.getD .running)).id = id := hrow.id.trans hid
  rw [ha] at hrows
  refine ⟨hlive, _, by rw [hrows, put_self], rfl, ?_⟩
  rw [hlogs, hsettled]
  simp only [extend] at hext
  split at hext
  · next hkind =>
      simp only [pure_eq_ok, Prod.mk.injEq] at hext
      obtain ⟨rfl, rfl⟩ := hext
      exact .inl ⟨hkind, rfl, rfl⟩
  · next hkind =>
      simp only [bind_eq_ok, pure_eq_ok, Prod.mk.injEq] at hext
      obtain ⟨b, hb, c, hc, rfl, rfl⟩ := hext
      obtain ⟨hgap, hnext⟩ := advance_sequence hb
      simp only [appendOutput, bind_eq_ok, pure_eq_ok] at hc
      obtain ⟨_, -, _, -, rfl⟩ := hc
      have hb : b.id = id := ha
      refine .inr ⟨hkind, hgap, hnext, ?_⟩
      rw [hb]
      exact put_self s.outputs t id _

/-- Output of another generation, a heartbeat and a command leave the log of a
running generation. -/
theorem append_continued (hk : Keyed s) (hg : s.generations t id = some g) {now : Int} {t' : Bool} {i messageId : String}
    {event : OutputEvent} (hother : ¬ (t' = t ∧ i = id) ∨ event.sequence ≤ 0)
    (h : append env s now t' i messageId event = .ok s') : Continued s s' t id g := by
  by_cases hsame : t' = t ∧ i = id
  · obtain ⟨rfl, rfl⟩ := hsame
    have hnonpos : event.sequence ≤ 0 := hother.resolve_left (by simp)
    simp only [append, bind_eq_ok, context_eq_ok] at h
    obtain ⟨g₀, hg₀, h⟩ := h
    obtain rfl : g = g₀ := by simpa [hg] using (Option.filter_eq_some_iff.mp hg₀).1
    have hid : g.id = i := hk.generation t' i g hg
    split at h
    · simp only [pure_eq_ok] at h
      exact h ▸ .same hg rfl
    · simp only [bind_eq_ok] at h
      obtain ⟨e, he, h⟩ := h
      simp only [allocate] at he
      split at he
      · simp only [bind_eq_ok, ensure_eq_ok, pure_eq_ok] at he
        obtain ⟨_, hkind, _, -, rfl⟩ := he
        rw [if_neg (by simp)] at h
        obtain ⟨-, g', hg', hstatus, -⟩ := accept_row hid h
        refine ⟨fun g'' hg'' hlive => ?_⟩
        rw [hg'] at hg''
        cases hg''
        rw [hstatus] at hlive
        rcases (by simpa using hkind : event.kind = .failed ∨ event.kind = .cancelled) with hk | hk <;>
          simp [hk, EventKind.outcome, Status.terminal] at hlive
      · simp only [pure_eq_ok] at he
        subst he
        rw [if_neg (by omega)] at h
        obtain ⟨hlive, g', hg', hstatus, ⟨-, hsequence, hlog⟩ | ⟨-, hgap, -⟩⟩ := accept_row hid h
        · refine ⟨fun g'' hg'' _ => ?_⟩
          rw [hg'] at hg''
          cases hg''
          exact ⟨hlive, hsequence, hlog⟩
        · omega
  · have hconfined := append_confined (fun g hg => hk.generation t' i g hg) h
    have hne : ¬ (t = t' ∧ id = i) := fun heq => hsame ⟨heq.1.symm, heq.2.symm⟩
    exact .same ((hconfined.generations t id hne).trans hg) (hconfined.outputs t id hne)

/-- An output event is a replay, or the next one of a running generation. -/
theorem append_output (hk : Keyed s) (hg : s.generations t id = some g) {now : Int} {messageId : String} {event : OutputEvent}
    (hpositive : 0 < event.sequence) (hkind : event.kind ≠ .heartbeat)
    (h : append env s now t id messageId event = .ok s') :
    (s' = s ∧ event.sequence ≤ g.sequence) ∨
      (g.status.terminal = false ∧ ∃ g', s'.generations t id = some g' ∧ event.sequence = g.sequence + 1 ∧
        g'.sequence = g.sequence + 1 ∧ s'.outputs t id = s.outputs t id ++ [event]) := by
  simp only [append, bind_eq_ok, context_eq_ok] at h
  obtain ⟨g₀, hg₀, h⟩ := h
  obtain rfl : g = g₀ := by simpa [hg] using (Option.filter_eq_some_iff.mp hg₀).1
  rw [if_neg (by omega)] at h
  simp only [bind_eq_ok, allocate, if_neg (by omega : ¬ event.sequence < 0), pure_eq_ok] at h
  obtain ⟨_, rfl, h⟩ := h
  split at h
  · next hreplay =>
      simp only [bind_eq_ok, pure_eq_ok] at h
      obtain ⟨_, -, rfl⟩ := h
      exact .inl ⟨rfl, hreplay.2⟩
  · obtain ⟨hlive, g', hg', -, ⟨hheartbeat, -⟩ | ⟨-, hgap, hsequence, hlog⟩⟩ := accept_row (hk.generation t id g hg) h
    · exact absurd hheartbeat hkind
    · exact .inr ⟨hlive, g', hg', hgap, hsequence, hlog⟩

end Galadril.Pengolo
