import Galadril.Lib.Numbering
import Galadril.Scribe.Background

namespace Galadril.Scribe

open Lib.Transitions Lib.Numbering Pengolo

def written (event : OutputEvent) : List Char := if event.kind = .content then event.content.toList else []

theorem ChunkKind.event_eq_content (kind : ChunkKind) : kind.event = .content ↔ kind = .content := by cases kind <;> simp [event]

def text (log : List OutputEvent) : List Char := (firsts OutputEvent.sequence log).flatMap written

def joined (pending : List String) : List Char := pending.flatMap String.toList

def Work.pushed : Work → List Char
  | .push fragment => fragment.toList
  | _ => []

def pushed (works : List Work) : List Char := works.flatMap Work.pushed

def Chunk.chars (chunk : Chunk) : List Char := if chunk.kind = .content then chunk.content.toList else []

theorem text_again {log : List OutputEvent} {e : OutputEvent} (h : e ∈ log) : text (log ++ [e]) = text log := by
  rw [text, firsts_append_again _ ⟨e, h, rfl⟩, text]

theorem text_fresh {log : List OutputEvent} {e : OutputEvent} (h : ∀ a ∈ log, a.sequence ≠ e.sequence) :
    text (log ++ [e]) = text log ++ written e := by
  rw [text, firsts_append_fresh _ h]
  simp [text]

theorem text_silent {log : List OutputEvent} {e : OutputEvent} (h : e.kind ≠ .content) : text (log ++ [e]) = text log := by
  rw [text, firsts_append, once]
  split
  · rfl
  · simp [text, written, h]

theorem joined_ne_nil {pending : List String} (h : pending ≠ []) (hsolid : ∀ f ∈ pending, f ≠ "") : joined pending ≠ [] := by
  obtain ⟨f, rest, rfl⟩ := List.exists_cons_of_ne_nil h
  have hf : f.toList ≠ [] := fun hnil => hsolid f List.mem_cons_self (String.toList_inj.mp hnil)
  simp [joined, hf]

theorem slices_flatten {size : Nat} (hsize : 0 < size) (fuel : Nat) (rest : List Char) (h : rest.length ≤ fuel) :
    (slices size fuel rest).flatten = rest := by
  fun_induction slices size fuel rest with
  | case1 rest => simp_all
  | case2 => rfl
  | case3 fuel rest hne ih =>
      have hpos : 0 < rest.length := List.length_pos_of_ne_nil hne
      rw [List.flatten_cons, ih (by rw [List.length_drop]; omega), List.take_append_drop]

theorem slices_ne_nil {size : Nat} (hsize : 0 < size) (fuel : Nat) (rest : List Char) : ∀ s ∈ slices size fuel rest, s ≠ [] := by
  fun_induction slices size fuel rest with
  | case1 => simp
  | case2 => simp
  | case3 fuel rest hne ih =>
      intro s hs
      rcases List.mem_cons.mp hs with rfl | hs
      · intro hnil
        rcases List.take_eq_nil_iff.mp hnil with h | h
        · omega
        · exact hne h
      · exact ih s hs

theorem fragment_ne_empty {content fragment : String} (h : fragment ∈ fragments content) : fragment ≠ "" := by
  obtain ⟨s, hs, rfl⟩ := List.mem_map.mp h
  intro hempty
  refine slices_ne_nil (by decide) _ _ s hs ?_
  simpa using congrArg String.toList hempty

theorem pushed_pieces (content : String) : pushed ((fragments content).flatMap pieces) = content.toList := by
  have hlist : ∀ l : List String, pushed (l.flatMap pieces) = joined l := by
    intro l
    induction l with
    | nil => rfl
    | cons f l ih =>
        rw [pushed] at ih
        simp [pushed, joined, pieces, Work.pushed] at ih ⊢
        exact ih
  have hflat := slices_flatten (by decide : 0 < contentFragmentChars) content.length content.toList
    (le_of_eq String.length_toList)
  rw [hlist, joined, fragments, List.flatMap_map]
  simpa [List.flatMap_def] using hflat

theorem pushed_work (chunk : Chunk) : pushed chunk.work = chunk.chars := by
  rw [Chunk.work, Chunk.chars]
  split
  · exact pushed_pieces chunk.content
  · rfl

/-- The works of a chunk from some point on. An event of its own is preceded by
a flush. -/
inductive Shape : List String → List Work → Prop
  | stream {pending : List String} {works : List Work} (hevents : ∀ k c, .persist k c ∉ works)
      (hsolid : ∀ f, .push f ∈ works → f ≠ "") : Shape pending works
  | flushing {pending : List String} {k : ChunkKind} {c : String} (h : k ≠ .content) : Shape pending [.flush, .persist k c]
  | single {k : ChunkKind} {c : String} (h : k ≠ .content) : Shape [] [.persist k c]

theorem Shape.tail {pending : List String} {work : Work} {works : List Work} (h : Shape pending (work :: works))
    (hwork : ∀ k c, work ≠ .persist k c) (hflush : work = .flush → pending = []) : Shape pending works := by
  cases h with
  | stream hevents hsolid =>
      exact .stream (fun k c hk => hevents k c (List.mem_cons_of_mem _ hk)) fun f hf => hsolid f (List.mem_cons_of_mem _ hf)
  | flushing h =>
      rw [hflush rfl]
      exact .single h
  | single => exact absurd rfl (hwork _ _)

/-- What remains of a chunk after its batch is cleared. -/
theorem Shape.cleared {pending : List String} {work : Work} {works : List Work} (h : Shape pending (work :: works))
    (hwork : ∀ k c, work ≠ .persist k c) : Shape [] works := by
  cases h with
  | stream hevents hsolid =>
      exact .stream (fun k c hk => hevents k c (List.mem_cons_of_mem _ hk)) fun f hf => hsolid f (List.mem_cons_of_mem _ hf)
  | flushing h => exact .single h
  | single => exact absurd rfl (hwork _ _)

theorem Shape.pushing {pending pending' : List String} {f : String} {works : List Work}
    (h : Shape pending (.push f :: works)) : f ≠ "" ∧ Shape pending' works := by
  cases h with
  | stream hevents hsolid =>
      exact ⟨hsolid f List.mem_cons_self, .stream (fun k c hk => hevents k c (List.mem_cons_of_mem _ hk)) fun f hf =>
        hsolid f (List.mem_cons_of_mem _ hf)⟩

theorem Chunk.shape (chunk : Chunk) (pending : List String) : Shape pending chunk.work := by
  rw [Chunk.work]
  split
  · refine .stream (fun k c h => ?_) fun f h => ?_
    · simp [pieces] at h
    · obtain ⟨g, hg, hf⟩ := List.mem_flatMap.mp h
      simp only [pieces, List.mem_cons, Work.push.injEq, List.not_mem_nil, or_false, reduceCtorEq, false_or] at hf
      rw [hf]
      exact fragment_ne_empty hg
  · next h => exact .flushing h

variable (w : Background)

structure Fits (d : Delivery) : Prop where
  batch : d.batch = true → d.kind = .content ∧ d.content = String.join w.pending ∧ w.pending ≠ []
  single : d.batch = false → d.kind ≠ .content ∧ w.pending = []
  sent : w.event d ∈ w.submitted

inductive Carried (event : OutputEvent) : Prop
  | main (d : Delivery) (rest : List Work) (hmain : w.main = .sending d rest) (h : event = w.event d)
  | flusher (d : Delivery) (hflusher : w.flusher = .sending d) (h : event = w.event d)
  | failing (attempt : Nat) (paused : Bool) (hmain : w.main = .failing attempt paused) (h : event = failedEvent w)
  | ended (hmain : w.cancelled = true ∨ w.main = .done) (hflusher : w.flusher = .done)

/-- A batch under the next sequence is part of the log already. -/
def Counted : Prop := ∃ e ∈ w.submitted, e.sequence = w.sequence + 1 ∧ e.kind = .content

/-- The content that the main task has yet to put into a batch. -/
def Main.rest : Main → List Char
  | .waiting chunk => chunk.chars
  | .sending _ works => pushed works
  | _ => []

def Main.Proper : Main → Prop
  | .starting _ _ => w.pending = []
  | .failing _ _ => w.pending = [] ∧ failedEvent w ∈ w.submitted
  | .reading | .waiting _ => True
  | .sending d works => w.lock = some .main ∧ Fits w d ∧ (d.batch = true → Shape [] works) ∧ (d.batch = false → works = [])
  | .done => w.flusher = .done

def Flusher.Proper : Flusher → Prop
  | .sending d => w.lock = some .flusher ∧ Fits w d ∧ d.batch = true
  | _ => True

structure Coherent : Prop where
  numbered : Numbered OutputEvent.sequence w.submitted w.sequence
  acknowledged : ∀ e ∈ w.acknowledged, e ∈ w.submitted
  carried : ∀ e ∈ w.submitted, e.sequence = w.sequence + 1 → Carried w e
  main : w.main.Proper w
  flusher : w.flusher.Proper w
  counted : w.main ≠ .done → Counted w → text w.submitted ++ w.main.rest = w.yielded
  uncounted : w.main ≠ .done → ¬ Counted w → text w.submitted ++ joined w.pending ++ w.main.rest = w.yielded
  spelled : text w.submitted <+: w.yielded
  solid : ∀ f ∈ w.pending, f ≠ ""
  failed : w.failed = true → w.cancelled = true ∨ (∃ attempt paused, w.main = .failing attempt paused) ∨ w.main = .done

/-- The main task holds the lock between two deliveries. -/
structure Held (works : List Work) : Prop where
  numbered : Numbered OutputEvent.sequence w.submitted w.sequence
  acknowledged : ∀ e ∈ w.acknowledged, e ∈ w.submitted
  free : ∀ e ∈ w.submitted, e.sequence ≠ w.sequence + 1
  lock : w.lock = some .main
  flusher : ∀ d, w.flusher ≠ .sending d
  shape : Shape w.pending works
  content : text w.submitted ++ joined w.pending ++ pushed works = w.yielded
  solid : ∀ f ∈ w.pending, f ≠ ""
  failed : w.failed = false

section Holding

variable {w : Background} {works : List Work}

theorem mem_submit {x e : OutputEvent} : e ∈ (w.submit x).submitted ↔ e ∈ w.submitted ∨ e = x := by
  simp [Background.submit]

/-- A delivery under a sequence that no event has yet. -/
theorem Held.send (h : Held w works) {d : Delivery} {rest : List Work}
    (hbatch : d.batch = true → (d.kind = .content ∧ d.content = String.join w.pending ∧ w.pending ≠ []) ∧
      Shape [] rest ∧ pushed rest = pushed works)
    (hsingle : d.batch = false → (d.kind ≠ .content ∧ w.pending = []) ∧ rest = [] ∧ pushed works = []) :
    Coherent (send w d rest) := by
  have htext : text (w.submitted ++ [w.event d]) = text w.submitted ++ written (w.event d) := text_fresh h.free
  have hmem : ∀ e ∈ w.submitted ++ [w.event d], e.sequence = w.sequence + 1 → e = w.event d := by
    intro e he hs
    rcases List.mem_append.mp he with he | he
    · exact absurd hs (h.free e he)
    · simpa using he
  have hcontent : text (w.submitted ++ [w.event d]) ++ pushed rest = w.yielded ∧
      (d.batch = false → written (w.event d) = []) := by
    rw [htext, ← h.content]
    cases hd : d.batch with
    | true =>
        obtain ⟨⟨hkind, hjoin, -⟩, -, hrest⟩ := hbatch hd
        simp [written, Background.event, ChunkKind.event, hkind, hjoin, hrest, joined]
    | false =>
        obtain ⟨⟨hkind, hpending⟩, rfl, hworks⟩ := hsingle hd
        rw [hworks]
        simp [written, Background.event, ChunkKind.event_eq_content, hkind, hpending, joined, pushed]
  refine ⟨h.numbered.append rfl fun a ha hs => absurd hs (h.free a ha), fun e he => ?_, fun e he hs => ?_, ?_, ?_, ?_, ?_, ?_,
    h.solid, fun hf => ?_⟩
  · exact List.mem_append_left _ (h.acknowledged e he)
  · exact .main d rest rfl (hmem e he hs)
  · refine ⟨h.lock, ⟨fun hb => (hbatch hb).1, fun hb => (hsingle hb).1, ?_⟩, fun hb => (hbatch hb).2.1,
      fun hb => (hsingle hb).2.1⟩
    exact List.mem_append_right _ (List.mem_singleton.mpr rfl)
  · have hflusher := h.flusher
    show w.flusher.Proper _
    cases hf : w.flusher with
    | sending d' => exact absurd hf (hflusher d')
    | sleeping | waiting | done => trivial
  · exact fun _ _ => hcontent.1
  · intro _ hnot
    cases hd : d.batch with
    | true =>
        refine absurd ⟨w.event d, List.mem_append_right _ (List.mem_singleton.mpr rfl), rfl, ?_⟩ hnot
        exact congrArg ChunkKind.event (hbatch hd).1.1
    | false =>
        have hpending := (hsingle hd).1.2
        show text (w.submitted ++ [w.event d]) ++ joined w.pending ++ pushed rest = w.yielded
        rw [hpending]
        simpa [joined] using hcontent.1
  · exact ⟨pushed rest, hcontent.1⟩
  · have hf : w.failed = true := hf
    simp [h.failed] at hf

theorem Held.reading (h : Held w []) : Coherent { w with
    main := .reading
    lock := none } := by
  have hcontent : text w.submitted ++ joined w.pending = w.yielded := by simpa [pushed] using h.content
  refine ⟨h.numbered, h.acknowledged, fun e he hs => absurd hs (h.free e he), trivial, ?_, ?_, ?_, ?_, h.solid, fun hf => ?_⟩
  · have hflusher := h.flusher
    show w.flusher.Proper _
    cases hf : w.flusher with
    | sending d' => exact absurd hf (hflusher d')
    | sleeping | waiting | done => trivial
  · exact fun _ ⟨e, he, hs, _⟩ => absurd hs (h.free e he)
  · exact fun _ _ => by simpa [Main.rest] using hcontent
  · exact ⟨joined w.pending, hcontent⟩
  · have hf : w.failed = true := hf
    simp [h.failed] at hf

theorem Held.carryOn (h : Held w works) : Coherent (carryOn w works) := by
  fun_induction Scribe.carryOn w works with
  | case1 w => exact h.reading
  | case2 w fragment rest hfull =>
      refine h.send (fun _ => ⟨⟨rfl, rfl, hfull.2⟩, h.shape.cleared (by simp), rfl⟩) fun hb => ?_
      cases hb
  | case3 w fragment rest hfull ih =>
      refine ih ⟨h.numbered, h.acknowledged, h.free, h.lock, h.flusher, h.shape.tail (by simp) (by simp), h.content, h.solid,
        h.failed⟩
  | case4 w fragment rest ih =>
      obtain ⟨hne, hshape⟩ := h.shape.pushing
      refine ih ⟨h.numbered, h.acknowledged, h.free, h.lock, h.flusher, hshape, ?_, ?_, h.failed⟩
      · have hcontent := h.content
        simp only [joined, pushed, List.flatMap_append, List.flatMap_cons, List.flatMap_nil, Work.pushed, List.append_nil,
          List.append_assoc] at hcontent ⊢
        exact hcontent
      · intro f hf
        rcases List.mem_append.mp hf with hf | hf
        · exact h.solid f hf
        · rw [List.mem_singleton.mp hf]
          exact hne
  | case5 w rest hfull =>
      refine h.send (fun _ => ⟨⟨rfl, rfl, hfull.2⟩, h.shape.cleared (by simp), rfl⟩) fun hb => ?_
      cases hb
  | case6 w rest hfull ih =>
      exact ih ⟨h.numbered, h.acknowledged, h.free, h.lock, h.flusher, h.shape.tail (by simp) (by simp), h.content, h.solid,
        h.failed⟩
  | case7 w rest hpending =>
      refine h.send (fun _ => ⟨⟨rfl, rfl, hpending⟩, h.shape.cleared (by simp), rfl⟩) fun hb => ?_
      cases hb
  | case8 w rest hpending ih =>
      have hnil : w.pending = [] := not_not.mp hpending
      exact ih ⟨h.numbered, h.acknowledged, h.free, h.lock, h.flusher, h.shape.tail (by simp) fun _ => hnil, h.content,
        h.solid, h.failed⟩
  | case9 w kind content rest =>
      refine h.send (fun hb => by cases hb) fun _ => ?_
      have hshape := h.shape
      cases hp : w.pending with
      | nil =>
          rw [hp] at hshape
          cases hshape with
          | stream hevents => exact absurd List.mem_cons_self (hevents _ _)
          | single hk => exact ⟨⟨hk, rfl⟩, rfl, rfl⟩
      | cons f fs =>
          rw [hp] at hshape
          cases hshape with
          | stream hevents => exact absurd List.mem_cons_self (hevents _ _)

end Holding

section Steps

variable {w : Background}

theorem Carried.free (hmain : ∀ d rest, w.main ≠ .sending d rest) (hfailing : ∀ a p, w.main ≠ .failing a p)
    (hflusher : ∀ d, w.flusher ≠ .sending d) (hended : w.flusher = .done → w.cancelled = false ∧ w.main ≠ .done)
    {event : OutputEvent} : ¬ Carried w event := by
  rintro (⟨d, rest, h, -⟩ | ⟨d, h, -⟩ | ⟨a, p, h, -⟩ | ⟨hc, hd⟩)
  · exact hmain d rest h
  · exact hflusher d h
  · exact hfailing a p h
  · obtain ⟨hcancelled, hdone⟩ := hended hd
    rcases hc with hc | hc
    · simp [hcancelled] at hc
    · exact hdone hc

/-- The lock keeps the flusher from sending. -/
theorem Coherent.flusher_idle (h : Coherent w) (hlock : w.lock ≠ some .flusher) (d : Delivery) : w.flusher ≠ .sending d := by
  intro hd
  have hf := h.flusher
  rw [hd] at hf
  exact hlock hf.1

theorem Coherent.main_idle (h : Coherent w) (hlock : w.lock ≠ some .main) (d : Delivery) (rest : List Work) :
    w.main ≠ .sending d rest := by
  intro hd
  have hm := h.main
  rw [hd] at hm
  exact hlock hm.1

theorem Coherent.not_failed (h : Coherent w) (hcancelled : w.cancelled = false) (hfailing : ∀ a p, w.main ≠ .failing a p)
    (hdone : w.main ≠ .done) : w.failed = false := by
  by_contra hf
  rcases h.failed (by simpa using hf) with hc | ⟨a, p, hm⟩ | hm
  · simp [hcancelled] at hc
  · exact hfailing a p hm
  · exact hdone hm

/-- The main task takes the lock for a chunk. -/
theorem Coherent.locks (h : Coherent w) {chunk : Chunk} (hmain : w.main = .waiting chunk) (hlock : w.lock = none)
    (hcancelled : w.cancelled = false) : Held { w with lock := some .main } chunk.work := by
  have hidle := h.flusher_idle (by simp [hlock])
  have hfree : ∀ e ∈ w.submitted, e.sequence ≠ w.sequence + 1 := by
    intro e he hs
    refine Carried.free (by simp [hmain]) (by simp [hmain]) hidle (fun _ => ⟨hcancelled, by simp [hmain]⟩) (h.carried e he hs)
  refine ⟨h.numbered, h.acknowledged, hfree, rfl, hidle, chunk.shape _, ?_, h.solid, ?_⟩
  · have hcontent := h.uncounted (by simp [hmain]) fun ⟨e, he, hs, _⟩ => hfree e he hs
    rw [pushed_work]
    simpa [hmain, Main.rest] using hcontent
  · exact h.not_failed hcancelled (by simp [hmain]) (by simp [hmain])

theorem Coherent.advances (h : Coherent w) {d : Delivery} {rest : List Work} (hmain : w.main = .sending d rest)
    (hcancelled : w.cancelled = false) : Held (advanced w d) rest := by
  have hproper := h.main
  rw [hmain] at hproper
  obtain ⟨hlock, hfits, hbatch, hsingle⟩ := hproper
  have hidle := h.flusher_idle (by simp [hlock])
  have hnumbered : Numbered OutputEvent.sequence w.submitted (w.sequence + 1) := h.numbered.advance ⟨w.event d, hfits.sent, rfl⟩
  have hcontent : text w.submitted ++ pushed rest = w.yielded := by
    cases hb : d.batch with
    | true =>
        have hcounted := h.counted (by simp [hmain]) ⟨w.event d, hfits.sent, rfl, congrArg ChunkKind.event (hfits.batch hb).1⟩
        simpa [hmain, Main.rest] using hcounted
    | false =>
        by_cases hc : Counted w
        · simpa [hmain, Main.rest] using h.counted (by simp [hmain]) hc
        · simpa [hmain, Main.rest, (hfits.single hb).2, joined] using h.uncounted (by simp [hmain]) hc
  have hpending : (advanced w d).pending = [] := by
    cases hb : d.batch with
    | true => simp [advanced, hb]
    | false => simp [advanced, hb, (hfits.single hb).2]
  refine ⟨hnumbered, h.acknowledged, fun e he hs => ?_, hlock, hidle, ?_, ?_, ?_, ?_⟩
  · obtain ⟨-, hhigh⟩ := h.numbered.range e he
    have hs : e.sequence = ((w.sequence + 1 : Nat) : Int) + 1 := hs
    omega
  · rw [hpending]
    cases hb : d.batch with
    | true => exact hbatch hb
    | false =>
        rw [hsingle hb]
        exact .stream (by simp) (by simp)
  · rw [hpending]
    simpa [joined, advanced] using hcontent
  · rw [hpending]
    simp
  · exact h.not_failed hcancelled (by simp [hmain]) (by simp [hmain])

structure Agrees (w w' : Background) : Prop where
  sequence : w'.sequence = w.sequence
  pending : w'.pending = w.pending
  submitted : ∀ e ∈ w.submitted, e ∈ w'.submitted

theorem Agrees.fits {w' : Background} (h : Agrees w w') {d : Delivery} (hd : Fits w d) : Fits w' d := by
  refine ⟨fun hb => h.pending ▸ hd.batch hb, fun hb => h.pending ▸ hd.single hb, ?_⟩
  have hevent : w'.event d = w.event d := by rw [Background.event, Background.event, h.sequence]
  exact hevent ▸ h.submitted _ hd.sent

theorem Agrees.flusher {w' : Background} (h : Agrees w w') (hlock : w'.lock = w.lock) {f : Flusher} (hf : f.Proper w) :
    f.Proper w' := by
  cases f with
  | sending d => exact ⟨hlock.trans hf.1, h.fits hf.2.1, hf.2.2⟩
  | sleeping | waiting | done => trivial

/-- A step that changes nothing but who is doing what. -/
theorem Coherent.recast (h : Coherent w) {m : Main} {f : Flusher} {lock : Option Party} {cancelled failed : Bool}
    (hmain : m.Proper { w with
      main := m
      flusher := f
      lock
      cancelled
      failed })
    (hflusher : f.Proper { w with
      main := m
      flusher := f
      lock
      cancelled
      failed })
    (hcarried : ∀ e, Carried w e → Carried { w with
      main := m
      flusher := f
      lock
      cancelled
      failed } e)
    (hrest : m = .done ∨ (w.main ≠ .done ∧ m.rest = w.main.rest))
    (hfailed : failed = true → cancelled = true ∨ (∃ attempt paused, m = .failing attempt paused) ∨ m = .done) :
    Coherent { w with
      main := m
      flusher := f
      lock
      cancelled
      failed } := by
  refine ⟨h.numbered, h.acknowledged, fun e he hs => hcarried e (h.carried e he hs), hmain, hflusher, fun hdone hc => ?_,
    fun hdone hc => ?_, h.spelled, h.solid, hfailed⟩
  · obtain ⟨hbefore, hrest⟩ := hrest.resolve_left hdone
    exact (congrArg (text w.submitted ++ ·) hrest).trans (h.counted hbefore hc)
  · obtain ⟨hbefore, hrest⟩ := hrest.resolve_left hdone
    exact (congrArg (text w.submitted ++ joined w.pending ++ ·) hrest).trans (h.uncounted hbefore hc)

theorem Coherent.again (h : Coherent w) {x : OutputEvent} (hx : x ∈ w.submitted) : Coherent (w.submit x) := by
  have hmem : ∀ e, e ∈ (w.submit x).submitted ↔ e ∈ w.submitted := by
    intro e
    rw [mem_submit]
    exact ⟨fun he => he.elim id fun he => he ▸ hx, .inl⟩
  have hagrees : Agrees w (w.submit x) := ⟨rfl, rfl, fun e he => (hmem e).mpr he⟩
  have hcounted : Counted (w.submit x) ↔ Counted w := by simp only [Counted, hmem]; rfl
  have htext : text (w.submit x).submitted = text w.submitted := text_again hx
  refine ⟨⟨fun e he => h.numbered.range e ((hmem e).mp he), fun k h₁ h₂ => ?_, fun a ha b hb => ?_⟩, fun e he => ?_,
    fun e he hs => ?_, ?_, hagrees.flusher rfl h.flusher, fun hdone hc => ?_, fun hdone hc => ?_, ?_, h.solid, h.failed⟩
  · obtain ⟨e, he, hk⟩ := h.numbered.reached k h₁ h₂
    exact ⟨e, (hmem e).mpr he, hk⟩
  · exact h.numbered.agree a ((hmem a).mp ha) b ((hmem b).mp hb)
  · exact (hmem e).mpr (h.acknowledged e he)
  · rcases h.carried e ((hmem e).mp he) hs with ⟨d, rest, hm, he⟩ | ⟨d, hf, he⟩ | ⟨a, p, hm, he⟩ | ⟨hm, hf⟩
    · exact .main d rest hm he
    · exact .flusher d hf he
    · exact .failing a p hm he
    · exact .ended hm hf
  · have hproper := h.main
    show w.main.Proper _
    cases hm : w.main with
    | sending d rest =>
        rw [hm] at hproper
        exact ⟨hproper.1, hagrees.fits hproper.2.1, hproper.2.2⟩
    | failing attempt paused =>
        rw [hm] at hproper
        exact ⟨hproper.1, hagrees.submitted _ hproper.2⟩
    | starting | reading | waiting | done =>
        rw [hm] at hproper
        exact hproper
  · rw [htext]
    exact h.counted hdone (hcounted.mp hc)
  · rw [htext]
    exact h.uncounted hdone fun hw => hc (hcounted.mpr hw)
  · rw [htext]
    exact h.spelled

/-- The main task goes on without having sent anything. -/
theorem Carried.moved {m : Main} (hsending : ∀ d rest, w.main ≠ .sending d rest) (hfailing : ∀ a p, w.main ≠ .failing a p)
    (hdone : w.main ≠ .done) {e : OutputEvent} (h : Carried w e) : Carried { w with main := m } e := by
  rcases h with ⟨d, rest, hm, he⟩ | ⟨d, hf, he⟩ | ⟨a, p, hm, he⟩ | ⟨hm, hf⟩
  · exact absurd hm (hsending d rest)
  · exact .flusher d hf he
  · exact absurd hm (hfailing a p)
  · exact .ended (.inl (hm.resolve_right hdone)) hf

theorem Coherent.stopped (h : Coherent w) : Coherent (stopped w) :=
  h.recast rfl trivial (fun _ _ => .ended (.inr rfl) rfl) (.inl rfl) fun _ => .inr (.inr rfl)

/-- A report of failure after which nothing of the answer is missing. -/
theorem Coherent.fails (h : Coherent w) (failed : Bool) (hundisturbed : w.Undisturbed) (hcancelled : w.cancelled = false)
    (hwaiting : ∀ chunk, w.main ≠ .waiting chunk) (hfailing : ∀ a p, w.main ≠ .failing a p) (hdone : w.main ≠ .done) :
    Coherent (fail { w with failed }) := by
  obtain ⟨hpending, hsending⟩ := hundisturbed
  have hidle : ∀ d, w.flusher ≠ .sending d := by
    intro d hd
    have hf := h.flusher
    rw [hd] at hf
    exact (hf.2.1.batch hf.2.2).2.2 hpending
  have hnext : ∀ e ∈ w.submitted, e.sequence = w.sequence + 1 → e = failedEvent w := by
    intro e he hs
    rcases h.carried e he hs with ⟨d, rest, hm, rfl⟩ | ⟨d, hf, -⟩ | ⟨a, p, hm, -⟩ | ⟨hm, -⟩
    · obtain ⟨hkind, hcontent⟩ := hsending d rest hm
      rw [Background.event, failedEvent, hkind, hcontent, ChunkKind.event]
    · exact absurd hf (hidle d)
    · exact absurd hm (hfailing a p)
    · rcases hm with hm | hm
      · simp [hcancelled] at hm
      · exact absurd hm hdone
  have htext : text (w.submitted ++ [failedEvent w]) = text w.submitted := text_silent (by simp [failedEvent])
  have hrest : w.main.rest = [] := by
    have hproper := h.main
    cases hm : w.main with
    | sending d rest =>
        rw [hm] at hproper
        cases hb : d.batch with
        | true => exact absurd hpending (hproper.2.1.batch hb).2.2
        | false => simp [Main.rest, hproper.2.2.2 hb, pushed]
    | waiting chunk => exact absurd hm (hwaiting chunk)
    | starting | reading | failing | done => rfl
  have hcontent : text (w.submitted ++ [failedEvent w]) = w.yielded := by
    rw [htext]
    by_cases hc : Counted w
    · simpa [hrest] using h.counted hdone hc
    · simpa [hrest, hpending, joined] using h.uncounted hdone hc
  refine ⟨h.numbered.append rfl hnext, fun e he => ?_, fun e he hs => ?_,
    ⟨hpending, List.mem_append_right _ (List.mem_singleton.mpr rfl)⟩, ?_, fun _ _ => ?_, fun _ _ => ?_, ?_,
    h.solid, fun _ => .inr (.inl ⟨0, false, rfl⟩)⟩
  · exact List.mem_append_left _ (h.acknowledged e he)
  · refine .failing 0 false rfl ?_
    rcases List.mem_append.mp he with he | he
    · exact hnext e he hs
    · exact List.mem_singleton.mp he
  · show w.flusher.Proper _
    cases hf : w.flusher with
    | sending d => exact absurd hf (hidle d)
    | sleeping | waiting | done => trivial
  · exact (List.append_nil _).trans hcontent
  · show text (w.submitted ++ [failedEvent w]) ++ joined w.pending ++ [] = w.yielded
    simpa [hpending, joined] using hcontent
  · exact ⟨[], (List.append_nil _).trans hcontent⟩

/-- The main task goes on to another stage without having sent anything. -/
theorem Coherent.moves (h : Coherent w) {m : Main} (hproper : m.Proper { w with main := m }) (hrest : m.rest = w.main.rest)
    (hsending : ∀ d rest, w.main ≠ .sending d rest) (hfailing : ∀ a p, w.main ≠ .failing a p) (hdone : w.main ≠ .done) :
    Coherent { w with main := m } := by
  have hagrees : Agrees w { w with main := m } := ⟨rfl, rfl, fun _ he => he⟩
  refine h.recast hproper (hagrees.flusher rfl h.flusher) (fun e he => he.moved hsending hfailing hdone)
    (.inr ⟨hdone, hrest⟩) fun hf => ?_
  rcases h.failed hf with hc | ⟨a, p, hm⟩ | hm
  · exact .inl hc
  · exact absurd hm (hfailing a p)
  · exact absurd hm hdone

theorem Coherent.retries (h : Coherent w) {d d' : Delivery} {rest : List Work} (hmain : w.main = .sending d rest)
    (hkind : d'.kind = d.kind) (hcontent : d'.content = d.content) (hbatch : d'.batch = d.batch) :
    Coherent { w with main := .sending d' rest } := by
  have hagrees : Agrees w { w with main := .sending d' rest } := ⟨rfl, rfl, fun _ he => he⟩
  have hproper := h.main
  rw [hmain] at hproper
  obtain ⟨hlock, hfits, hshape, hsingle⟩ := hproper
  have hevent : w.event d' = w.event d := by rw [Background.event, Background.event, hkind, hcontent]
  refine h.recast ⟨hlock, ⟨?_, ?_, ?_⟩, hbatch ▸ hshape, hbatch ▸ hsingle⟩ (hagrees.flusher rfl h.flusher) (fun e he => ?_) ?_
    fun hf => ?_
  · rw [hbatch, hkind, hcontent]
    exact hfits.batch
  · rw [hbatch, hkind]
    exact hfits.single
  · show w.event d' ∈ w.submitted
    rw [hevent]
    exact hfits.sent
  · rcases he with ⟨d₀, rest₀, hm, he⟩ | ⟨d₀, hf, he⟩ | ⟨a, p, hm, he⟩ | ⟨hm, hf⟩
    · rw [hmain] at hm
      cases hm
      exact .main d' rest rfl (he.trans hevent.symm)
    · exact .flusher d₀ hf he
    · simp [hmain] at hm
    · exact .ended (.inl (hm.resolve_right (by simp [hmain]))) hf
  · exact .inr ⟨by simp [hmain], by simp [hmain, Main.rest]⟩
  · rcases h.failed hf with hc | ⟨a, p, hm⟩ | hm
    · exact .inl hc
    · simp [hmain] at hm
    · simp [hmain] at hm

theorem Coherent.reports (h : Coherent w) {a a' : Nat} {p p' : Bool} (hmain : w.main = .failing a p) :
    Coherent { w with main := .failing a' p' } := by
  have hagrees : Agrees w { w with main := .failing a' p' } := ⟨rfl, rfl, fun _ he => he⟩
  have hproper := h.main
  rw [hmain] at hproper
  refine h.recast hproper (hagrees.flusher rfl h.flusher) (fun e he => ?_) ?_ fun _ => .inr (.inl ⟨a', p', rfl⟩)
  · rcases he with ⟨d, rest, hm, -⟩ | ⟨d, hf, he⟩ | ⟨a₀, p₀, -, he⟩ | ⟨hm, hf⟩
    · simp [hmain] at hm
    · exact .flusher d hf he
    · exact .failing a' p' rfl he
    · exact .ended (.inl (hm.resolve_right (by simp [hmain]))) hf
  · exact .inr ⟨by simp [hmain], by simp [hmain, Main.rest]⟩

theorem Coherent.answerMain (h : Coherent w) (outcome : Outcome) (hcancelled : w.cancelled = false)
    (hcondition : w.main.exhausts outcome = true → w.Undisturbed) : Coherent (answerMain w outcome) := by
  cases hmain : w.main with
  | starting attempt paused =>
      have hproper := h.main
      rw [hmain] at hproper hcondition
      have hmoves : ∀ m : Main, m.rest = [] → m.Proper { w with main := m } → Coherent { w with main := m } :=
        fun m hrest hm => h.moves hm (hrest.trans (by simp [hmain, Main.rest])) (by simp [hmain]) (by simp [hmain])
          (by simp [hmain])
      have hfails := fun hu => h.fails true hu hcancelled (by simp [hmain]) (by simp [hmain]) (by simp [hmain])
      simp only [Scribe.answerMain, hmain]
      cases paused with
      | true => exact h
      | false =>
          cases outcome with
          | accepted => exact hmoves .reading rfl trivial
          | refused => exact hfails (hcondition rfl)
          | unavailable =>
              show Coherent (if exhausted attempt .unavailable = true then _ else _)
              split
              · next hx => exact hfails (hcondition hx)
              · exact hmoves (.starting attempt true) rfl hproper
  | sending d rest =>
      rw [hmain] at hcondition
      have hfails := fun hu => h.fails true hu hcancelled (by simp [hmain]) (by simp [hmain]) (by simp [hmain])
      simp only [Scribe.answerMain, hmain]
      split
      · exact h
      · next hpaused =>
          cases outcome with
          | accepted =>
              show Coherent (if w.event d ∈ w.acknowledged then _ else _)
              split
              · exact (h.advances hmain hcancelled).carryOn
              · exact h
          | refused => exact hfails (hcondition (by simp [Main.exhausts, hpaused, exhausted]))
          | unavailable =>
              show Coherent (if exhausted d.attempt .unavailable = true then _ else _)
              split
              · next hx => exact hfails (hcondition (by simp [Main.exhausts, hpaused, hx]))
              · exact h.retries hmain rfl rfl rfl
  | failing attempt paused =>
      simp only [Scribe.answerMain, hmain]
      cases paused with
      | true => exact h
      | false =>
          cases outcome with
          | accepted | refused => exact h.stopped
          | unavailable =>
              show Coherent (if exhausted attempt .unavailable = true then _ else _)
              split
              · exact h.stopped
              · exact h.reports hmain
  | reading | waiting | done => simpa only [Scribe.answerMain, hmain] using h

/-- While the flusher sends, the main task neither sends nor reports. -/
theorem Coherent.flushing (h : Coherent w) {d : Delivery} (hflusher : w.flusher = .sending d) :
    w.lock = some .flusher ∧ Fits w d ∧ d.batch = true ∧ (w.main = .reading ∨ ∃ chunk, w.main = .waiting chunk) := by
  have hproper := h.flusher
  rw [hflusher] at hproper
  obtain ⟨hlock, hfits, hbatch⟩ := hproper
  refine ⟨hlock, hfits, hbatch, ?_⟩
  have hpending := (hfits.batch hbatch).2.2
  have hmain := h.main
  cases hm : w.main with
  | sending d₀ rest => exact absurd hm (h.main_idle (by simp [hlock]) d₀ rest)
  | done =>
      rw [hm] at hmain
      rw [hmain] at hflusher
      cases hflusher
  | starting =>
      rw [hm] at hmain
      exact absurd hmain hpending
  | failing =>
      rw [hm] at hmain
      exact absurd hmain.1 hpending
  | reading => exact .inl rfl
  | waiting chunk => exact .inr ⟨chunk, rfl⟩

theorem Main.Proper.of_idle {m : Main} (h : m = .reading ∨ ∃ chunk, m = .waiting chunk) : m.Proper w := by
  rcases h with rfl | ⟨chunk, rfl⟩ <;> trivial

theorem Main.ne_done_of_idle {m : Main} (h : m = .reading ∨ ∃ chunk, m = .waiting chunk) : m ≠ .done := by
  rcases h with rfl | ⟨chunk, rfl⟩ <;> simp

theorem Coherent.flusher_retries (h : Coherent w) {d d' : Delivery} (hflusher : w.flusher = .sending d)
    (hkind : d'.kind = d.kind) (hcontent : d'.content = d.content) (hb : d'.batch = d.batch) :
    Coherent { w with flusher := .sending d' } := by
  obtain ⟨hlock, hfits, hbatch, hidle⟩ := h.flushing hflusher
  have hevent : w.event d' = w.event d := by rw [Background.event, Background.event, hkind, hcontent]
  refine h.recast (.of_idle hidle) ⟨hlock, ⟨?_, ?_, ?_⟩, hb.trans hbatch⟩ (fun e he => ?_)
    (.inr ⟨Main.ne_done_of_idle hidle, rfl⟩) h.failed
  · rw [hb, hkind, hcontent]
    exact hfits.batch
  · rw [hb, hkind]
    exact hfits.single
  · show w.event d' ∈ w.submitted
    rw [hevent]
    exact hfits.sent
  · rcases he with ⟨d₀, rest, hm, he⟩ | ⟨d₀, hf, he⟩ | ⟨a, p, hm, he⟩ | ⟨hm, hf⟩
    · exact .main d₀ rest hm he
    · rw [hflusher] at hf
      cases hf
      exact .flusher d' rfl (he.trans hevent.symm)
    · exact .failing a p hm he
    · rw [hflusher] at hf
      cases hf

theorem Coherent.flusher_advances (h : Coherent w) {d : Delivery} (hflusher : w.flusher = .sending d) :
    Coherent { advanced w d with
      flusher := .sleeping
      lock := none } := by
  obtain ⟨hlock, hfits, hbatch, hidle⟩ := h.flushing hflusher
  have hdone := Main.ne_done_of_idle hidle
  have hnumbered : Numbered OutputEvent.sequence w.submitted (w.sequence + 1) := h.numbered.advance ⟨w.event d, hfits.sent, rfl⟩
  have hfree : ∀ e ∈ w.submitted, e.sequence ≠ ((w.sequence + 1 : Nat) : Int) + 1 := by
    intro e he hs
    obtain ⟨-, hhigh⟩ := h.numbered.range e he
    omega
  have hcontent := h.counted hdone ⟨w.event d, hfits.sent, rfl, congrArg ChunkKind.event (hfits.batch hbatch).1⟩
  have hpending : (advanced w d).pending = [] := by simp [advanced, hbatch]
  refine ⟨hnumbered, h.acknowledged, fun e he hs => absurd hs (hfree e he), .of_idle hidle, trivial, fun _ hc => ?_,
    fun _ _ => ?_, h.spelled, ?_, h.failed⟩
  · obtain ⟨e, he, hs, -⟩ := hc
    exact absurd hs (hfree e he)
  · show text w.submitted ++ joined (advanced w d).pending ++ w.main.rest = w.yielded
    rw [hpending]
    simpa [joined] using hcontent
  · show ∀ f ∈ (advanced w d).pending, f ≠ ""
    simp [hpending]

theorem Coherent.flusher_fails (h : Coherent w) {d : Delivery} (hflusher : w.flusher = .sending d) :
    Coherent { w with
      flusher := .done
      lock := none
      failed := true
      cancelled := true } := by
  obtain ⟨-, -, -, hidle⟩ := h.flushing hflusher
  exact h.recast (.of_idle hidle) trivial (fun _ _ => .ended (.inl rfl) rfl) (.inr ⟨Main.ne_done_of_idle hidle, rfl⟩)
    fun _ => .inl rfl

theorem Coherent.answerFlusher (h : Coherent w) (outcome : Outcome) : Coherent (answerFlusher w outcome) := by
  cases hflusher : w.flusher with
  | sending d =>
      simp only [Scribe.answerFlusher, hflusher]
      split
      · exact h
      · cases outcome with
        | accepted =>
            show Coherent (if w.event d ∈ w.acknowledged then _ else _)
            split
            · exact h.flusher_advances hflusher
            · exact h
        | refused => exact h.flusher_fails hflusher
        | unavailable =>
            show Coherent (if exhausted d.attempt .unavailable = true then _ else _)
            split
            · exact h.flusher_fails hflusher
            · exact h.flusher_retries hflusher rfl rfl rfl
  | sleeping | waiting | done => simpa only [Scribe.answerFlusher, hflusher] using h

theorem Coherent.resumeMain (h : Coherent w) : Coherent (resumeMain w) := by
  have hproper := h.main
  cases hmain : w.main with
  | starting attempt paused =>
      rw [hmain] at hproper
      simp only [Scribe.resumeMain, hmain]
      cases paused with
      | true =>
          exact h.moves (m := .starting (attempt + 1) false) hproper (by simp [hmain, Main.rest]) (by simp [hmain])
            (by simp [hmain]) (by simp [hmain])
      | false => exact h
  | sending d rest =>
      rw [hmain] at hproper
      simp only [Scribe.resumeMain, hmain]
      split
      · have hagain := h.again hproper.2.1.sent
        exact hagain.retries hmain rfl rfl rfl
      · exact h
  | failing attempt paused =>
      rw [hmain] at hproper
      simp only [Scribe.resumeMain, hmain]
      cases paused with
      | true => exact (h.again hproper.2).reports hmain
      | false => exact h
  | reading | waiting | done => simpa only [Scribe.resumeMain, hmain] using h

theorem Coherent.resumeFlusher (h : Coherent w) : Coherent (resumeFlusher w) := by
  have hproper := h.flusher
  cases hflusher : w.flusher with
  | sending d =>
      rw [hflusher] at hproper
      simp only [Scribe.resumeFlusher, hflusher]
      split
      · have hagain := h.again hproper.2.1.sent
        exact hagain.flusher_retries hflusher rfl rfl rfl
      · exact h
  | sleeping | waiting | done => simpa only [Scribe.resumeFlusher, hflusher] using h

/-- While the flusher has the free lock before it, nothing is under way. -/
theorem Coherent.unlocked (h : Coherent w) (hlock : w.lock = none) (hwaiting : w.flusher = .waiting) (hpending : w.pending ≠ []) :
    w.main = .reading ∨ ∃ chunk, w.main = .waiting chunk := by
  have hmain := h.main
  cases hm : w.main with
  | sending d rest => exact absurd hm (h.main_idle (by simp [hlock]) d rest)
  | done =>
      rw [hm] at hmain
      simp [hwaiting, Main.Proper] at hmain
  | starting =>
      rw [hm] at hmain
      exact absurd hmain hpending
  | failing =>
      rw [hm] at hmain
      exact absurd hmain.1 hpending
  | reading => exact .inl rfl
  | waiting chunk => exact .inr ⟨chunk, rfl⟩

theorem Coherent.flushes (h : Coherent w) (hlock : w.lock = none) (hwaiting : w.flusher = .waiting) (hpending : w.pending ≠ []) :
    Coherent { w.submit (w.event (batch w)) with
      flusher := .sending (batch w)
      lock := some .flusher } := by
  have hidle := h.unlocked hlock hwaiting hpending
  have hfree : ∀ e ∈ w.submitted, e.sequence ≠ w.sequence + 1 := by
    intro e he hs
    refine Carried.free (fun d rest => h.main_idle (by simp [hlock]) d rest) (fun a p hm => ?_) (by simp [hwaiting])
      (by simp [hwaiting]) (h.carried e he hs)
    rcases hidle with hi | ⟨chunk, hi⟩ <;> simp [hi] at hm
  have hmem : w.event (batch w) ∈ w.submitted ++ [w.event (batch w)] :=
    List.mem_append_right _ (List.mem_singleton.mpr rfl)
  have htext : text (w.submitted ++ [w.event (batch w)]) = text w.submitted ++ joined w.pending := by
    rw [text_fresh hfree]
    simp [written, Background.event, ChunkKind.event, batch, joined]
  have hcontent : text (w.submitted ++ [w.event (batch w)]) ++ w.main.rest = w.yielded := by
    rw [htext]
    exact h.uncounted (Main.ne_done_of_idle hidle) fun ⟨e, he, hs, _⟩ => hfree e he hs
  refine ⟨h.numbered.append rfl fun a ha hs => absurd hs (hfree a ha), fun e he => ?_, fun e he hs => ?_, .of_idle hidle,
    ⟨rfl, ⟨fun _ => ⟨rfl, rfl, hpending⟩, fun hb => ?_, hmem⟩, rfl⟩, fun _ _ => hcontent, fun _ hc => ?_,
    ⟨w.main.rest, hcontent⟩, h.solid, h.failed⟩
  · exact List.mem_append_left _ (h.acknowledged e he)
  · refine .flusher (batch w) rfl ?_
    rcases List.mem_append.mp he with he | he
    · exact absurd hs (hfree e he)
    · exact List.mem_singleton.mp he
  · cases hb
  · exact absurd ⟨w.event (batch w), hmem, rfl, rfl⟩ hc

theorem Coherent.turns (h : Coherent w) (hsending : ∀ d, w.flusher ≠ .sending d) (hdone : w.flusher ≠ .done) {f : Flusher}
    (hf : f = .sleeping ∨ f = .waiting) : Coherent { w with flusher := f } := by
  have hproper : f.Proper { w with flusher := f } := by rcases hf with rfl | rfl <;> trivial
  have hmain := h.main
  refine h.recast ?_ hproper (fun e he => ?_) ?_ h.failed
  · cases hm : w.main with
    | sending d rest =>
        rw [hm] at hmain
        exact ⟨hmain.1, ⟨hmain.2.1.batch, hmain.2.1.single, hmain.2.1.sent⟩, hmain.2.2⟩
    | done =>
        rw [hm] at hmain
        exact absurd hmain hdone
    | starting | reading | waiting | failing =>
        rw [hm] at hmain
        exact hmain
  · rcases he with ⟨d, rest, hm, he⟩ | ⟨d, hf, he⟩ | ⟨a, p, hm, he⟩ | ⟨hm, hf⟩
    · exact .main d rest hm he
    · exact absurd hf (hsending d)
    · exact .failing a p hm he
    · exact absurd hf hdone
  · by_cases hm : w.main = .done
    · exact .inl hm
    · exact .inr ⟨hm, rfl⟩

theorem Coherent.lockFlusher (h : Coherent w) (hlock : w.lock = none) : Coherent (lockFlusher w) := by
  cases hflusher : w.flusher with
  | waiting =>
      simp only [Scribe.lockFlusher, hflusher]
      by_cases hpending : w.pending = []
      · rw [if_neg (not_not.mpr hpending)]
        exact h.turns (by simp [hflusher]) (by simp [hflusher]) (.inl rfl)
      · rw [if_pos hpending]
        exact h.flushes hlock hflusher hpending
  | sleeping | sending | done => simpa [Scribe.lockFlusher, hflusher] using h

theorem Coherent.yields (h : Coherent w) (hreading : w.main = .reading) (chunk : Chunk) : Coherent { w with
    main := .waiting chunk
    yielded := if chunk.kind = .content then w.yielded ++ chunk.content.toList else w.yielded } := by
  have hyielded : (if chunk.kind = .content then w.yielded ++ chunk.content.toList else w.yielded) = w.yielded ++ chunk.chars := by
    rw [Chunk.chars]
    split <;> simp
  have hdone : w.main ≠ .done := by simp [hreading]
  have hrest : w.main.rest = [] := by simp [hreading, Main.rest]
  rw [hyielded]
  refine ⟨h.numbered, h.acknowledged, fun e he hs => ?_, trivial, ?_, fun _ hc => ?_, fun _ hc => ?_,
    h.spelled.trans (List.prefix_append _ _), h.solid, fun hf => ?_⟩
  · have hcarried := h.carried e he hs
    rcases hcarried with ⟨d, rest, hm, -⟩ | ⟨d, hf, he⟩ | ⟨a, p, hm, -⟩ | ⟨hm, hf⟩
    · simp [hreading] at hm
    · exact .flusher d hf he
    · simp [hreading] at hm
    · exact .ended (.inl (hm.resolve_right hdone)) hf
  · have hflusher := h.flusher
    show w.flusher.Proper _
    cases hf : w.flusher with
    | sending d =>
        rw [hf] at hflusher
        exact ⟨hflusher.1, ⟨hflusher.2.1.batch, hflusher.2.1.single, hflusher.2.1.sent⟩, hflusher.2.2⟩
    | sleeping | waiting | done => trivial
  · have hcontent := h.counted hdone hc
    rw [hrest, List.append_nil] at hcontent
    exact congrArg (· ++ chunk.chars) hcontent
  · have hcontent := h.uncounted hdone hc
    rw [hrest, List.append_nil] at hcontent
    exact congrArg (· ++ chunk.chars) hcontent
  · rcases h.failed hf with hc | ⟨a, p, hm⟩ | hm
    · exact .inl hc
    · simp [hreading] at hm
    · exact absurd hm hdone

/-- The same worker and a later state of the gateway. -/
theorem Coherent.serve (h : Coherent w) (store : Store) (gone : Bool) {acknowledged : List OutputEvent}
    (hacknowledged : ∀ e ∈ acknowledged, e ∈ w.submitted) : Coherent { w with
      store
      acknowledged
      gone } := by
  have hmain := h.main
  have hflusher := h.flusher
  refine ⟨h.numbered, hacknowledged, fun e he hs => ?_, ?_, ?_, h.counted, h.uncounted, h.spelled, h.solid, h.failed⟩
  · rcases h.carried e he hs with ⟨d, rest, hm, he⟩ | ⟨d, hf, he⟩ | ⟨a, p, hm, he⟩ | ⟨hm, hf⟩
    · exact .main d rest hm he
    · exact .flusher d hf he
    · exact .failing a p hm he
    · exact .ended hm hf
  · show w.main.Proper _
    cases hm : w.main with
    | sending d rest =>
        rw [hm] at hmain
        exact ⟨hmain.1, ⟨hmain.2.1.batch, hmain.2.1.single, hmain.2.1.sent⟩, hmain.2.2⟩
    | starting | reading | waiting | failing | done =>
        rw [hm] at hmain
        exact hmain
  · show w.flusher.Proper _
    cases hf : w.flusher with
    | sending d =>
        rw [hf] at hflusher
        exact ⟨hflusher.1, ⟨hflusher.2.1.batch, hflusher.2.1.single, hflusher.2.1.sent⟩, hflusher.2.2⟩
    | sleeping | waiting | done => trivial

theorem Coherent.cancels (h : Coherent w) : Coherent { w with cancelled := true } := by
  have hagrees : Agrees w { w with cancelled := true } := ⟨rfl, rfl, fun _ he => he⟩
  have hmain := h.main
  refine h.recast ?_ (hagrees.flusher rfl h.flusher) (fun e he => ?_) ?_ fun _ => .inl rfl
  · cases hm : w.main with
    | sending d rest =>
        rw [hm] at hmain
        exact ⟨hmain.1, ⟨hmain.2.1.batch, hmain.2.1.single, hmain.2.1.sent⟩, hmain.2.2⟩
    | starting | reading | waiting | failing | done =>
        rw [hm] at hmain
        exact hmain
  · rcases he with ⟨d, rest, hm, he⟩ | ⟨d, hf, he⟩ | ⟨a, p, hm, he⟩ | ⟨-, hf⟩
    · exact .main d rest hm he
    · exact .flusher d hf he
    · exact .failing a p hm he
    · exact .ended (.inl rfl) hf
  · by_cases hm : w.main = .done
    · exact .inl hm
    · exact .inr ⟨hm, rfl⟩

variable {env : Engine} {temporary : Bool} {id : String}

theorem coherent_start (store : Store) : Coherent (.start store) := by
  have htext : text [] = [] := rfl
  refine ⟨.start, fun e he => ?_, fun e he => ?_, rfl, trivial, fun _ _ => rfl, fun _ _ => rfl, ⟨[], rfl⟩, fun f hf => ?_,
    fun hf => ?_⟩
  · cases he
  · cases he
  · cases hf
  · cases hf

/-- Every step keeps the log of the worker in order when no failure is reported
while output is under way. -/
theorem Coherent.step (h : Coherent w) (s : BackgroundStep) (hcondition : w.fails s = true → w.Undisturbed) :
    Coherent (w.step env temporary id s) := by
  cases s with
  | yields chunk =>
      rw [Background.step]
      split
      · next hreading =>
          split
          · exact h
          · exact h.yields hreading chunk
      · exact h
  | raises =>
      rw [Background.step]
      split
      · next hreading =>
          split
          · exact h
          · next hc =>
              have hc : w.cancelled = false := by simpa using hc
              have hu := hcondition (by simp [Background.fails, hreading, hc])
              exact h.fails w.failed hu hc (by simp [hreading]) (by simp [hreading]) (by simp [hreading])
      · exact h
  | ends =>
      rw [Background.step]
      split
      · split
        · exact h
        · exact h.stopped
      · exact h
  | locks party =>
      cases party with
      | main =>
          rw [Background.step]
          split
          · next chunk hmain =>
              split
              · exact h
              · next hc =>
                  split
                  · next hlock => exact (h.locks hmain hlock (by simpa using hc)).carryOn
                  · exact h
          · exact h
      | flusher =>
          rw [Background.step]
          split
          · next hlock => exact h.lockFlusher hlock
          · exact h
  | answers party outcome =>
      cases party with
      | main =>
          rw [Background.step]
          split
          · exact h
          · next hc =>
              have hc : w.cancelled = false := by simpa using hc
              exact h.answerMain outcome hc fun hx => hcondition (by simp [Background.fails, hc, hx])
      | flusher => exact h.answerFlusher outcome
  | resumes party =>
      cases party with
      | main =>
          rw [Background.step]
          split
          · exact h
          · exact h.resumeMain
      | flusher => exact h.resumeFlusher
  | wakes =>
      rw [Background.step]
      split
      · next hf => exact h.turns (by simp [hf]) (by simp [hf]) (.inr rfl)
      · exact h
  | cancels => exact h.cancels
  | stops =>
      rw [Background.step]
      split
      · exact h.stopped
      · exact h
  | receives now messageId event =>
      rw [Background.step, received]
      split
      · next hmem =>
          split
          · refine h.serve _ _ fun e he => ?_
            rcases List.mem_cons.mp he with rfl | he
            · exact hmem
            · exact h.acknowledged e he
          · exact h
      · exact h
  | others request =>
      rw [Background.step, served]
      split
      · exact h.serve _ _ h.acknowledged
      · exact h

end Steps

section Progress

variable {w : Background}

inductive Sends (w : Background) (event : OutputEvent) : Prop
  | main (d : Delivery) (rest : List Work) (hmain : w.main = .sending d rest) (h : event = w.event d)
  | flusher (d : Delivery) (hflusher : w.flusher = .sending d) (h : event = w.event d)
  | failing (attempt : Nat) (paused : Bool) (hmain : w.main = .failing attempt paused) (h : event = failedEvent w)

/-- At most one event is sent, and the gateway has nothing to do with it yet. -/
structure Sent (w w' : Background) : Prop where
  store : w'.store = w.store
  acknowledged : w'.acknowledged = w.acknowledged
  gone : w'.gone = w.gone
  sequence : w'.sequence = w.sequence
  submitted : w'.submitted = w.submitted ∨ ∃ e, w'.submitted = w.submitted ++ [e] ∧ Sends w' e

/-- A step of the worker. The cursor moves over an acknowledged event. -/
structure Progress (w w' : Background) : Prop where
  store : w'.store = w.store
  acknowledged : w'.acknowledged = w.acknowledged
  gone : w'.gone = w.gone
  sequence : w'.sequence = w.sequence ∨
    (w'.sequence = w.sequence + 1 ∧ ∃ e ∈ w.acknowledged, e.sequence = w.sequence + 1)
  submitted : w'.submitted = w.submitted ∨ ∃ e, w'.submitted = w.submitted ++ [e] ∧ Sends w' e

theorem Progress.refl (w : Background) : Progress w w := ⟨rfl, rfl, rfl, .inl rfl, .inl rfl⟩

theorem Sent.progress {w' : Background} (h : Sent w w') : Progress w w' :=
  ⟨h.store, h.acknowledged, h.gone, .inl h.sequence, h.submitted⟩

theorem Sent.advanced {w' : Background} {d : Delivery} (h : Sent (advanced w d) w') (hd : w.event d ∈ w.acknowledged) :
    Progress w w' :=
  ⟨h.store, h.acknowledged, h.gone, .inr ⟨h.sequence, w.event d, hd, rfl⟩, h.submitted⟩

theorem send_sent (d : Delivery) (rest : List Work) : Sent w (send w d rest) :=
  ⟨rfl, rfl, rfl, rfl, .inr ⟨w.event d, rfl, .main d rest rfl rfl⟩⟩

theorem carryOn_sent (w : Background) (works : List Work) : Sent w (carryOn w works) := by
  fun_induction carryOn w works with
  | case1 => exact ⟨rfl, rfl, rfl, rfl, .inl rfl⟩
  | case2 | case5 | case7 | case9 => exact send_sent _ _
  | case3 w fragment rest hfull ih => exact ih
  | case4 w fragment rest ih => exact ⟨ih.store, ih.acknowledged, ih.gone, ih.sequence, ih.submitted⟩
  | case6 w rest hfull ih => exact ih
  | case8 w rest hpending ih => exact ih

theorem fail_sent (failed : Bool) : Sent w (fail { w with failed }) :=
  ⟨rfl, rfl, rfl, rfl, .inr ⟨failedEvent w, rfl, .failing 0 false rfl rfl⟩⟩

theorem answerMain_progress (outcome : Outcome) : Progress w (answerMain w outcome) := by
  unfold answerMain
  split
  · exact ⟨rfl, rfl, rfl, .inl rfl, .inl rfl⟩
  · split
    · exact (fail_sent true).progress
    · exact ⟨rfl, rfl, rfl, .inl rfl, .inl rfl⟩
  · next d rest _ =>
      split
      · exact .refl w
      · split
        · split
          · next hd =>
              have hsent := carryOn_sent (advanced w d) rest
              exact hsent.advanced hd
          · exact .refl w
        · split
          · exact (fail_sent true).progress
          · exact ⟨rfl, rfl, rfl, .inl rfl, .inl rfl⟩
  · exact ⟨rfl, rfl, rfl, .inl rfl, .inl rfl⟩
  · split <;> exact ⟨rfl, rfl, rfl, .inl rfl, .inl rfl⟩
  · exact .refl w

theorem answerFlusher_progress (outcome : Outcome) : Progress w (answerFlusher w outcome) := by
  unfold answerFlusher
  split
  · next d _ =>
      split
      · exact .refl w
      · split
        · split
          · next hd => exact ⟨rfl, rfl, rfl, .inr ⟨rfl, w.event d, hd, rfl⟩, .inl rfl⟩
          · exact .refl w
        · split <;> exact ⟨rfl, rfl, rfl, .inl rfl, .inl rfl⟩
  · exact .refl w

theorem resumeMain_progress : Progress w (resumeMain w) := by
  unfold resumeMain
  split
  · exact ⟨rfl, rfl, rfl, .inl rfl, .inl rfl⟩
  · next d rest _ =>
      split
      · exact ⟨rfl, rfl, rfl, .inl rfl, .inr ⟨w.event d, rfl, .main (again d) rest rfl rfl⟩⟩
      · exact .refl w
  · next attempt _ => exact ⟨rfl, rfl, rfl, .inl rfl, .inr ⟨failedEvent w, rfl, .failing (attempt + 1) false rfl rfl⟩⟩
  · exact .refl w

theorem resumeFlusher_progress : Progress w (resumeFlusher w) := by
  unfold resumeFlusher
  split
  · next d _ =>
      split
      · exact ⟨rfl, rfl, rfl, .inl rfl, .inr ⟨w.event d, rfl, .flusher (again d) rfl rfl⟩⟩
      · exact .refl w
  · exact .refl w

theorem lockFlusher_progress : Progress w (lockFlusher w) := by
  unfold lockFlusher
  split
  · split
    · exact ⟨rfl, rfl, rfl, .inl rfl, .inr ⟨w.event (batch w), rfl, .flusher (batch w) rfl rfl⟩⟩
    · exact ⟨rfl, rfl, rfl, .inl rfl, .inl rfl⟩
  · exact .refl w

variable {env : Engine} {temporary : Bool} {id : String}

def BackgroundStep.ofWorker : BackgroundStep → Bool
  | .receives _ _ _ | .others _ => false
  | _ => true

theorem step_progress {s : BackgroundStep} (hs : s.ofWorker = true) : Progress w (w.step env temporary id s) := by
  cases s with
  | yields | raises | ends =>
      rw [Background.step]
      split
      · split
        · exact .refl w
        · first
            | exact (fail_sent w.failed).progress
            | exact ⟨rfl, rfl, rfl, .inl rfl, .inl rfl⟩
      · exact .refl w
  | locks party =>
      cases party with
      | main =>
          rw [Background.step]
          split
          · next chunk _ =>
              split
              · exact .refl w
              · split
                · have hsent := carryOn_sent { w with lock := some .main } chunk.work
                  exact ⟨hsent.store, hsent.acknowledged, hsent.gone, .inl hsent.sequence, hsent.submitted⟩
                · exact .refl w
          · exact .refl w
      | flusher =>
          rw [Background.step]
          split
          · exact lockFlusher_progress
          · exact .refl w
  | answers party outcome =>
      cases party with
      | main =>
          rw [Background.step]
          split
          · exact .refl w
          · exact answerMain_progress outcome
      | flusher => exact answerFlusher_progress outcome
  | resumes party =>
      cases party with
      | main =>
          rw [Background.step]
          split
          · exact .refl w
          · exact resumeMain_progress
      | flusher => exact resumeFlusher_progress
  | wakes =>
      rw [Background.step]
      split
      · exact ⟨rfl, rfl, rfl, .inl rfl, .inl rfl⟩
      · exact .refl w
  | cancels => exact ⟨rfl, rfl, rfl, .inl rfl, .inl rfl⟩
  | stops =>
      rw [Background.step]
      split
      · exact ⟨rfl, rfl, rfl, .inl rfl, .inl rfl⟩
      · exact .refl w
  | receives | others => cases hs

/-- Under a terminal event everything has been sent. -/
theorem Coherent.complete (h : Coherent w) {e : OutputEvent} (hsends : Sends w e) (hterminal : e.kind.outcome.isSome = true) :
    text w.submitted = w.yielded := by
  have hall : w.main ≠ .done → w.pending = [] → w.main.rest = [] → text w.submitted = w.yielded := by
    intro hdone hpending hrest
    by_cases hc : Counted w
    · simpa [hrest] using h.counted hdone hc
    · simpa [hrest, hpending, joined] using h.uncounted hdone hc
  have hmain := h.main
  rcases hsends with ⟨d, rest, hm, rfl⟩ | ⟨d, hf, rfl⟩ | ⟨a, p, hm, rfl⟩
  · rw [hm] at hmain
    obtain ⟨-, hfits, -, hsingle⟩ := hmain
    cases hb : d.batch with
    | true =>
        have hkind : (w.event d).kind = .content := congrArg ChunkKind.event (hfits.batch hb).1
        simp [hkind, EventKind.outcome] at hterminal
    | false => exact hall (by simp [hm]) (hfits.single hb).2 (by simp [hm, Main.rest, hsingle hb, pushed])
  · obtain ⟨-, hfits, hb, -⟩ := h.flushing hf
    have hkind : (w.event d).kind = .content := congrArg ChunkKind.event (hfits.batch hb).1
    simp [hkind, EventKind.outcome] at hterminal
  · rw [hm] at hmain
    exact hall (by simp [hm]) hmain.1 (by simp [hm, Main.rest])

end Progress

end Galadril.Scribe
