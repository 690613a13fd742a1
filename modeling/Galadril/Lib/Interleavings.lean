import Mathlib.Logic.Function.Basic
import Galadril.Lib.Replays

namespace Galadril.Lib.Interleavings

open Checked Revisions Programs Replays

variable {ι σ ε α β κ : Type}

/-- Programs that hold the given revision as the head. They read pinned
revisions only, and their one commit expects that revision and settles the
answer. -/
def Guarded (i : ι) : Prog ι σ ε α → Prop
  | .done (.ok _) => False
  | .done (.error _) => True
  | .prepare next => Guarded i next
  | .load none _ => False
  | .load (some _) next => ∀ snap, Guarded i (next snap)
  | .commit expected _ _ _ next => expected = i ∧ ∀ r, ∃ a, next r = .done (.ok a)

/-- Programs that read the head at most once and commit only against it. The
answers that they give without a commit have the given property. -/
def Optimistic (quiet : α → Prop) : Prog ι σ ε α → Prop
  | .done (.ok a) => quiet a
  | .done (.error _) => True
  | .prepare next => Optimistic quiet next
  | .load none next => ∀ snap, Guarded snap.revisionId (next snap)
  | .load (some _) next => ∀ snap, Optimistic quiet (next snap)
  | .commit _ _ _ _ _ => False

variable {i : ι} {p : Prog ι σ ε α} {f : α → Prog ι σ ε β} {quiet : α → Prop} {quiet' : β → Prop}

theorem Optimistic.bind (h : Pinned p) (hf : ∀ a, Optimistic quiet' (f a)) : Optimistic quiet' (p >>= f) := by
  change Optimistic quiet' (Prog.bind p f)
  induction p with
  | done x =>
      cases x with
      | ok a => exact hf a
      | error e => trivial
  | prepare next ih => exact ih h
  | load pin next ih =>
      cases pin with
      | none => exact h.elim
      | some r => exact fun snap => ih snap (h snap)
  | commit expected state author message next ih => exact h.elim

theorem Guarded.bind (h : Pinned p) (hf : ∀ a, Guarded i (f a)) : Guarded i (p >>= f) := by
  change Guarded i (Prog.bind p f)
  induction p with
  | done x =>
      cases x with
      | ok a => exact hf a
      | error e => trivial
  | prepare next ih => exact ih h
  | load pin next ih =>
      cases pin with
      | none => exact h.elim
      | some r => exact fun snap => ih snap (h snap)
  | commit expected state author message next ih => exact h.elim

/-- A check passes on what it found out. -/
theorem Guarded.lift_bind {x : Except ε α} (hf : ∀ a, x = .ok a → Guarded i (f a)) :
    Guarded i (Prog.lift x >>= f) := by
  cases x with
  | ok a => exact hf a rfl
  | error e => trivial

theorem optimistic_head_bind {f : Snapshot ι σ → Prog ι σ ε β} (hf : ∀ snap, Guarded snap.revisionId (f snap)) :
    Optimistic quiet' (Prog.head >>= f) := hf

theorem guarded_commits_bind {f : ι → Prog ι σ ε β} (hf : ∀ r, ∃ b, f r = pure b) {state : σ}
    {author message : String} : Guarded i (Prog.commits i state author message >>= f) := ⟨rfl, hf⟩

/-- Rewording the answer keeps the requests. -/
theorem Guarded.map (h : Guarded i p) (g : α → β) : Guarded i (p >>= fun a => pure (g a)) := by
  change Guarded i (Prog.bind p _)
  induction p with
  | done x =>
      cases x with
      | ok a => exact h.elim
      | error e => trivial
  | prepare next ih => exact ih h
  | load pin next ih =>
      cases pin with
      | none => exact h.elim
      | some r => exact fun snap => ih snap (h snap)
  | commit expected state author message next ih =>
      obtain ⟨hexpected, hnext⟩ := h
      refine ⟨hexpected, fun r => ?_⟩
      obtain ⟨a, ha⟩ := hnext r
      exact ⟨g a, congrArg (fun x => Prog.bind x fun a => pure (g a)) ha⟩

theorem Optimistic.map (h : Optimistic quiet p) {g : α → β} (hg : ∀ a, quiet a → quiet' (g a)) :
    Optimistic quiet' (p >>= fun a => pure (g a)) := by
  change Optimistic quiet' (Prog.bind p _)
  induction p with
  | done x =>
      cases x with
      | ok a => exact hg a h
      | error e => trivial
  | prepare next ih => exact ih h
  | load pin next ih =>
      cases pin with
      | none => exact fun snap => (h snap).map g
      | some r => exact fun snap => ih snap (h snap)
  | commit expected state author message next ih => exact h.elim

section Requests

variable [DecidableEq ι] (B : Backend ι ε) (fresh : ι)

def advance : Prog ι σ ε α → Store ι σ → Prog ι σ ε α × Store ι σ
  | .done result, s => (.done result, s)
  | .prepare next, s => (next, s)
  | .load none next, s => (next s.head, s)
  | .load (some r) next, s =>
      match s.find r with
      | some snap => (next snap, s)
      | none => (.done (.error B.missing), s)
  | .commit expected state _ _ next, s =>
      if h : (s.head.revisionId = expected ∧ B.admissible fresh = true) ∧ fresh ∉ s.ids then
        (next fresh, s.push fresh state h.2)
      else (.done (.error B.stale), s)

variable {B fresh} {quiet : α → Prop} {p q : Prog ι σ ε α} {s t : Store ι σ}

/-- How far a client that did not commit has come: what is left of its program
answers as the whole program would, in every store that it can still meet. -/
inductive Stage (B : Backend ι ε) (fresh : ι) (quiet : α → Prop) (p q : Prog ι σ ε α) (s : Store ι σ) : Prop
  | reading (shape : Optimistic quiet q) (agrees : ∀ t, s.Extends t → p.run B fresh t = q.run B fresh t)
  | guarded (snap : Snapshot ι σ) (held : snap ∈ s.all) (shape : Guarded snap.revisionId q)
      (agrees : ∀ t, s.Extends t → t.head = snap → p.run B fresh t = q.run B fresh t)
  | refused (e : ε) (failed : q = .done (.error e))

theorem Stage.start (h : Optimistic quiet p) : Stage B fresh quiet p p s := .reading h fun _ _ => rfl

theorem Stage.mono (h : Stage B fresh quiet p q s) (hst : s.Extends t) : Stage B fresh quiet p q t := by
  cases h with
  | reading shape agrees => exact .reading shape fun u hu => agrees u (hst.trans hu)
  | guarded snap held shape agrees =>
      exact .guarded snap (hst snap held) shape fun u hu hhead => agrees u (hst.trans hu) hhead
  | refused e failed => exact .refused e failed

theorem Stage.answer {a : α} (h : Stage B fresh quiet p (.done (.ok a)) s) :
    p.run B fresh s = (.ok a, s) ∧ quiet a := by
  cases h with
  | reading shape agrees => exact ⟨agrees s (.refl s), shape⟩
  | guarded snap held shape agrees => exact shape.elim
  | refused e failed => cases failed

theorem advance_pinned (r : ι) (next : Snapshot ι σ → Prog ι σ ε α) :
    (∃ snap, s.find r = some snap ∧ advance B fresh (.load (some r) next) s = (next snap, s)) ∨
      advance B fresh (.load (some r) next) s = (.done (.error B.missing), s) := by
  rw [advance]
  cases s.find r with
  | some snap => exact .inl ⟨snap, rfl, rfl⟩
  | none => exact .inr rfl

theorem run_pinned_found {r : ι} {next : Snapshot ι σ → Prog ι σ ε α} {snap : Snapshot ι σ} (hf : s.find r = some snap)
    (hst : s.Extends t) : Prog.run B fresh (.load (some r) next) t = (next snap).run B fresh t := by
  rw [Prog.run, hst.find hf]

/-- A commit passes only in the store whose head it was computed from. -/
theorem Stage.commit {snap : Snapshot ι σ} {state : σ} {author message : String} {next : ι → Prog ι σ ε α}
    (held : snap ∈ s.all) (settles : ∀ r, ∃ a, next r = .done (.ok a))
    (agrees : s.head = snap →
      p.run B fresh s = (Prog.commit snap.revisionId state author message next).run B fresh s) :
    advance B fresh (.commit snap.revisionId state author message next) s = (.done (.error B.stale), s) ∨
      ∃ a, (advance B fresh (.commit snap.revisionId state author message next) s).1 = .done (.ok a) ∧
        Writes B fresh p s (.ok a) (advance B fresh (.commit snap.revisionId state author message next) s).2 := by
  by_cases h : s.head.revisionId = snap.revisionId ∧ B.admissible fresh = true ∧ fresh ∉ s.ids
  · obtain ⟨a, ha⟩ := settles fresh
    have hadvance : advance B fresh (.commit snap.revisionId state author message next) s =
        (.done (.ok a), s.push fresh state h.2.2) := by
      rw [advance, dif_pos (and_assoc.mpr h), ha]
    rw [hadvance]
    refine .inr ⟨a, rfl, ?_, s.push_ne fresh state h.2.2⟩
    rw [agrees (Store.eq_head held h.1.symm).symm, Prog.run, dif_pos h, ha]
    rfl
  · refine .inl ?_
    rw [advance, dif_neg (mt and_assoc.mp h)]

/-- A request of an undecided client reads, or it is the commit at which its
whole program takes effect. -/
theorem Stage.advance (h : Stage B fresh quiet p q s) :
    (advance B fresh q s).2 = s ∧ Stage B fresh quiet p (advance B fresh q s).1 s ∨
      ∃ a, (advance B fresh q s).1 = .done (.ok a) ∧
        Writes B fresh p s (.ok a) (advance B fresh q s).2 := by
  cases h with
  | reading shape agrees =>
      refine .inl ?_
      cases q with
      | done result => exact ⟨rfl, .reading shape agrees⟩
      | prepare next => exact ⟨rfl, .reading shape agrees⟩
      | load pin next =>
          cases pin with
          | none =>
              refine ⟨rfl, .guarded s.head List.mem_cons_self (shape s.head) fun t ht hhead => ?_⟩
              rw [agrees t ht, Prog.run, hhead]
              rfl
          | some r =>
              rcases (advance_pinned r next : _ ∨ advance B fresh _ s = _) with ⟨snap, hf, hq⟩ | hq
              · rw [hq]
                exact ⟨rfl, .reading (shape snap) fun t ht => (agrees t ht).trans (run_pinned_found hf ht)⟩
              · rw [hq]
                exact ⟨rfl, .refused B.missing rfl⟩
      | commit expected state author message next => exact shape.elim
  | guarded snap held shape agrees =>
      cases q with
      | done result => exact .inl ⟨rfl, .guarded snap held shape agrees⟩
      | prepare next => exact .inl ⟨rfl, .guarded snap held shape agrees⟩
      | load pin next =>
          cases pin with
          | none => exact shape.elim
          | some r =>
              refine .inl ?_
              rcases (advance_pinned r next : _ ∨ advance B fresh _ s = _) with ⟨found, hf, hq⟩ | hq
              · rw [hq]
                exact ⟨rfl, .guarded snap held (shape found) fun t ht hhead =>
                  (agrees t ht hhead).trans (run_pinned_found hf ht)⟩
              · rw [hq]
                exact ⟨rfl, .refused B.missing rfl⟩
      | commit expected state author message next =>
          obtain ⟨rfl, settles⟩ := shape
          rcases Stage.commit held settles (agrees s (.refl s)) with hq | hq
          · rw [hq]
            exact .inl ⟨rfl, .refused B.stale rfl⟩
          · exact .inr hq
  | refused e failed =>
      subst failed
      exact .inl ⟨rfl, .refused e rfl⟩

end Requests

section Sessions

variable [DecidableEq ι] [DecidableEq κ]

structure Session (κ ι σ ε α : Type) where
  pending : κ → Prog ι σ ε α
  store : Store ι σ

variable (B : Backend ι ε) (quiet : α → Prop) (program : κ → Prog ι σ ε α) (fresh : κ → ι) (genesis : Store ι σ)

def Session.turn (w : Session κ ι σ ε α) (c : κ) : Session κ ι σ ε α :=
  ⟨Function.update w.pending c (advance B (fresh c) (w.pending c) w.store).1,
    (advance B (fresh c) (w.pending c) w.store).2⟩

/-- The session after the requests of the given clients, the latest first. -/
def interleave : List κ → Session κ ι σ ε α
  | [] => ⟨program, genesis⟩
  | c :: earlier => (interleave earlier).turn B fresh c

def serial (order : List κ) : Store ι σ := replay B (fun c => program c >>= fun _ => pure ()) fresh genesis order

/-- A session in which every client that committed did so in one undisturbed
execution of its whole program, in the order of the commits. -/
structure Linearized (order : List κ) (w : Session κ ι σ ε α) : Prop where
  once : order.Nodup
  store : w.store = serial B program fresh genesis order
  committed : ∀ later c earlier, order = later ++ c :: earlier →
    ∃ a, Writes B (fresh c) (program c) (serial B program fresh genesis earlier) (.ok a)
      (serial B program fresh genesis (c :: earlier)) ∧ w.pending c = .done (.ok a)
  undecided : ∀ c ∉ order, Stage B (fresh c) quiet (program c) (w.pending c) w.store

variable {B quiet program fresh genesis} {order : List κ} {w : Session κ ι σ ε α} {c : κ}

@[simp] theorem turn_self : (w.turn B fresh c).pending c = (advance B (fresh c) (w.pending c) w.store).1 :=
  Function.update_self c _ _

theorem turn_of_ne {d : κ} (h : d ≠ c) : (w.turn B fresh c).pending d = w.pending d := Function.update_of_ne h _ _

@[simp] theorem turn_store : (w.turn B fresh c).store = (advance B (fresh c) (w.pending c) w.store).2 := rfl

omit [DecidableEq κ] in
theorem serial_cons (c : κ) (earlier : List κ) :
    serial B program fresh genesis (c :: earlier) =
      ((program c).run B (fresh c) (serial B program fresh genesis earlier)).2 := by
  rw [serial, replay, Prog.run_bind]
  change _ = (Prog.run B (fresh c) (program c) (replay B (fun c => program c >>= fun _ => pure ()) fresh genesis earlier)).2
  cases (program c).run B (fresh c) (replay B (fun c => program c >>= fun _ => pure ()) fresh genesis earlier) with
  | mk result t => cases result <;> rfl

omit [DecidableEq κ] in
theorem Linearized.start (h : ∀ c, Optimistic quiet (program c)) :
    Linearized B quiet program fresh genesis [] ⟨program, genesis⟩ where
  once := List.nodup_nil
  store := rfl
  committed later c earlier hsplit := by simp at hsplit
  undecided c _ := .start (h c)

/-- A client that committed has nothing left to ask. -/
theorem Linearized.turn_mem (h : Linearized B quiet program fresh genesis order w) (hc : c ∈ order) :
    w.turn B fresh c = w := by
  obtain ⟨later, earlier, hsplit⟩ := List.append_of_mem hc
  obtain ⟨a, -, hdone⟩ := h.committed later c earlier hsplit
  rw [Session.turn, hdone, advance, ← hdone, Function.update_eq_self]

/-- A request that leaves the store alone. -/
theorem Linearized.turn_reads (h : Linearized B quiet program fresh genesis order w) (hc : c ∉ order)
    (hstore : (advance B (fresh c) (w.pending c) w.store).2 = w.store)
    (hstage : Stage B (fresh c) quiet (program c) (advance B (fresh c) (w.pending c) w.store).1 w.store) :
    Linearized B quiet program fresh genesis order (w.turn B fresh c) where
  once := h.once
  store := hstore.trans h.store
  committed later d earlier hsplit := by
    obtain ⟨a, hwrites, hdone⟩ := h.committed later d earlier hsplit
    have hd : d ≠ c := by
      rintro rfl
      exact hc (hsplit ▸ List.mem_append_right later List.mem_cons_self)
    exact ⟨a, hwrites, (turn_of_ne hd).trans hdone⟩
  undecided d hd := by
    by_cases hdc : d = c
    · subst hdc
      rw [turn_self, turn_store, hstore]
      exact hstage
    · rw [turn_of_ne hdc, turn_store, hstore]
      exact h.undecided d hd

/-- A request that commits puts its client at the end of the order. -/
theorem Linearized.turn_commits (h : Linearized B quiet program fresh genesis order w) (hc : c ∉ order) {a : α}
    (hdone : (advance B (fresh c) (w.pending c) w.store).1 = .done (.ok a))
    (hwrites : Writes B (fresh c) (program c) w.store (.ok a) (advance B (fresh c) (w.pending c) w.store).2) :
    Linearized B quiet program fresh genesis (c :: order) (w.turn B fresh c) := by
  rw [h.store] at hwrites hdone
  have hserial : (advance B (fresh c) (w.pending c) (serial B program fresh genesis order)).2 =
      serial B program fresh genesis (c :: order) := by
    rw [serial_cons]
    exact (congrArg Prod.snd hwrites.1).symm
  rw [hserial] at hwrites
  refine ⟨List.nodup_cons.mpr ⟨hc, h.once⟩, ?_, fun later d earlier hsplit => ?_, fun d hd => ?_⟩
  · rw [turn_store, h.store]
    exact hserial
  · rcases List.cons_eq_append_iff.mp hsplit with ⟨-, hcons⟩ | ⟨later', -, hrest⟩
    · obtain ⟨rfl, rfl⟩ := List.cons.inj hcons
      refine ⟨a, hwrites, ?_⟩
      rw [turn_self, h.store]
      exact hdone
    · obtain ⟨b, hb, hpending⟩ := h.committed later' d earlier hrest
      have hd : d ≠ c := by
        rintro rfl
        exact hc (hrest ▸ List.mem_append_right later' List.mem_cons_self)
      exact ⟨b, hb, (turn_of_ne hd).trans hpending⟩
  · obtain ⟨hdc, hd⟩ := not_or.mp (fun hmem => hd (List.mem_cons.mpr hmem))
    rw [turn_of_ne hdc, turn_store, h.store, hserial]
    have hextends : (serial B program fresh genesis order).Extends (serial B program fresh genesis (c :: order)) :=
      run_extends B _ _ _
    exact (h.store ▸ h.undecided d hd).mono hextends

/-- One request keeps the explanation, perhaps with one client more. -/
theorem Linearized.turn (h : Linearized B quiet program fresh genesis order w) (c : κ) :
    Linearized B quiet program fresh genesis order (w.turn B fresh c) ∨
      Linearized B quiet program fresh genesis (c :: order) (w.turn B fresh c) := by
  by_cases hc : c ∈ order
  · rw [h.turn_mem hc]
    exact .inl h
  · rcases (h.undecided c hc).advance with ⟨hstore, hstage⟩ | ⟨a, hdone, hwrites⟩
    · exact .inl (h.turn_reads hc hstore hstage)
    · exact .inr (h.turn_commits hc hdone hwrites)

/-- Optimistic programs are linearizable: whatever the schedule of their
requests, the commits appear in one order of whole programs. -/
theorem exists_linearized (h : ∀ c, Optimistic quiet (program c)) (schedule : List κ) :
    ∃ order, order.Sublist schedule ∧
      Linearized B quiet program fresh genesis order (interleave B program fresh genesis schedule) := by
  induction schedule with
  | nil => exact ⟨[], .refl [], .start h⟩
  | cons c earlier ih =>
      obtain ⟨order, hsub, hlinearized⟩ := ih
      rcases hlinearized.turn c with hturn | hturn
      · exact ⟨order, hsub.cons c, hturn⟩
      · exact ⟨c :: order, hsub.cons_cons c, hturn⟩

omit [DecidableEq κ] in
/-- A client that was answered without a commit was answered from the present
store. -/
theorem Linearized.read (h : Linearized B quiet program fresh genesis order w) (hc : c ∉ order) {a : α}
    (hdone : w.pending c = .done (.ok a)) : (program c).run B (fresh c) w.store = (.ok a, w.store) ∧ quiet a :=
  Stage.answer (hdone ▸ h.undecided c hc)

omit [DecidableEq κ] in
/-- A refused client left nothing behind. -/
theorem Linearized.refused (h : Linearized B quiet program fresh genesis order w) {e : ε}
    (hdone : w.pending c = .done (.error e)) : c ∉ order := by
  intro hc
  obtain ⟨later, earlier, hsplit⟩ := List.append_of_mem hc
  obtain ⟨a, -, hok⟩ := h.committed later c earlier hsplit
  rw [hdone] at hok
  cases hok

end Sessions

end Galadril.Lib.Interleavings
