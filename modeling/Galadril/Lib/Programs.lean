import Galadril.Lib.Checked
import Galadril.Lib.Revisions

namespace Galadril.Lib.Programs

open Checked Revisions

variable {ι σ ε α β : Type}

/-- A program over the versioned storage boundary. Every request is explicit,
so that requests of several programs can be interleaved. -/
inductive Prog (ι σ ε α : Type)
  | done (result : Except ε α)
  | prepare (next : Prog ι σ ε α)
  | load (pin : Option ι) (next : Snapshot ι σ → Prog ι σ ε α)
  | commit (expected : ι) (state : σ) (author message : String) (next : ι → Prog ι σ ε α)

namespace Prog

def bind (p : Prog ι σ ε α) (f : α → Prog ι σ ε β) : Prog ι σ ε β :=
  match p with
  | .done (.ok a) => f a
  | .done (.error e) => .done (.error e)
  | .prepare next => .prepare (bind next f)
  | .load pin next => .load pin (fun snap => bind (next snap) f)
  | .commit expected state author message next =>
      .commit expected state author message (fun r => bind (next r) f)

instance : Monad (Prog ι σ ε) where
  pure a := .done (.ok a)
  bind := bind

instance : LawfulMonad (Prog ι σ ε) := LawfulMonad.mk' _
  (fun p => by
    change bind p (fun a => .done (.ok a)) = p
    induction p with
    | done x => cases x <;> rfl
    | prepare next ih => exact congrArg _ ih
    | load pin next ih => exact congrArg _ (funext ih)
    | commit expected state author message next ih => exact congrArg _ (funext ih))
  (fun _ _ => rfl)
  (fun p f g => by
    change bind (bind p f) g = bind p (fun a => bind (f a) g)
    induction p with
    | done x => cases x <;> rfl
    | prepare next ih => exact congrArg _ ih
    | load pin next ih => exact congrArg _ (funext ih)
    | commit expected state author message next ih => exact congrArg _ (funext ih))

/-- Results of pure computations enter a program without a storage request. -/
def lift (x : Except ε α) : Prog ι σ ε α := .done x

def head : Prog ι σ ε (Snapshot ι σ) := .load none (fun snap => .done (.ok snap))

def pinned (r : ι) : Prog ι σ ε (Snapshot ι σ) := .load (some r) (fun snap => .done (.ok snap))

def prepared : Prog ι σ ε Unit := .prepare (.done (.ok ()))

def commits (expected : ι) (state : σ) (author message : String) : Prog ι σ ε ι :=
  .commit expected state author message (fun r => .done (.ok r))

end Prog

/-- What the storage contract leaves open: which fresh identities it issues
and how it words its two rejections. -/
structure Backend (ι ε : Type) where
  admissible : ι → Bool
  missing : ε
  stale : ε

variable [DecidableEq ι] (B : Backend ι ε) (fresh : ι)

/-- One undisturbed execution. The commit is a compare-and-swap on the head
and appends the identity chosen by the store. -/
def Prog.run : Prog ι σ ε α → Store ι σ → Except ε α × Store ι σ
  | .done result, s => (result, s)
  | .prepare next, s => run next s
  | .load none next, s => run (next s.head) s
  | .load (some r) next, s =>
      match s.find r with
      | some snap => run (next snap) s
      | none => (.error B.missing, s)
  | .commit expected state _ _ next, s =>
      if h : s.head.revisionId = expected ∧ B.admissible fresh = true ∧ fresh ∉ s.ids then
        run (next fresh) (s.push fresh state h.2.2)
      else (.error B.stale, s)

namespace Prog

variable {B fresh}

@[simp] theorem run_pure (a : α) (s : Store ι σ) : run B fresh (pure a : Prog ι σ ε α) s = (.ok a, s) := rfl

@[simp] theorem run_done (x : Except ε α) (s : Store ι σ) : run B fresh (.done x) s = (x, s) := rfl

@[simp] theorem run_lift (x : Except ε α) (s : Store ι σ) : run B fresh (lift x) s = (x, s) := rfl

@[simp] theorem run_head (s : Store ι σ) : run B fresh (head : Prog ι σ ε _) s = (.ok s.head, s) := rfl

@[simp] theorem run_prepared (s : Store ι σ) : run B fresh (prepared : Prog ι σ ε _) s = (.ok (), s) := rfl

theorem run_pinned (r : ι) (s : Store ι σ) :
    run B fresh (pinned r : Prog ι σ ε _) s = (context (s.find r) B.missing, s) := by
  unfold pinned run
  cases s.find r <;> rfl

/-- Sequencing runs the continuation exactly when the first part succeeds. -/
theorem run_bind (p : Prog ι σ ε α) (f : α → Prog ι σ ε β) (s : Store ι σ) :
    run B fresh (p >>= f) s =
      match run B fresh p s with
      | (.ok a, t) => run B fresh (f a) t
      | (.error e, t) => (.error e, t) := by
  change run B fresh (Prog.bind p f) s = _
  induction p generalizing s with
  | done x => cases x <;> rfl
  | prepare next ih => exact ih s
  | load pin next ih =>
      cases pin with
      | none => exact ih s.head s
      | some r =>
          simp only [Prog.bind, run]
          cases s.find r with
          | none => rfl
          | some snap => exact ih snap s
  | commit expected state author message next ih =>
      simp only [Prog.bind, run]
      split
      · exact ih fresh _
      · rfl

end Prog

/-- The answer of a program that only reads. A commit is refused. -/
def Prog.query (B : Backend ι ε) : Prog ι σ ε α → Store ι σ → Except ε α
  | .done result, _ => result
  | .prepare next, s => query B next s
  | .load none next, s => query B (next s.head) s
  | .load (some r) next, s =>
      match s.find r with
      | some snap => query B (next snap) s
      | none => .error B.missing
  | .commit _ _ _ _ _, _ => .error B.stale

def ReadOnly : Prog ι σ ε α → Prop
  | .done _ => True
  | .prepare next => ReadOnly next
  | .load _ next => ∀ snap, ReadOnly (next snap)
  | .commit _ _ _ _ _ => False

/-- Programs that read explicit revisions only, so that no later commit can
change what they see. -/
def Pinned : Prog ι σ ε α → Prop
  | .done _ => True
  | .prepare next => Pinned next
  | .load none _ => False
  | .load (some _) next => ∀ snap, Pinned (next snap)
  | .commit _ _ _ _ _ => False

namespace Prog

variable {B fresh}

@[simp] theorem query_pure (a : α) (s : Store ι σ) : query B (pure a : Prog ι σ ε α) s = .ok a := rfl

@[simp] theorem query_lift (x : Except ε α) (s : Store ι σ) : query B (lift x) s = x := rfl

@[simp] theorem query_head (s : Store ι σ) : query B (head : Prog ι σ ε _) s = .ok s.head := rfl

@[simp] theorem query_prepared (s : Store ι σ) : query B (prepared : Prog ι σ ε _) s = .ok () := rfl

@[simp] theorem query_pinned (r : ι) (s : Store ι σ) :
    query B (pinned r : Prog ι σ ε _) s = context (s.find r) B.missing := by
  unfold pinned query
  cases s.find r <;> rfl

@[simp] theorem query_bind (p : Prog ι σ ε α) (f : α → Prog ι σ ε β) (s : Store ι σ) :
    query B (p >>= f) s = query B p s >>= fun a => query B (f a) s := by
  change query B (Prog.bind p f) s = _
  induction p with
  | done x => cases x <;> rfl
  | prepare next ih => exact ih
  | load pin next ih =>
      cases pin with
      | none => exact ih s.head
      | some r =>
          simp only [Prog.bind, query]
          cases s.find r with
          | none => rfl
          | some snap => exact ih snap
  | commit expected state author message next ih => rfl

@[simp] theorem query_map (f : α → β) (p : Prog ι σ ε α) (s : Store ι σ) :
    query B (f <$> p) s = query B p s >>= fun a => .ok (f a) := by
  rw [map_eq_pure_bind, query_bind]
  rfl

end Prog

section Classes

variable {B fresh} {p : Prog ι σ ε α} {f : α → Prog ι σ ε β}

omit [DecidableEq ι] in
@[simp] theorem pinned_lift (x : Except ε α) : Pinned (Prog.lift x : Prog ι σ ε α) := trivial

omit [DecidableEq ι] in
@[simp] theorem pinned_pure (a : α) : Pinned (pure a : Prog ι σ ε α) := trivial

omit [DecidableEq ι] in
@[simp] theorem pinned_prepared : Pinned (Prog.prepared : Prog ι σ ε Unit) := trivial

omit [DecidableEq ι] in
@[simp] theorem pinned_pinned (i : ι) : Pinned (Prog.pinned i : Prog ι σ ε _) := fun _ => trivial

omit [DecidableEq ι] in
@[simp] theorem readOnly_head : ReadOnly (Prog.head : Prog ι σ ε _) := fun _ => trivial

omit [DecidableEq ι] in
theorem Pinned.readOnly (h : Pinned p) : ReadOnly p := by
  induction p with
  | done x => trivial
  | prepare next ih => exact ih h
  | load pin next ih =>
      cases pin with
      | none => exact h.elim
      | some r => exact fun snap => ih snap (h snap)
  | commit expected state author message next ih => exact h.elim

omit [DecidableEq ι] in
theorem ReadOnly.bind (h : ReadOnly p) (hf : ∀ a, ReadOnly (f a)) : ReadOnly (p >>= f) := by
  change ReadOnly (Prog.bind p f)
  induction p with
  | done x =>
      cases x with
      | ok a => exact hf a
      | error e => trivial
  | prepare next ih => exact ih h
  | load pin next ih => exact fun snap => ih snap (h snap)
  | commit expected state author message next ih => exact h.elim

omit [DecidableEq ι] in
theorem Pinned.bind (h : Pinned p) (hf : ∀ a, Pinned (f a)) : Pinned (p >>= f) := by
  change Pinned (Prog.bind p f)
  induction p with
  | done x =>
      cases x with
      | ok a => exact hf a
      | error e => trivial
  | prepare next ih => exact ih h
  | load pin next ih =>
      cases pin with
      | none => exact h.elim
      | some r => exact fun snap => ih snap (h snap)
  | commit expected state author message next ih => exact h.elim

theorem ReadOnly.run_eq (h : ReadOnly p) (s : Store ι σ) : p.run B fresh s = (p.query B s, s) := by
  induction p with
  | done x => rfl
  | prepare next ih => exact ih h
  | load pin next ih =>
      cases pin with
      | none => exact ih s.head (h s.head)
      | some r =>
          simp only [Prog.run, Prog.query]
          cases s.find r with
          | none => rfl
          | some snap => exact ih snap (h snap)
  | commit expected state author message next ih => exact h.elim

/-- Answers computed from explicit revisions survive every later commit. -/
theorem Pinned.query_mono (h : Pinned p) {s t : Store ι σ} (hst : s.Extends t) {a : α}
    (ha : p.query B s = .ok a) : p.query B t = .ok a := by
  induction p with
  | done x => exact ha
  | prepare next ih => exact ih h ha
  | load pin next ih =>
      cases pin with
      | none => exact h.elim
      | some r =>
          simp only [Prog.query] at ha ⊢
          cases hf : s.find r with
          | none => simp [hf] at ha
          | some snap =>
              rw [hf] at ha
              rw [hst.find hf]
              exact ih snap (h snap) ha
  | commit expected state author message next ih => exact h.elim

end Classes

/-- An execution that moves the head, with the answer given to the caller. -/
def Writes (p : Prog ι σ ε α) (s : Store ι σ) (r : Except ε α) (t : Store ι σ) : Prop :=
  p.run B fresh s = (r, t) ∧ t ≠ s

section Rules

variable {B fresh} {s t : Store ι σ} {r : Except ε β} {f : α → Prog ι σ ε β}

/-- Everything read before the write is answered by the store the write is
applied to. -/
theorem writes_bind {p : Prog ι σ ε α} (hp : ReadOnly p) :
    Writes B fresh (p >>= f) s r t ↔ ∃ a, p.query B s = .ok a ∧ Writes B fresh (f a) s r t := by
  unfold Writes
  rw [Prog.run_bind, hp.run_eq]
  cases hq : p.query B s with
  | ok a => simp
  | error e =>
      simp only [Prod.mk.injEq, reduceCtorEq, false_and, exists_false, iff_false, not_and, not_not]
      exact fun h => h.2.symm

theorem not_writes_done {x : Except ε β} : ¬ Writes B fresh (.done x) s r t := by
  rintro ⟨h, hne⟩
  exact hne (congrArg Prod.snd h).symm

@[simp] theorem writes_lift_bind {x : Except ε α} :
    Writes B fresh (Prog.lift x >>= f) s r t ↔ ∃ a, x = .ok a ∧ Writes B fresh (f a) s r t :=
  writes_bind (pinned_lift x).readOnly

@[simp] theorem writes_head_bind {f : Snapshot ι σ → Prog ι σ ε β} :
    Writes B fresh (Prog.head >>= f) s r t ↔ Writes B fresh (f s.head) s r t := by
  rw [writes_bind readOnly_head]
  simp

@[simp] theorem writes_prepared_bind {f : Unit → Prog ι σ ε β} :
    Writes B fresh (Prog.prepared >>= f) s r t ↔ Writes B fresh (f ()) s r t := by
  rw [writes_bind pinned_prepared.readOnly]
  exact ⟨fun ⟨_, _, h⟩ => h, fun h => ⟨(), rfl, h⟩⟩

@[simp] theorem writes_pinned_bind {f : Snapshot ι σ → Prog ι σ ε β} {i : ι} :
    Writes B fresh (Prog.pinned i >>= f) s r t ↔
      ∃ snap, s.find i = some snap ∧ Writes B fresh (f snap) s r t := by
  rw [writes_bind (pinned_pinned i).readOnly]
  simp

/-- The only way to move the head: a compare-and-swap that succeeds. -/
theorem writes_commits_bind {f : ι → Prog ι σ ε β} (hf : ∀ i, ReadOnly (f i)) {expected : ι}
    {state : σ} {author message : String} :
    Writes B fresh (Prog.commits expected state author message >>= f) s r t ↔
      s.head.revisionId = expected ∧ B.admissible fresh = true ∧
        ∃ h : fresh ∉ s.ids, t = s.push fresh state h ∧ r = (f fresh).query B t := by
  unfold Writes
  rw [Prog.run_bind]
  simp only [Prog.commits, Prog.run]
  by_cases h : s.head.revisionId = expected ∧ B.admissible fresh = true ∧ fresh ∉ s.ids
  · rw [dif_pos h]
    simp only [(hf fresh).run_eq, Prod.mk.injEq]
    constructor
    · rintro ⟨⟨hr, rfl⟩, -⟩
      exact ⟨h.1, h.2.1, h.2.2, rfl, hr.symm⟩
    · rintro ⟨-, -, hn, rfl, rfl⟩
      exact ⟨⟨rfl, rfl⟩, s.push_ne _ _ _⟩
  · rw [dif_neg h]
    constructor
    · rintro ⟨he, hne⟩
      exact (hne (congrArg Prod.snd he).symm).elim
    · rintro ⟨h1, h2, h3, -⟩
      exact (h ⟨h1, h2, h3⟩).elim

end Rules

section Blame

variable {B fresh} {E : ε → Prop} {s : Store ι σ}

def Blames (B : Backend ι ε) (fresh : ι) (E : ε → Prop) (p : Prog ι σ ε α) (s : Store ι σ) : Prop :=
  ∀ e, (p.run B fresh s).1 = .error e → E e

@[simp] theorem blames_pure (a : α) : Blames B fresh E (pure a : Prog ι σ ε α) s := by
  intro e h
  cases h

@[simp] theorem blames_prepared : Blames B fresh E (Prog.prepared : Prog ι σ ε Unit) s := by
  intro e h
  cases h

theorem blames_lift {x : Except ε α} :
    Blames B fresh E (Prog.lift x : Prog ι σ ε α) s ↔ ∀ e, x = .error e → E e := Iff.rfl

/-- Errors of a sequence are errors of its first part, or of its second part
after a success of the first. -/
theorem blames_bind {p : Prog ι σ ε α} {f : α → Prog ι σ ε β} (hp : ReadOnly p) :
    Blames B fresh E (p >>= f) s ↔
      Blames B fresh E p s ∧ ∀ a, p.query B s = .ok a → Blames B fresh E (f a) s := by
  unfold Blames
  rw [Prog.run_bind, hp.run_eq]
  cases p.query B s with
  | ok a =>
      simp only [reduceCtorEq, false_implies, implies_true, true_and, Except.ok.injEq]
      exact ⟨fun h b hb => hb ▸ h, fun h => h a rfl⟩
  | error e =>
      simp only [reduceCtorEq, false_implies, implies_true, and_true, Except.error.injEq]

@[simp] theorem blames_head_bind {f : Snapshot ι σ → Prog ι σ ε β} :
    Blames B fresh E (Prog.head >>= f) s ↔ Blames B fresh E (f s.head) s := by
  rw [blames_bind readOnly_head]
  simp [Blames]

@[simp] theorem blames_prepared_bind {f : Unit → Prog ι σ ε β} :
    Blames B fresh E (Prog.prepared >>= f) s ↔ Blames B fresh E (f ()) s := by
  rw [blames_bind pinned_prepared.readOnly]
  constructor
  · intro h
    exact h.2 () rfl
  · intro h
    refine ⟨fun e he => ?_, fun _ _ => h⟩
    simp at he

@[simp] theorem blames_pinned {r : ι} :
    Blames B fresh E (Prog.pinned r : Prog ι σ ε _) s ↔ (s.find r = none → E B.missing) := by
  unfold Blames
  rw [Prog.run_pinned]
  cases s.find r with
  | none => simp [context, eq_comm]
  | some snap => simp [context]

theorem blames_commits {expected : ι} {state : σ} {author message : String} (h : E B.stale) :
    Blames B fresh E (Prog.commits expected state author message) s := by
  intro e he
  simp only [Prog.commits, Prog.run] at he
  split at he
  · cases he
  · obtain rfl := Except.error.inj he
    exact h

end Blame

end Galadril.Lib.Programs
