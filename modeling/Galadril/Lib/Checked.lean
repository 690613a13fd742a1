import Mathlib

namespace Galadril.Lib.Checked

variable {ε α β : Type}

/-- An early exit guarded by a Boolean test. -/
def ensure (b : Bool) (e : ε) : Except ε Unit := if b then .ok () else .error e

/-- An optional value together with the error reported in its absence. -/
def context (o : Option α) (e : ε) : Except ε α :=
  match o with
  | some a => .ok a
  | none => .error e

@[simp] theorem ensure_eq_ok {b : Bool} {e : ε} {u : Unit} : ensure b e = .ok u ↔ b = true := by
  cases b <;> simp [ensure]

@[simp] theorem ensure_true (e : ε) : ensure true e = .ok () := rfl

@[simp] theorem context_eq_ok {o : Option α} {e : ε} {a : α} : context o e = .ok a ↔ o = some a := by
  cases o <;> simp [context]

@[simp] theorem context_some (a : α) (e : ε) : context (some a) e = .ok a := rfl

@[simp] theorem bind_eq_ok {x : Except ε α} {f : α → Except ε β} {b : β} :
    (x >>= f) = .ok b ↔ ∃ a, x = .ok a ∧ f a = .ok b := by
  cases x <;> simp [bind, Except.bind]

theorem map_eq_ok {x : Except ε α} {f : α → β} {b : β} : x.map f = .ok b ↔ ∃ a, x = .ok a ∧ f a = b := by
  cases x <;> simp [Except.map]

theorem bind_eq_error {x : Except ε α} {f : α → Except ε β} {e : ε} :
    (x >>= f) = .error e ↔ x = .error e ∨ ∃ a, x = .ok a ∧ f a = .error e := by
  cases x <;> simp [bind, Except.bind]

theorem ensure_eq_error {b : Bool} {e e' : ε} : ensure b e = .error e' ↔ b = false ∧ e = e' := by
  cases b <;> simp [ensure]

theorem context_eq_error {o : Option α} {e e' : ε} : context o e = .error e' ↔ o = none ∧ e = e' := by
  cases o <;> simp [context]

theorem ok_bind (a : α) (f : α → Except ε β) : (.ok a >>= f) = f a := rfl

@[simp] theorem pure_eq_ok {a b : α} : (pure a : Except ε α) = .ok b ↔ a = b := by
  simp [pure, Except.pure]

/-- Success hides the payload and the error, which is all that admission
arguments need. -/
def Accepts (x : Except ε α) : Prop := ∃ a, x = .ok a

@[simp] theorem accepts_ok (a : α) : Accepts (.ok a : Except ε α) := ⟨a, rfl⟩

@[simp] theorem not_accepts_error (e : ε) : ¬ Accepts (.error e : Except ε α) := by
  rintro ⟨a, h⟩
  cases h

theorem isOk_iff {x : Except ε α} : x.isOk = true ↔ Accepts x := by
  cases x with
  | ok a => exact iff_of_true rfl (accepts_ok a)
  | error e => exact iff_of_false (by simp [Except.isOk, Except.toBool]) (not_accepts_error e)

@[simp] theorem accepts_ensure {b : Bool} {e : ε} : Accepts (ensure b e) ↔ b = true := by
  simp [Accepts]

theorem accepts_bind {x : Except ε α} {f : α → Except ε β} :
    Accepts (x >>= f) ↔ ∃ a, x = .ok a ∧ Accepts (f a) := by
  simp only [Accepts, bind_eq_ok]
  constructor
  · rintro ⟨b, a, ha, hb⟩
    exact ⟨a, ha, b, hb⟩
  · rintro ⟨a, ha, b, hb⟩
    exact ⟨b, a, ha, hb⟩

instance (x : Except ε α) : Decidable (Accepts x) :=
  match x with
  | .ok a => isTrue ⟨a, rfl⟩
  | .error e => isFalse (not_accepts_error e)

theorem mapM_eq_ok {f : α → Except ε β} {xs : List α} {ys : List β} :
    xs.mapM f = .ok ys ↔ List.Forall₂ (fun x y => f x = .ok y) xs ys := by
  induction xs generalizing ys with
  | nil => rw [List.mapM_nil, pure_eq_ok, List.forall₂_nil_left_iff, eq_comm]
  | cons x xs ih =>
      simp only [List.mapM_cons, bind_eq_ok, pure_eq_ok, ih, List.forall₂_cons_left_iff]
      constructor
      · rintro ⟨y, hy, zs, hz, rfl⟩
        exact ⟨y, zs, hy, hz, rfl⟩
      · rintro ⟨y, zs, hy, hz, rfl⟩
        exact ⟨y, hy, zs, hz, rfl⟩

/-- Every result of a successful map comes from an element. -/
theorem mapM_eq_ok_mem {f : α → Except ε β} {xs : List α} {ys : List β} (h : xs.mapM f = .ok ys) {y : β} (hy : y ∈ ys) :
    ∃ x ∈ xs, f x = .ok y := by
  have hall := mapM_eq_ok.mp h
  clear h
  induction hall with
  | nil => cases hy
  | cons hx _ ih =>
      rcases List.mem_cons.mp hy with rfl | hy
      · exact ⟨_, List.mem_cons_self, hx⟩
      · obtain ⟨x, hmem, hf⟩ := ih hy
        exact ⟨x, List.mem_cons_of_mem _ hmem, hf⟩

/-- Every element of a successful fold passed its own step. -/
theorem foldlM_eq_ok_mem {f : β → α → Except ε β} {xs : List α} {b c : β} (h : xs.foldlM f b = .ok c) {x : α}
    (hx : x ∈ xs) : ∃ b c, f b x = .ok c := by
  induction xs generalizing b with
  | nil => cases hx
  | cons y ys ih =>
      rw [List.foldlM_cons, bind_eq_ok] at h
      obtain ⟨a, ha, hrest⟩ := h
      rcases List.mem_cons.mp hx with rfl | hx
      · exact ⟨b, a, ha⟩
      · exact ih hrest hx

variable {E : ε → Prop}

def Errs (E : ε → Prop) (x : Except ε α) : Prop := ∀ e, x = .error e → E e

@[simp] theorem errs_ok (a : α) : Errs E (.ok a : Except ε α) := by
  intro e h
  cases h

@[simp] theorem errs_pure (a : α) : Errs E (pure a : Except ε α) := errs_ok a

@[simp] theorem errs_error {e : ε} : Errs E (.error e : Except ε α) ↔ E e := by
  constructor
  · exact fun h => h e rfl
  · rintro h _ he
    exact Except.error.inj he ▸ h

@[simp] theorem errs_ensure {b : Bool} {e : ε} : Errs E (ensure b e) ↔ (b = false → E e) := by
  cases b <;> simp [ensure]

@[simp] theorem errs_context {o : Option α} {e : ε} : Errs E (context o e) ↔ (o = none → E e) := by
  cases o <;> simp [context]

theorem errs_bind {x : Except ε α} {f : α → Except ε β} :
    Errs E (x >>= f) ↔ Errs E x ∧ ∀ a, x = .ok a → Errs E (f a) := by
  cases x <;> simp [bind, Except.bind]

theorem errs_mapM {f : α → Except ε β} {xs : List α} (h : ∀ x ∈ xs, Errs E (f x)) : Errs E (xs.mapM f) := by
  induction xs with
  | nil => exact errs_pure _
  | cons x xs ih =>
      rw [List.mapM_cons, errs_bind]
      refine ⟨h x List.mem_cons_self, fun y _ => ?_⟩
      rw [errs_bind]
      exact ⟨ih fun x hx => h x (List.mem_cons_of_mem _ hx), fun _ _ => errs_pure _⟩

/-- A loop whose rounds keep an invariant errs as its rounds do. -/
theorem errs_foldlM {f : β → α → Except ε β} {P : β → Prop} {xs : List α} {b : β} (hb : P b)
    (h : ∀ b, P b → ∀ x ∈ xs, Errs E (f b x) ∧ ∀ b', f b x = .ok b' → P b') : Errs E (xs.foldlM f b) := by
  induction xs generalizing b with
  | nil => exact errs_pure b
  | cons x xs ih =>
      rw [List.foldlM_cons, errs_bind]
      obtain ⟨hx, hkeep⟩ := h b hb x List.mem_cons_self
      exact ⟨hx, fun b' hb' => ih (hkeep b' hb') fun b hb x hx => h b hb x (List.mem_cons_of_mem _ hx)⟩

theorem errs_forM {f : α → Except ε Unit} {xs : List α} (h : ∀ x ∈ xs, Errs E (f x)) : Errs E (xs.forM f) := by
  induction xs with
  | nil => exact errs_pure ()
  | cons x xs ih =>
      change Errs E (f x >>= fun _ => xs.forM f)
      rw [errs_bind]
      exact ⟨h x List.mem_cons_self, fun _ _ => ih fun x hx => h x (List.mem_cons_of_mem _ hx)⟩

/-- What a loop keeps in every round it keeps in the end. -/
theorem foldlM_invariant {f : β → α → Except ε β} {P : β → Prop} {xs : List α} {b c : β} (hb : P b)
    (h : ∀ b, P b → ∀ x ∈ xs, ∀ b', f b x = .ok b' → P b') (hfold : xs.foldlM f b = .ok c) : P c := by
  induction xs generalizing b with
  | nil =>
      cases hfold
      exact hb
  | cons x xs ih =>
      rw [List.foldlM_cons, bind_eq_ok] at hfold
      obtain ⟨b', hb', hrest⟩ := hfold
      exact ih (h b hb x List.mem_cons_self b' hb') (fun b hb x hx => h b hb x (List.mem_cons_of_mem _ hx)) hrest

end Galadril.Lib.Checked

namespace Galadril.Lib.Fuel

variable {ε α β : Type}

/-- A fallible computation that has no result when its fuel runs out. -/
abbrev Fueled (ε α : Type) := ExceptT ε Option α

/-- The fuel was enough, and the computation gave this result. -/
def Settles (x : Fueled ε α) (y : Except ε α) : Prop := x.run = some y

theorem settles_pure (a : α) : Settles (pure a : Fueled ε α) (pure a) := rfl

theorem settles_lift (y : Except ε α) : Settles (monadLift y : Fueled ε α) y := rfl

theorem Settles.bind {x : Fueled ε α} {y : Except ε α} {f : α → Fueled ε β} {g : α → Except ε β} (hx : Settles x y)
    (h : ∀ a, y = .ok a → Settles (f a) (g a)) : Settles (x >>= f) (y >>= g) := by
  rw [Settles, ExceptT.run_bind, show x.run = some y from hx]
  cases y with
  | error e => rfl
  | ok a => exact h a rfl

/-- Fuel is enough for a loop when it is enough for each round started under
the invariant. -/
theorem Settles.foldlM {f : β → α → Fueled ε β} {g : β → α → Except ε β} {P : β → Prop} {xs : List α}
    (h : ∀ b, P b → ∀ x ∈ xs, Settles (f b x) (g b x) ∧ ∀ b', g b x = .ok b' → P b') {b : β} (hb : P b) :
    Settles (xs.foldlM f b) (xs.foldlM g b) := by
  induction xs generalizing b with
  | nil => exact settles_pure b
  | cons x xs ih =>
      rw [List.foldlM_cons, List.foldlM_cons]
      obtain ⟨hx, hkeep⟩ := h b hb x List.mem_cons_self
      exact hx.bind fun b' hb' => ih (fun b hb y hy => h b hb y (List.mem_cons_of_mem x hy)) (hkeep b' hb')

end Galadril.Lib.Fuel
