import Mathlib

namespace Galadril.Lib.Attempts

def Attempt (σ ε α : Type) : Type := σ → Except ε α × σ

namespace Attempt

variable {σ ε α β : Type}

instance : Monad (Attempt σ ε) where
  pure a s := (.ok a, s)
  bind m f s :=
    match m s with
    | (.ok a, s') => f a s'
    | (.error e, s') => (.error e, s')

def lift (x : Except ε α) : Attempt σ ε α := fun s => (x, s)

def call (fault : Option ε) (effect : Attempt σ ε α) : Attempt σ ε α := fun s =>
  match fault with
  | some e => (.error e, s)
  | none => effect s

def catching (m : Attempt σ ε α) (handler : ε → Attempt σ ε α) : Attempt σ ε α := fun s =>
  match m s with
  | (.ok a, s') => (.ok a, s')
  | (.error e, s') => handler e s'

end Attempt

open Attempt

variable {σ ε α β : Type} {m : Attempt σ ε α} {s : σ} {Q : α → σ → Prop} {E : ε → σ → Prop}

/-- What holds once a computation has returned, and once it has raised. -/
def After (m : Attempt σ ε α) (s : σ) (Q : α → σ → Prop) (E : ε → σ → Prop) : Prop :=
  match m s with
  | (.ok a, s') => Q a s'
  | (.error e, s') => E e s'

theorem After.mono {Q' : α → σ → Prop} {E' : ε → σ → Prop} (h : After m s Q E) (hq : ∀ a s', Q a s' → Q' a s')
    (he : ∀ e s', E e s' → E' e s') : After m s Q' E' := by
  unfold After at h ⊢
  rcases hm : m s with ⟨_ | _, s'⟩ <;> simp only [hm] at h ⊢
  · exact he _ _ h
  · exact hq _ _ h

theorem After.of_ok (h : After m s Q E) {a : α} (hok : (m s).1 = .ok a) : Q a (m s).2 := by
  unfold After at h
  rcases hm : m s with ⟨_ | b, s'⟩
  · simp [hm] at hok
  · simp only [hm, Except.ok.injEq] at hok h ⊢
    exact hok ▸ h

/-- What holds either way holds of the state that is left. -/
theorem After.final {P : σ → Prop} (h : After m s (fun _ s' => P s') fun _ s' => P s') : P (m s).2 := by
  unfold After at h
  rcases hm : m s with ⟨_ | _, s'⟩ <;> simpa [hm] using h

@[simp] theorem after_pure (a : α) : After (pure a) s Q E ↔ Q a s := Iff.rfl

@[simp] theorem after_bind {f : α → Attempt σ ε β} {Q : β → σ → Prop} :
    After (m >>= f) s Q E ↔ After m s (fun a s' => After (f a) s' Q E) E := by
  show (match (match m s with
    | (.ok a, s') => f a s'
    | (.error e, s') => (.error e, s')) with
    | (.ok b, s') => Q b s'
    | (.error e, s') => E e s') ↔ _
  unfold After
  rcases m s with ⟨_ | _, s'⟩ <;> rfl

@[simp] theorem after_lift_ok (a : α) : After (lift (.ok a)) s Q E ↔ Q a s := Iff.rfl

@[simp] theorem after_lift_error (e : ε) : After (lift (.error e) : Attempt σ ε α) s Q E ↔ E e s := Iff.rfl

@[simp] theorem after_call_some (e : ε) : After (call (some e) m) s Q E ↔ E e s := Iff.rfl

@[simp] theorem after_call_none : After (call none m) s Q E ↔ After m s Q E := Iff.rfl

@[simp] theorem after_catching {handler : ε → Attempt σ ε α} :
    After (catching m handler) s Q E ↔ After m s Q fun e s' => After (handler e) s' Q E := by
  unfold After catching
  rcases m s with ⟨_ | _, s'⟩ <;> rfl

end Galadril.Lib.Attempts
