import Galadril.Lib.Checked

namespace Galadril.Lib.Mapping

open Checked

variable {ε α β : Type} {f : α → Except ε β} {xs : List α} {ys : List β}

theorem accepts_mapM : Accepts (xs.mapM f) ↔ ∀ x ∈ xs, Accepts (f x) := by
  induction xs with
  | nil => simp [Accepts, List.mapM_nil]
  | cons x xs ih =>
      rw [List.mapM_cons, accepts_bind, List.forall_mem_cons, ← ih]
      constructor
      · rintro ⟨y, hy, hrest⟩
        obtain ⟨ys, hys, -⟩ := accepts_bind.mp hrest
        exact ⟨⟨y, hy⟩, ys, hys⟩
      · rintro ⟨⟨y, hy⟩, ys, hys⟩
        exact ⟨y, hy, accepts_bind.mpr ⟨ys, hys, accepts_ok _⟩⟩

theorem mem_mapM (h : xs.mapM f = .ok ys) {y : β} : y ∈ ys ↔ ∃ x ∈ xs, f x = .ok y := by
  refine ⟨mapM_eq_ok_mem h, ?_⟩
  have hall := mapM_eq_ok.mp h
  clear h
  rintro ⟨x, hx, hy⟩
  induction hall with
  | nil => cases hx
  | cons hfirst _ ih =>
      rcases List.mem_cons.mp hx with rfl | hx
      · rw [hy] at hfirst
        cases hfirst
        exact List.mem_cons_self
      · exact List.mem_cons_of_mem _ (ih hx)

/-- The results of a map whose steps are known. -/
theorem mapM_eq_map {g : α → β} (h : xs.mapM f = .ok ys) (hg : ∀ x ∈ xs, ∀ y, f x = .ok y → y = g x) : ys = xs.map g := by
  have hall := mapM_eq_ok.mp h
  clear h
  induction hall with
  | nil => rfl
  | cons hfirst _ ih =>
      rw [List.forall_mem_cons] at hg
      rw [List.map_cons, ← hg.1 _ hfirst, ← ih hg.2]

theorem mapM_perm {xs' : List α} (hperm : xs.Perm xs') (h : xs.mapM f = .ok ys) : ∃ ys', xs'.mapM f = .ok ys' ∧ ys.Perm ys' := by
  induction hperm generalizing ys with
  | nil => exact ⟨ys, h, .refl ys⟩
  | cons x _ ih =>
      simp only [List.mapM_cons, bind_eq_ok, pure_eq_ok] at h ⊢
      obtain ⟨y, hy, zs, hzs, rfl⟩ := h
      obtain ⟨zs', hzs', hperm⟩ := ih hzs
      exact ⟨_, ⟨y, hy, zs', hzs', rfl⟩, hperm.cons y⟩
  | swap x₁ x₂ xs =>
      simp only [List.mapM_cons, bind_eq_ok, pure_eq_ok] at h ⊢
      obtain ⟨y₂, hy₂, _, ⟨y₁, hy₁, zs, hzs, rfl⟩, rfl⟩ := h
      exact ⟨_, ⟨y₁, hy₁, _, ⟨y₂, hy₂, zs, hzs, rfl⟩, rfl⟩, .swap y₁ y₂ zs⟩
  | trans _ _ ih₁ ih₂ =>
      obtain ⟨zs, hzs, hperm₁⟩ := ih₁ h
      obtain ⟨ws, hws, hperm₂⟩ := ih₂ hzs
      exact ⟨ws, hws, hperm₁.trans hperm₂⟩

/-- A fold whose steps read their element first reads all of them before it
folds. -/
theorem foldlM_fetch {γ : Type} {step : γ → α → Except ε γ} {g : γ → β → Except ε γ}
    (hstep : ∀ acc x next, step acc x = .ok next ↔ ∃ y, f x = .ok y ∧ g acc y = .ok next) {acc result : γ} :
    xs.foldlM step acc = .ok result ↔ ∃ ys, xs.mapM f = .ok ys ∧ ys.foldlM g acc = .ok result := by
  induction xs generalizing acc with
  | nil => simp [List.mapM_nil]
  | cons x xs ih =>
      simp only [List.foldlM_cons, List.mapM_cons, bind_eq_ok, pure_eq_ok, hstep, ih]
      constructor
      · rintro ⟨next, ⟨y, hy, hnext⟩, ys, hys, hrest⟩
        exact ⟨_, ⟨y, hy, ys, hys, rfl⟩, by rw [List.foldlM_cons]; exact bind_eq_ok.mpr ⟨next, hnext, hrest⟩⟩
      · rintro ⟨_, ⟨y, hy, ys, hys, rfl⟩, hfold⟩
        rw [List.foldlM_cons] at hfold
        obtain ⟨next, hnext, hrest⟩ := bind_eq_ok.mp hfold
        exact ⟨next, ⟨y, hy, hnext⟩, ys, hys, hrest⟩

theorem foldlM_flatten {γ : Type} {g : γ → α → Except ε γ} {xss : List (List α)} {acc : γ} :
    xss.foldlM (fun acc xs => xs.foldlM g acc) acc = xss.flatten.foldlM g acc := by
  induction xss generalizing acc with
  | nil => rfl
  | cons xs xss ih => simp only [List.foldlM_cons, List.flatten_cons, List.foldlM_append, ih]

theorem mapError_eq_ok {ε' : Type} {x : Except ε α} {g : ε → ε'} {a : α} : x.mapError g = .ok a ↔ x = .ok a := by
  cases x <;> simp [Except.mapError]

variable {γ δ : Type} {R : α → γ → Prop} {zs : List γ}

theorem forall₂_mem_left (h : List.Forall₂ R xs zs) {x : α} (hx : x ∈ xs) : ∃ z ∈ zs, R x z := by
  induction h with
  | nil => cases hx
  | cons hxz _ ih =>
      rcases List.mem_cons.mp hx with rfl | hx
      · exact ⟨_, List.mem_cons_self, hxz⟩
      · obtain ⟨z, hz, hR⟩ := ih hx
        exact ⟨z, List.mem_cons_of_mem _ hz, hR⟩

theorem forall₂_mem_right (h : List.Forall₂ R xs zs) {z : γ} (hz : z ∈ zs) : ∃ x ∈ xs, R x z := forall₂_mem_left h.flip hz

theorem forall₂_zipIdx (h : List.Forall₂ (fun x z => R x.1 z) xs.zipIdx zs) : List.Forall₂ R xs zs := by
  have hmap := (@List.forall₂_map_left_iff _ _ _ R Prod.fst xs.zipIdx zs).mpr h
  rwa [List.zipIdx_map_fst] at hmap

theorem forall₂_comp {S : γ → δ → Prop} {T : α → δ → Prop} (hT : ∀ x y z, R x y → S y z → T x z) {ws : List δ}
    (hR : List.Forall₂ R xs zs) (hS : List.Forall₂ S zs ws) : List.Forall₂ T xs ws := by
  induction hR generalizing ws with
  | nil =>
      cases hS
      exact .nil
  | cons hxy _ ih =>
      cases hS with
      | cons hyz hrest => exact .cons (hT _ _ _ hxy hyz) (ih hrest)

end Galadril.Lib.Mapping
