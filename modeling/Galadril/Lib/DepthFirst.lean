import Mathlib

namespace Galadril.Lib.DepthFirst

open Relation

variable {α : Type} [DecidableEq α]

inductive Color
  | gray
  | black
  deriving DecidableEq

abbrev Coloring (α : Type) := α → Option Color

/-- Advance the search by following the next edge of the node on top of the
stack. An edge to a gray node closes a cycle. The first argument bounds the
number of edges followed. -/
def explore (succ : α → List α) : Nat → Coloring α → List (α × Nat) → Option α × Coloring α
  | 0, colors, _ => (none, colors)
  | _ + 1, colors, [] => (none, colors)
  | n + 1, colors, (v, i) :: stack =>
      match (succ v)[i]? with
      | none => explore succ n (Function.update colors v (some .black)) stack
      | some w =>
          match colors w with
          | some .gray => (some w, colors)
          | some .black => explore succ n colors ((v, i + 1) :: stack)
          | none => explore succ n (Function.update colors w (some .gray)) ((w, 0) :: (v, i + 1) :: stack)

def search (succ : α → List α) (fuel : Nat) : Coloring α → List α → Option α
  | _, [] => none
  | colors, r :: roots =>
      if colors r = some .black then search succ fuel colors roots
      else
        match explore succ fuel (Function.update colors r (some .gray)) [(r, 0)] with
        | (some w, _) => some w
        | (none, colors') => search succ fuel colors' roots

variable (succ : α → List α)

/-- Successors are smaller, so that accessibility excludes infinite descent. -/
def Below (w v : α) : Prop := w ∈ succ v

/-- The whole budget: every node is pushed once and follows each edge once. -/
def weight (U : List α) : Nat := ∑ u ∈ U.toFinset, ((succ u).length + 2)

/-- Nodes of the universe without a color, with the work they may still cause. -/
def pendingWeight (U : List α) (colors : Coloring α) : Nat :=
  ∑ u ∈ U.toFinset with colors u = none, ((succ u).length + 2)

def stackWeight (stack : List (α × Nat)) : Nat :=
  (stack.map (fun p => (succ p.1).length + 1 - p.2)).sum

/-- The edges already followed from a stacked node lead to black nodes, except
the one that leads to the node stacked above it. -/
def Followed (colors : Coloring α) : Option α → List (α × Nat) → Prop
  | _, [] => True
  | above, (v, i) :: stack =>
      (∀ w ∈ (succ v).take i, colors w = some .black ∨ above = some w) ∧
        (∀ w, above = some w → w ∈ succ v) ∧ i ≤ (succ v).length ∧ Followed colors (some v) stack

structure Invariant (root : α) (colors : Coloring α) (stack : List (α × Nat)) : Prop where
  gray_iff : ∀ v, colors v = some .gray ↔ v ∈ stack.map Prod.fst
  distinct : (stack.map Prod.fst).Nodup
  black_acc : ∀ v, colors v = some .black → Acc (Below succ) v
  followed : Followed succ colors none stack
  from_root : ∀ v ∈ stack.map Prod.fst, ReflTransGen (Below succ) v root

variable {succ}

omit [DecidableEq α] in
theorem Followed.mono {colors colors' : Coloring α} {above : Option α} {stack : List (α × Nat)}
    (h : Followed succ colors above stack)
    (hc : ∀ w, colors w = some .black → colors' w = some .black) : Followed succ colors' above stack := by
  induction stack generalizing above with
  | nil => trivial
  | cons p stack ih =>
      obtain ⟨h1, h2, h3, h4⟩ := h
      exact ⟨fun w hw => (h1 w hw).imp_left (hc w), h2, h3, ih h4⟩

omit [DecidableEq α] in
theorem Followed.to_top {colors : Coloring α} {v : α} {i : Nat} {stack : List (α × Nat)} {above : Option α}
    (h : Followed succ colors above ((v, i) :: stack)) :
    ∀ x ∈ ((v, i) :: stack).map Prod.fst, ReflTransGen (Below succ) v x := by
  induction stack generalizing v i above with
  | nil => simp [ReflTransGen.refl]
  | cons p stack ih =>
      obtain ⟨u, j⟩ := p
      obtain ⟨-, -, -, h⟩ := h
      intro x hx
      rcases List.mem_cons.mp hx with rfl | hx
      · exact .refl
      · exact ReflTransGen.head (h.2.1 v rfl) (ih h x hx)

omit [DecidableEq α] in
theorem not_acc_of_cycle {r : α → α → Prop} {v : α} (h : TransGen r v v) : ¬ Acc r v := by
  intro ha
  induction ha.transGen with
  | intro x _ ih => exact ih x h h (ha.inv_of_transGen h)

omit [DecidableEq α] in
theorem acc_of_reflTransGen {r : α → α → Prop} {v w : α} (ha : Acc r w) (h : ReflTransGen r v w) : Acc r v := by
  induction h using ReflTransGen.head_induction_on with
  | refl => exact ha
  | head he _ ih => exact ih.inv he

theorem pendingWeight_recolor (U : List α) {colors : Coloring α} {v : α} (c : Color)
    (hv : colors v ≠ none) :
    pendingWeight succ U (Function.update colors v (some c)) = pendingWeight succ U colors := by
  unfold pendingWeight
  congr 1
  apply Finset.filter_congr
  intro u _
  by_cases hu : u = v
  · subst hu; simp [hv]
  · simp [hu]

variable (succ) in
theorem pendingWeight_color (U : List α) {colors : Coloring α} {w : α} (c : Color)
    (hU : w ∈ U) (hw : colors w = none) :
    pendingWeight succ U (Function.update colors w (some c)) + ((succ w).length + 2) =
      pendingWeight succ U colors := by
  unfold pendingWeight
  have he : U.toFinset.filter (fun u => Function.update colors w (some c) u = none) =
      (U.toFinset.filter (fun u => colors u = none)).erase w := by
    ext u
    by_cases hu : u = w
    · subst hu; simp
    · simp [hu]
  rw [he]
  exact Finset.sum_erase_add _ _ (by simp [hU, hw])

theorem Invariant.start {colors : Coloring α} {root r : α} (h : Invariant succ root colors [])
    (hr : colors r ≠ some .black) :
    Invariant succ r (Function.update colors r (some .gray)) [(r, 0)] := by
  refine ⟨fun v => ?_, by simp, fun v hv => ?_, ⟨by simp, by simp, by simp, trivial⟩, by simp [ReflTransGen.refl]⟩
  · have hg := h.gray_iff v
    by_cases hv : v = r
    · subst hv; simp
    · simpa [hv] using hg
  · by_cases hvr : v = r
    · subst hvr; simp at hv
    · exact h.black_acc v (by simpa [hvr] using hv)

theorem Invariant.finish {colors : Coloring α} {root v : α} {i : Nat} {stack : List (α × Nat)}
    (h : Invariant succ root colors ((v, i) :: stack)) (hi : (succ v)[i]? = none) :
    Invariant succ root (Function.update colors v (some .black)) stack := by
  obtain ⟨hfollowed, -, hlen, hrest⟩ := h.followed
  obtain ⟨hnv, hnd⟩ := List.nodup_cons.mp h.distinct
  have hblack : ∀ w ∈ succ v, colors w = some .black := by
    intro w hw
    rw [List.take_of_length_le (List.getElem?_eq_none_iff.mp hi)] at hfollowed
    simpa using hfollowed w hw
  have hacc : Acc (Below succ) v := Acc.intro v (fun w hw => h.black_acc w (hblack w hw))
  refine ⟨fun u => ?_, hnd, fun u hu => ?_, ?_, fun u hu => h.from_root u (List.mem_cons_of_mem _ hu)⟩
  · have hg := h.gray_iff u
    by_cases hu : u = v
    · subst hu; simpa using hnv
    · simpa [hu] using hg
  · by_cases huv : u = v
    · exact huv ▸ hacc
    · exact h.black_acc u (by simpa [huv] using hu)
  · cases stack with
    | nil => trivial
    | cons p stack =>
        obtain ⟨h1, h2, h3, h4⟩ := hrest
        refine ⟨fun w hw => .inl ?_, by simp, h3, h4.mono fun w hw => ?_⟩
        · rcases h1 w hw with hb | hb
          · by_cases hwv : w = v <;> simp [hwv, hb]
          · simp [Option.some.inj hb]
        · by_cases hwv : w = v <;> simp [hwv, hw]

omit [DecidableEq α] in
theorem Invariant.skip {colors : Coloring α} {root v w : α} {i : Nat} {stack : List (α × Nat)}
    (h : Invariant succ root colors ((v, i) :: stack)) (hi : (succ v)[i]? = some w)
    (hw : colors w = some .black) : Invariant succ root colors ((v, i + 1) :: stack) := by
  obtain ⟨h1, h2, h3, h4⟩ := h.followed
  obtain ⟨hlt, he⟩ := List.getElem?_eq_some_iff.mp hi
  refine ⟨h.gray_iff, h.distinct, h.black_acc, ⟨fun u hu => ?_, h2, hlt, h4⟩, h.from_root⟩
  rw [List.take_add_one, List.mem_append] at hu
  rcases hu with hu | hu
  · exact h1 u hu
  · have : u = w := by simpa [hi] using hu
    exact .inl (this ▸ hw)

theorem Invariant.descend {colors : Coloring α} {root v w : α} {i : Nat} {stack : List (α × Nat)}
    (h : Invariant succ root colors ((v, i) :: stack)) (hi : (succ v)[i]? = some w)
    (hw : colors w = none) :
    Invariant succ root (Function.update colors w (some .gray)) ((w, 0) :: (v, i + 1) :: stack) := by
  obtain ⟨h1, h2, h3, h4⟩ := h.followed
  obtain ⟨hlt, he⟩ := List.getElem?_eq_some_iff.mp hi
  have hmem : w ∈ succ v := List.mem_of_getElem? hi
  have hnot : w ∉ ((v, i) :: stack).map Prod.fst := fun hm => by simp [(h.gray_iff w).mpr hm] at hw
  have hkeep : ∀ u, colors u = some .black → Function.update colors w (some .gray) u = some .black := by
    intro u hu
    have : u ≠ w := fun he => by simp [he, hw] at hu
    simpa [this] using hu
  refine ⟨fun u => ?_, List.nodup_cons.mpr ⟨hnot, h.distinct⟩, fun u hu => ?_, ?_, fun u hu => ?_⟩
  · have hg := h.gray_iff u
    by_cases hu : u = w
    · subst hu; simp
    · simpa [hu] using hg
  · by_cases huw : u = w
    · subst huw; simp at hu
    · exact h.black_acc u (by simpa [huw] using hu)
  · refine ⟨by simp, by simp, by simp, fun u hu => ?_, fun u hu => ?_, hlt, h4.mono hkeep⟩
    · rw [List.take_add_one, List.mem_append] at hu
      rcases hu with hu | hu
      · exact (h1 u hu).imp (hkeep u) (by simp)
      · have : u = w := by simpa [hi] using hu
        exact .inr (congrArg some this.symm)
    · exact Option.some.inj hu ▸ hmem
  · rcases List.mem_cons.mp hu with rfl | hu
    · exact .head hmem (h.from_root v (by simp))
    · exact h.from_root u hu

omit [DecidableEq α] in
theorem Invariant.cycle {colors : Coloring α} {root v w : α} {i : Nat} {stack : List (α × Nat)}
    (h : Invariant succ root colors ((v, i) :: stack)) (hi : (succ v)[i]? = some w)
    (hw : colors w = some .gray) : ¬ Acc (Below succ) root := by
  have hon := (h.gray_iff w).mp hw
  have hloop : TransGen (Below succ) w w :=
    TransGen.head' (List.mem_of_getElem? hi : Below succ w v) (h.followed.to_top w hon)
  exact fun ha => not_acc_of_cycle hloop (acc_of_reflTransGen ha (h.from_root w hon))

/-- With enough budget an exploration either refutes that its root is
accessible or leaves no node unfinished. -/
theorem explore_spec {U : List α} (hU : ∀ v, ∀ w ∈ succ v, w ∈ U) {fuel : Nat} {root : α}
    {colors : Coloring α} {stack : List (α × Nat)} (hinv : Invariant succ root colors stack)
    (hf : pendingWeight succ U colors + stackWeight succ stack < fuel) :
    (∀ w colors', explore succ fuel colors stack = (some w, colors') → ¬ Acc (Below succ) root) ∧
      ∀ colors', explore succ fuel colors stack = (none, colors') →
        Invariant succ root colors' [] ∧ ∀ v, colors v ≠ none → colors' v ≠ none := by
  induction fuel generalizing colors stack with
  | zero => omega
  | succ n ih =>
      cases stack with
      | nil =>
          refine ⟨fun w colors' h => by simp [explore] at h, fun colors' h => ?_⟩
          simp only [explore, Prod.mk.injEq, true_and] at h
          exact h ▸ ⟨hinv, fun v hv => hv⟩
      | cons p stack =>
          obtain ⟨v, i⟩ := p
          have hlen := hinv.followed.2.2.1
          have hv : colors v ≠ none := by simp [(hinv.gray_iff v).mpr (by simp)]
          simp only [stackWeight, List.map_cons, List.sum_cons] at hf
          unfold explore
          cases hi : (succ v)[i]? with
          | none =>
              obtain ⟨h1, h2⟩ := ih (hinv.finish hi) (by
                rw [pendingWeight_recolor U _ hv, stackWeight]
                omega)
              refine ⟨h1, fun colors' h => ⟨(h2 colors' h).1, fun u hu => (h2 colors' h).2 u ?_⟩⟩
              by_cases huv : u = v <;> simp [huv, hu]
          | some w =>
              have hlt := (List.getElem?_eq_some_iff.mp hi).1
              cases hw : colors w with
              | none =>
                  have hp := pendingWeight_color succ U .gray
                    (hU v w (List.mem_of_getElem? hi)) hw
                  obtain ⟨h1, h2⟩ := ih (hinv.descend hi hw) (by
                    simp only [stackWeight, List.map_cons, List.sum_cons]
                    omega)
                  refine ⟨by simpa [hw] using h1, fun colors' h => ?_⟩
                  simp only [hw] at h
                  refine ⟨(h2 colors' h).1, fun u hu => (h2 colors' h).2 u ?_⟩
                  by_cases huw : u = w <;> simp [huw, hu]
              | some c =>
                  cases c with
                  | gray =>
                      refine ⟨fun _ _ _ => hinv.cycle hi hw, fun colors' h => ?_⟩
                      simp [hw] at h
                  | black =>
                      simpa [hw] using ih (hinv.skip hi hw) (by
                        simp only [stackWeight, List.map_cons, List.sum_cons]
                        omega)

variable (succ) in
theorem pendingWeight_le (U : List α) (colors : Coloring α) : pendingWeight succ U colors ≤ weight succ U :=
  Finset.sum_le_sum_of_subset (Finset.filter_subset _ _)

theorem start_weight (U : List α) {colors : Coloring α} {r : α} (hU : r ∈ U)
    (hr : colors r = none) :
    pendingWeight succ U (Function.update colors r (some .gray)) + stackWeight succ [(r, 0)] <
      weight succ U + 1 := by
  have h1 := pendingWeight_color succ U .gray hU hr
  have h2 := pendingWeight_le succ U colors
  simp only [stackWeight, List.map_cons, List.map_nil, List.sum_cons, List.sum_nil]
  omega

theorem search_spec {U roots : List α} (hU : ∀ v, ∀ w ∈ succ v, w ∈ U) (hroots : ∀ r ∈ roots, r ∈ U)
    {colors : Coloring α} {root : α} (hinv : Invariant succ root colors []) :
    search succ (weight succ U + 1) colors roots = none ↔ ∀ r ∈ roots, Acc (Below succ) r := by
  induction roots generalizing colors root with
  | nil => simp [search]
  | cons r roots ih =>
      obtain ⟨hr, hrest⟩ := List.forall_mem_cons.mp hroots
      rw [search, List.forall_mem_cons]
      split
      next hb => rw [ih hrest hinv, and_iff_right (hinv.black_acc r hb)]
      next hb =>
        have hnone : colors r = none := by
          cases hc : colors r with
          | none => rfl
          | some c =>
              cases c with
              | black => exact (hb hc).elim
              | gray => simpa using (hinv.gray_iff r).mp hc
        have hspec := explore_spec hU (hinv.start hb) (start_weight U hr hnone)
        split
        next w colors' he => simp [hspec.1 w colors' he]
        next colors' he =>
          obtain ⟨hinv', hcolored⟩ := hspec.2 colors' he
          have hblack : colors' r = some .black := by
            cases hc : colors' r with
            | none => exact (hcolored r (by simp) hc).elim
            | some c =>
                cases c with
                | black => rfl
                | gray => simpa using (hinv'.gray_iff r).mp hc
          rw [ih hrest hinv', and_iff_right (hinv'.black_acc r hblack)]

/-- Given a universe of nodes, the search reports nothing exactly when no root
starts an infinite descent. The verdict is independent of the order of the
roots. -/
theorem search_eq_none {U roots : List α} (hU : ∀ v, ∀ w ∈ succ v, w ∈ U) (hroots : ∀ r ∈ roots, r ∈ U) :
    search succ (weight succ U + 1) (fun _ => none) roots = none ↔ ∀ r ∈ roots, Acc (Below succ) r := by
  cases roots with
  | nil => simp [search]
  | cons r roots =>
      have hstart : Invariant succ r (fun _ => none) [] := ⟨by simp, by simp, by simp, trivial, by simp⟩
      exact search_spec hU hroots hstart

end Galadril.Lib.DepthFirst

namespace Galadril.Lib.Cycles

open Relation

variable {α : Type} {r : α → α → Prop}

/-- A relation into finitely many elements is well founded once it has no
cycle. -/
theorem acc_of_acyclic {targets : List α} (htargets : ∀ a b, r a b → b ∈ targets) (h : ∀ a, ¬ TransGen r a a) (a : α) :
    Acc r a := by
  let below : {x // x ∈ targets} → {x // x ∈ targets} → Prop := fun x y => TransGen r x.1 y.1
  have : Finite {x // x ∈ targets} := targets.finite_toSet.to_subtype
  have : IsTrans _ below := ⟨fun _ _ _ hab hbc => hab.trans hbc⟩
  have : Std.Irrefl below := ⟨fun x hx => h x.1 hx⟩
  have hwf : WellFounded below := Finite.wellFounded_of_trans_of_irrefl below
  have houtside : ∀ x, x ∉ targets → Acc r x := fun x hx => ⟨x, fun y hy => absurd (htargets y x hy) hx⟩
  have hinside : ∀ x : {x // x ∈ targets}, Acc r x.1 := by
    intro x
    induction x using hwf.induction with
    | h x ih =>
        refine ⟨x.1, fun y hy => ?_⟩
        by_cases hmem : y ∈ targets
        · exact ih ⟨y, hmem⟩ (.single hy)
        · exact houtside y hmem
  by_cases hmem : a ∈ targets
  · exact hinside ⟨a, hmem⟩
  · exact houtside a hmem

theorem acyclic_iff_acc {targets : List α} (htargets : ∀ a b, r a b → b ∈ targets) :
    (∀ a, ¬ TransGen r a a) ↔ ∀ a, Acc r a :=
  ⟨fun h => acc_of_acyclic htargets h, fun h a hcycle => DepthFirst.not_acc_of_cycle hcycle (h a)⟩

end Galadril.Lib.Cycles
