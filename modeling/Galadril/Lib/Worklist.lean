import Galadril.Lib.Checked

namespace Galadril.Lib.Worklist

open Checked Relation

variable {α ε : Type} [DecidableEq α]

/-- A dependency enters the result and the pending stack once. -/
def enter (acc : List α × List α) (y : α) : List α × List α :=
  if y ∈ acc.1 then acc else (y :: acc.1, y :: acc.2)

/-- Process pending nodes, newest first, until none is left. The first
argument bounds the number of processed nodes. -/
def visit (succ : α → Except ε (List α)) : Nat → List α → List α → Except ε (List α)
  | 0, seen, _ => .ok seen
  | _ + 1, seen, [] => .ok seen
  | n + 1, seen, x :: pending => do
      let deps ← succ x
      let next := deps.foldl enter (seen, pending)
      visit succ n next.1 next.2

def Edge (succ : α → Except ε (List α)) (x y : α) : Prop := ∃ deps, succ x = .ok deps ∧ y ∈ deps

theorem mem_enter_fold (deps : List α) (acc : List α × List α) (y : α) :
    y ∈ (deps.foldl enter acc).1 ↔ y ∈ acc.1 ∨ y ∈ deps := by
  induction deps generalizing acc with
  | nil => simp
  | cons d deps ih =>
      rw [List.foldl_cons, ih]
      unfold enter
      split
      next hd =>
        simp only [List.mem_cons]
        constructor
        · tauto
        · rintro (h | rfl | h)
          · exact .inl h
          · exact .inl hd
          · exact .inr h
      next hd =>
        simp only [List.mem_cons]
        tauto

theorem mem_pending_fold (deps : List α) (acc : List α × List α) (y : α) :
    y ∈ (deps.foldl enter acc).2 ↔ y ∈ acc.2 ∨ (y ∈ deps ∧ y ∉ acc.1) := by
  induction deps generalizing acc with
  | nil => simp
  | cons d deps ih =>
      rw [List.foldl_cons, ih]
      unfold enter
      split
      next hd =>
        simp only [List.mem_cons]
        constructor
        · rintro (h | ⟨h, hn⟩)
          · exact .inl h
          · exact .inr ⟨.inr h, hn⟩
        · rintro (h | ⟨rfl | h, hn⟩)
          · exact .inl h
          · exact (hn hd).elim
          · exact .inr ⟨h, hn⟩
      next hd =>
        simp only [List.mem_cons]
        constructor
        · rintro ((rfl | h) | ⟨h, hn⟩)
          · exact .inr ⟨.inl rfl, hd⟩
          · exact .inl h
          · exact .inr ⟨.inr h, fun hy => hn (.inr hy)⟩
        · rintro (h | ⟨rfl | h, hn⟩)
          · exact .inl (.inr h)
          · exact .inl (.inl rfl)
          · by_cases hy : y = d
            · exact .inl (.inl hy)
            · exact .inr ⟨h, by simp [hy, hn]⟩

/-- Nodes of a finite universe that have not been entered yet. -/
def unseen (U seen : List α) : Nat := (U.toFinset \ seen.toFinset).card

theorem fold_measure (U deps : List α) (acc : List α × List α) (h : ∀ y ∈ deps, y ∈ U) :
    (deps.foldl enter acc).2.length + unseen U (deps.foldl enter acc).1 ≤ acc.2.length + unseen U acc.1 := by
  induction deps generalizing acc with
  | nil => simp
  | cons d deps ih =>
      rw [List.foldl_cons]
      refine (ih (enter acc d) (fun y hy => h y (List.mem_cons_of_mem _ hy))).trans ?_
      unfold enter
      split
      · exact le_rfl
      next hd =>
        have hm : d ∈ U.toFinset \ acc.1.toFinset := by simp [h d List.mem_cons_self, hd]
        have he : U.toFinset \ (d :: acc.1).toFinset = (U.toFinset \ acc.1.toFinset).erase d := by
          ext y
          simp only [List.toFinset_cons, Finset.mem_sdiff, Finset.mem_insert, List.mem_toFinset,
            Finset.mem_erase]
          tauto
        have hp : 0 < (U.toFinset \ acc.1.toFinset).card := Finset.card_pos.mpr ⟨d, hm⟩
        simp only [List.length_cons, unseen, he, Finset.card_erase_of_mem hm]
        omega

section Correct

variable (succ : α → Except ε (List α)) (start base : List α)

/-- Started with the nodes of base entered, every other entered node is
reachable, and every node that left the pending stack has all its dependencies
entered. -/
structure Progress (seen pending : List α) : Prop where
  base_start : ∀ y ∈ base, y ∈ start
  kept : ∀ y ∈ base, y ∈ seen
  reached : ∀ y ∈ seen, y ∈ base ∨ ∃ x ∈ start, TransGen (Edge succ) x y
  queued : ∀ x ∈ pending, x ∈ start ∨ x ∈ seen
  settled : ∀ x, x ∈ start ∨ x ∈ seen → x ∈ pending ∨ ∃ deps, succ x = .ok deps ∧ ∀ y ∈ deps, y ∈ seen

variable {succ start base}

theorem Progress.step {seen pending deps : List α} {x : α} (h : Progress succ start base seen (x :: pending))
    (hx : succ x = .ok deps) :
    Progress succ start base (deps.foldl enter (seen, pending)).1 (deps.foldl enter (seen, pending)).2 := by
  have hreach : ∀ y ∈ deps, ∃ z ∈ start, TransGen (Edge succ) z y := by
    intro y hy
    have hxy : Edge succ x y := ⟨deps, hx, hy⟩
    rcases h.queued x List.mem_cons_self with hs | hs
    · exact ⟨x, hs, .single hxy⟩
    · rcases h.reached x hs with hs | ⟨z, hz, hzx⟩
      · exact ⟨x, h.base_start x hs, .single hxy⟩
      · exact ⟨z, hz, hzx.tail hxy⟩
  refine ⟨h.base_start, fun y hy => (mem_enter_fold deps _ y).mpr (.inl (h.kept y hy)), fun y hy => ?_,
    fun y hy => ?_, fun y hy => ?_⟩
  · rcases (mem_enter_fold deps _ y).mp hy with hy | hy
    · exact h.reached y hy
    · exact .inr (hreach y hy)
  · rw [mem_enter_fold]
    rcases (mem_pending_fold deps _ y).mp hy with hy | ⟨hy, -⟩
    · exact (h.queued y (List.mem_cons_of_mem _ hy)).imp_right .inl
    · exact .inr (.inr hy)
  · simp only [mem_enter_fold, mem_pending_fold] at hy ⊢
    by_cases hys : y ∈ start ∨ y ∈ seen
    · rcases h.settled y hys with hp | ⟨ds, hds, hsub⟩
      · rcases List.mem_cons.mp hp with rfl | hp
        · exact .inr ⟨deps, hx, fun z hz => .inr hz⟩
        · exact .inl (.inl hp)
      · exact .inr ⟨ds, hds, fun z hz => .inl (hsub z hz)⟩
    · exact .inl (.inr ⟨by tauto, fun hs => hys (.inr hs)⟩)

omit [DecidableEq α] in
theorem Progress.mem_iff {seen : List α} (h : Progress succ start base seen []) {y : α} :
    y ∈ seen ↔ y ∈ base ∨ ∃ x ∈ start, TransGen (Edge succ) x y := by
  have hclosed : ∀ x, x ∈ start ∨ x ∈ seen → ∀ z, Edge succ x z → z ∈ seen := by
    rintro x hx z ⟨deps, hd, hz⟩
    obtain ⟨ds, hds, hsub⟩ := (h.settled x hx).resolve_left List.not_mem_nil
    rw [hd] at hds
    cases hds
    exact hsub z hz
  refine ⟨h.reached y, ?_⟩
  rintro (hy | ⟨x, hx, hxy⟩)
  · exact h.kept y hy
  · induction hxy with
    | single he => exact hclosed x (.inl hx) _ he
    | tail _ he ih => exact hclosed _ (.inr ih) _ he

/-- With room for every node of a finite universe, the traversal ends with
exactly the nodes reachable from its start. -/
theorem visit_ok {U : List α} (hU : ∀ x deps, succ x = .ok deps → ∀ y ∈ deps, y ∈ U)
    {fuel : Nat} {seen pending result : List α} (hp : Progress succ start base seen pending)
    (hf : pending.length + unseen U seen < fuel) (h : visit succ fuel seen pending = .ok result) :
    Progress succ start base result [] := by
  induction fuel generalizing seen pending with
  | zero => omega
  | succ n ih =>
      cases pending with
      | nil =>
          simp only [visit, Except.ok.injEq] at h
          exact h ▸ hp
      | cons x pending =>
          simp only [visit, bind_eq_ok] at h
          obtain ⟨deps, hx, h⟩ := h
          have hm := fold_measure U deps (seen, pending) (hU x deps hx)
          refine ih (hp.step hx) ?_ h
          simp only [List.length_cons] at hf hm
          omega

/-- The traversal fails only where a reachable node has no dependencies to
follow. -/
theorem visit_total {fuel : Nat} {seen pending : List α} (hp : Progress succ start base seen pending)
    (htotal : ∀ y, (y ∈ start ∨ ∃ x ∈ start, TransGen (Edge succ) x y) → ∃ deps, succ y = .ok deps) :
    ∃ result, visit succ fuel seen pending = .ok result := by
  induction fuel generalizing seen pending with
  | zero => exact ⟨seen, rfl⟩
  | succ n ih =>
      cases pending with
      | nil => exact ⟨seen, rfl⟩
      | cons x pending =>
          obtain ⟨deps, hx⟩ := htotal x
            ((hp.queued x List.mem_cons_self).elim .inl
              (fun hs => (hp.reached x hs).imp_left (hp.base_start x)))
          obtain ⟨result, hr⟩ := ih (hp.step hx)
          exact ⟨result, by simpa [visit, hx] using hr⟩

end Correct

end Galadril.Lib.Worklist
