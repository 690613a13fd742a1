import Galadril.Lib.Checked

namespace Galadril.Lib.Walks

open Checked Relation

variable {α κ ε : Type} [DecidableEq κ]

/-- Takes the newest pending node until none is left. A node counts as visited
when it is taken, so that it may be pending more than once. What follows a node
is asked with the number of visited nodes, itself included. -/
def walk (key : α → κ) (expand : Nat → α → Except ε (List α)) : Nat → List α → List α → Except ε (List α)
  | _, visited, [] => .ok visited
  | 0, visited, _ => .ok visited
  | fuel + 1, visited, a :: pending =>
      if key a ∈ visited.map key then walk key expand fuel visited pending
      else do
        let next ← expand (visited.length + 1) a
        walk key expand fuel (a :: visited) (next.reverse ++ pending)

def Edge (succ : α → Except ε (List α)) (a b : α) : Prop := ∃ next, succ a = .ok next ∧ b ∈ next

/-- What a walk relies on: the keys tell the nodes apart, the nodes with an
answer are finitely many, and their number does not matter to the answers. -/
structure Walkable (key : α → κ) (expand : Nat → α → Except ε (List α)) (succ : α → Except ε (List α)) (node : α → Prop)
    (U : List α) (weight : α → Nat) : Prop where
  apart : ∀ a b, node a → node b → key a = key b → a = b
  closed : ∀ a b, node a → Edge succ a b → node b
  finite : ∀ a next, node a → succ a = .ok next → a ∈ U
  answers : ∀ n a next, node a → (a ∈ U → n ≤ U.length) → (expand n a = .ok next ↔ succ a = .ok next)
  bounded : ∀ a next, succ a = .ok next → next.length ≤ weight a

/-- The state of a walk: everything visited has its answer, and what follows is
visited or pending. -/
structure Progress (key : α → κ) (succ : α → Except ε (List α)) (node : α → Prop) (start visited pending : List α) : Prop where
  nodes : ∀ a, a ∈ visited ∨ a ∈ pending → node a
  distinct : (visited.map key).Nodup
  reached : ∀ a, a ∈ visited ∨ a ∈ pending → ∃ s ∈ start, ReflTransGen (Edge succ) s a
  started : ∀ s ∈ start, s ∈ visited ∨ s ∈ pending
  followed : ∀ a ∈ visited, ∃ next, succ a = .ok next ∧ ∀ b ∈ next, b ∈ visited ∨ b ∈ pending

omit [DecidableEq κ] in
theorem Progress.start {node : α → Prop} {key : α → κ} {succ : α → Except ε (List α)} {start : List α} (h : ∀ s ∈ start, node s) :
    Progress key succ node start [] start where
  nodes a ha := h a (ha.resolve_left List.not_mem_nil)
  distinct := List.nodup_nil
  reached a ha := ⟨a, ha.resolve_left List.not_mem_nil, .refl⟩
  started _ hs := .inr hs
  followed _ ha := absurd ha List.not_mem_nil

/-- The work that is left among the nodes of the universe. -/
def remaining (key : α → κ) (weight : α → Nat) (U visited : List α) : Nat :=
  (U.map fun u => if key u ∈ visited.map key then 0 else weight u).sum

theorem remaining_cons {key : α → κ} {weight : α → Nat} {U visited : List α} {a : α} (ha : a ∈ U) (hnew : key a ∉ visited.map key) :
    remaining key weight U (a :: visited) + weight a ≤ remaining key weight U visited := by
  have hle : ∀ u, (if key u ∈ (a :: visited).map key then 0 else weight u) ≤ if key u ∈ visited.map key then 0 else weight u := by
    intro u
    by_cases hu : key u ∈ visited.map key
    · simp [hu]
    · rw [if_neg hu]
      split <;> omega
  have hall : ∀ xs : List α, remaining key weight xs (a :: visited) ≤ remaining key weight xs visited := by
    intro xs
    exact List.sum_le_sum fun u _ => hle u
  induction U with
  | nil => cases ha
  | cons u U ih =>
      simp only [remaining, List.map_cons, List.sum_cons] at ih ⊢
      rcases List.mem_cons.mp ha with rfl | ha
      · have hrest := hall U
        simp only [remaining] at hrest
        rw [if_pos (by simp), if_neg hnew]
        simp only [List.map_cons] at hrest ⊢
        omega
      · have hu := hle u
        have hrest := ih ha
        simp only [List.map_cons] at hu hrest ⊢
        omega

variable {key : α → κ} {expand : Nat → α → Except ε (List α)} {succ : α → Except ε (List α)} {node : α → Prop}
  {U start visited pending result : List α} {weight : α → Nat}

omit [DecidableEq κ] in
theorem Progress.skip {a : α} (h : Progress key succ node start visited (a :: pending))
    (hw : Walkable key expand succ node U weight) (ha : key a ∈ visited.map key) :
      Progress key succ node start visited pending := by
  have hmem : a ∈ visited := by
    obtain ⟨b, hb, hkey⟩ := List.mem_map.mp ha
    exact hw.apart b a (h.nodes b (.inl hb)) (h.nodes a (.inr List.mem_cons_self)) hkey ▸ hb
  have hmove : ∀ b, b ∈ visited ∨ b ∈ a :: pending → b ∈ visited ∨ b ∈ pending := by
    rintro b (hb | hb)
    · exact .inl hb
    · rcases List.mem_cons.mp hb with rfl | hb
      · exact .inl hmem
      · exact .inr hb
  refine ⟨fun b hb => h.nodes b (hb.imp_right (List.mem_cons_of_mem a)), h.distinct,
    fun b hb => h.reached b (hb.imp_right (List.mem_cons_of_mem a)), fun s hs => hmove s (h.started s hs), fun b hb => ?_⟩
  obtain ⟨next, hnext, hfollow⟩ := h.followed b hb
  exact ⟨next, hnext, fun c hc => hmove c (hfollow c hc)⟩

omit [DecidableEq κ] in
theorem Progress.take {a : α} {next : List α} (h : Progress key succ node start visited (a :: pending))
    (hw : Walkable key expand succ node U weight) (ha : key a ∉ visited.map key) (hnext : succ a = .ok next) :
    Progress key succ node start (a :: visited) (next.reverse ++ pending) := by
  have hnode := h.nodes a (.inr List.mem_cons_self)
  obtain ⟨s, hs, hsa⟩ := h.reached a (.inr List.mem_cons_self)
  have hmove : ∀ b, b ∈ visited ∨ b ∈ a :: pending → b ∈ a :: visited ∨ b ∈ next.reverse ++ pending := by
    rintro b (hb | hb)
    · exact .inl (List.mem_cons_of_mem _ hb)
    · rcases List.mem_cons.mp hb with rfl | hb
      · exact .inl List.mem_cons_self
      · exact .inr (List.mem_append_right _ hb)
  have hback : ∀ b, b ∈ a :: visited ∨ b ∈ next.reverse ++ pending → (b ∈ visited ∨ b ∈ a :: pending) ∨ b ∈ next := by
    rintro b (hb | hb)
    · rcases List.mem_cons.mp hb with rfl | hb
      · exact .inl (.inr List.mem_cons_self)
      · exact .inl (.inl hb)
    · rcases List.mem_append.mp hb with hb | hb
      · exact .inr (List.mem_reverse.mp hb)
      · exact .inl (.inr (List.mem_cons_of_mem _ hb))
  refine ⟨fun b hb => ?_, ?_, fun b hb => ?_, fun s hs => hmove s (h.started s hs), fun b hb => ?_⟩
  · rcases hback b hb with hb | hb
    · exact h.nodes b hb
    · exact hw.closed a b hnode ⟨next, hnext, hb⟩
  · rw [List.map_cons, List.nodup_cons]
    exact ⟨ha, h.distinct⟩
  · rcases hback b hb with hb | hb
    · exact h.reached b hb
    · exact ⟨s, hs, hsa.tail ⟨next, hnext, hb⟩⟩
  · rcases List.mem_cons.mp hb with rfl | hb
    · exact ⟨next, hnext, fun c hc => .inr (List.mem_append_left _ (List.mem_reverse.mpr hc))⟩
    · obtain ⟨more, hmore, hfollow⟩ := h.followed b hb
      exact ⟨more, hmore, fun c hc => hmove c (hfollow c hc)⟩

omit [DecidableEq κ] in
/-- The visited nodes are among those with an answer, each once. -/
theorem Progress.count (h : Progress key succ node start visited pending) (hw : Walkable key expand succ node U weight)
    {a : α} (ha : key a ∉ visited.map key) : a ∈ U → visited.length + 1 ≤ U.length := by
  intro hU
  have hnodup : (a :: visited).Nodup := by
    refine List.Nodup.of_map key ?_
    rw [List.map_cons, List.nodup_cons]
    exact ⟨ha, h.distinct⟩
  have hsub : (a :: visited) ⊆ U := by
    intro b hb
    rcases List.mem_cons.mp hb with rfl | hb
    · exact hU
    · obtain ⟨next, hnext, -⟩ := h.followed b hb
      exact hw.finite b next (h.nodes b (.inl hb)) hnext
  have hlength := (hnodup.subperm hsub).length_le
  rwa [List.length_cons] at hlength

theorem walk_progress (hw : Walkable key expand succ node U weight) {fuel : Nat}
    (h : Progress key succ node start visited pending) (hfuel : pending.length + remaining key weight U visited < fuel)
    (hok : walk key expand fuel visited pending = .ok result) : Progress key succ node start result [] := by
  induction fuel generalizing visited pending with
  | zero => cases hfuel
  | succ fuel ih =>
      cases pending with
      | nil =>
          obtain rfl := Except.ok.inj hok
          exact h
      | cons a pending =>
          rw [walk] at hok
          rw [List.length_cons] at hfuel
          split at hok
          next ha => exact ih (h.skip hw ha) (by omega) hok
          next ha =>
            simp only [bind_eq_ok] at hok
            obtain ⟨next, hnext, hok⟩ := hok
            have hnode := h.nodes a (.inr List.mem_cons_self)
            have hsucc := (hw.answers _ a next hnode (h.count hw ha)).mp hnext
            have hweight := hw.bounded a next hsucc
            have hless := @remaining_cons _ _ _ key weight _ _ _ (hw.finite a next hnode hsucc) ha
            refine ih (h.take hw ha hsucc) ?_ hok
            rw [List.length_append, List.length_reverse]
            omega

/-- A walk fails only where a reachable node has no answer. -/
theorem walk_total (hw : Walkable key expand succ node U weight) {fuel : Nat}
    (h : Progress key succ node start visited pending)
    (htotal : ∀ a, (∃ s ∈ start, ReflTransGen (Edge succ) s a) → ∃ next, succ a = .ok next) :
    Accepts (walk key expand fuel visited pending) := by
  induction fuel generalizing visited pending with
  | zero => cases pending <;> exact accepts_ok visited
  | succ fuel ih =>
      cases pending with
      | nil => exact accepts_ok visited
      | cons a pending =>
          rw [walk]
          split
          next ha => exact ih (h.skip hw ha)
          next ha =>
            obtain ⟨next, hnext⟩ := htotal a (h.reached a (.inr List.mem_cons_self))
            have hnode := h.nodes a (.inr List.mem_cons_self)
            exact accepts_bind.mpr ⟨next, (hw.answers _ a next hnode (h.count hw ha)).mpr hnext, ih (h.take hw ha hnext)⟩

omit [DecidableEq κ] in
theorem Progress.mem_iff (h : Progress key succ node start visited []) {a : α} :
    a ∈ visited ↔ ∃ s ∈ start, ReflTransGen (Edge succ) s a := by
  refine ⟨fun ha => h.reached a (.inl ha), ?_⟩
  rintro ⟨s, hs, hsa⟩
  induction hsa with
  | refl => exact (h.started s hs).resolve_right List.not_mem_nil
  | tail _ hedge ih =>
      obtain ⟨next, hnext, hmem⟩ := hedge
      obtain ⟨more, hmore, hfollow⟩ := h.followed _ ih
      rw [hnext] at hmore
      cases hmore
      exact (hfollow _ hmem).resolve_right List.not_mem_nil

end Galadril.Lib.Walks
