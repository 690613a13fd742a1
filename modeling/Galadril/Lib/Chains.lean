import Mathlib

namespace Galadril.Lib.Chains

variable {α : Type}

inductive Chain (R : α → α → Prop) : Nat → α → α → Prop
  | refl (a : α) : Chain R 0 a a
  | step {n : Nat} {a b c : α} (edge : R a b) (rest : Chain R n b c) : Chain R (n + 1) a c

def Acyclic (R : α → α → Prop) : Prop := ∀ n a, ¬ Chain R (n + 1) a a

def Bounded (R : α → α → Prop) (k : Nat) : Prop := ∀ n a b, Chain R n a b → n ≤ k

variable {R S : α → α → Prop} {m n : Nat} {a b c : α}

theorem Chain.mono (hRS : ∀ a b, R a b → S a b) (h : Chain R n a b) : Chain S n a b := by
  induction h with
  | refl a => exact .refl a
  | step edge rest ih => exact .step (hRS _ _ edge) ih

theorem Chain.append (h : Chain R m a b) (hbc : Chain R n b c) : Chain R (m + n) a c := by
  induction h with
  | refl a => simpa using hbc
  | @step k a x b edge rest ih =>
      rw [Nat.add_right_comm]
      exact .step edge (ih hbc)

theorem Chain.flip (h : Chain R n a b) : Chain (Function.swap R) n b a := by
  induction h with
  | refl a => exact .refl a
  | @step k a x b edge rest ih => exact ih.append (.step edge (.refl a))

theorem Acyclic.mono (hRS : ∀ a b, R a b → S a b) (h : Acyclic S) : Acyclic R := fun n a hc => h n a (hc.mono hRS)

theorem Bounded.mono (hRS : ∀ a b, R a b → S a b) {k : Nat} (h : Bounded S k) : Bounded R k :=
  fun n a b hc => h n a b (hc.mono hRS)

/-- Without cycles, the sources of the edges of a path are distinct. -/
theorem Chain.sources (hR : Acyclic R) (h : Chain R n a b) :
    ∃ xs : List α, xs.length = n ∧ xs.Nodup ∧ ∀ x ∈ xs, (∃ y, R x y) ∧ ∃ k, Chain R k a x := by
  induction h with
  | refl a => exact ⟨[], rfl, List.nodup_nil, by simp⟩
  | @step k a x b edge rest ih =>
      obtain ⟨xs, hlen, hnodup, hxs⟩ := ih
      refine ⟨a :: xs, by simp [hlen], List.nodup_cons.mpr ⟨fun ha => ?_, hnodup⟩, fun y hy => ?_⟩
      · obtain ⟨-, j, hj⟩ := hxs a ha
        exact hR j a (.step edge hj)
      · rcases List.mem_cons.mp hy with rfl | hy
        · exact ⟨⟨x, edge⟩, 0, .refl _⟩
        · obtain ⟨hedge, j, hj⟩ := hxs y hy
          exact ⟨hedge, j + 1, .step edge hj⟩

theorem Acyclic.bounded [DecidableEq α] (hR : Acyclic R) {sources : List α} (hs : ∀ a b, R a b → a ∈ sources) :
    Bounded R sources.length := by
  intro n a b h
  obtain ⟨xs, rfl, hnodup, hxs⟩ := h.sources hR
  refine (hnodup.subperm fun x hx => ?_).length_le
  obtain ⟨⟨y, hy⟩, -⟩ := hxs x hx
  exact hs x y hy

variable {p : α}

def Joined (R : α → α → Prop) (c p : α) (a b : α) : Prop := R a b ∨ (a = c ∧ b = p)

theorem Joined.of (a b : α) (h : R a b) : Joined R c p a b := .inl h

/-- A path uses the new edge or does not. -/
theorem chain_joined {n : Nat} {a b : α} (h : Chain (Joined R c p) n a b) :
    Chain R n a b ∨ ∃ i j, n = i + 1 + j ∧ Chain R i a c ∧ Chain (Joined R c p) j p b := by
  induction h with
  | refl a => exact .inl (.refl a)
  | @step k a x b edge rest ih =>
      rcases edge with edge | ⟨rfl, rfl⟩
      · rcases ih with h | ⟨i, j, rfl, hi, hj⟩
        · exact .inl (.step edge h)
        · exact .inr ⟨i + 1, j, by omega, .step edge hi, hj⟩
      · exact .inr ⟨0, k, by omega, .refl _, rest⟩

/-- Past the new edge there is no way back to it. -/
theorem chain_past (hback : ∀ n, ¬ Chain R n p c) {n : Nat} {b : α} (h : Chain (Joined R c p) n p b) : Chain R n p b := by
  rcases chain_joined h with h | ⟨i, j, -, hi, -⟩
  · exact h
  · exact absurd hi (hback i)

theorem acyclic_joined (hR : Acyclic R) : Acyclic (Joined R c p) ↔ ∀ n, ¬ Chain R n p c := by
  constructor
  · intro h n hn
    exact h n c (.step (.inr ⟨rfl, rfl⟩) (hn.mono Joined.of))
  · intro hback n a h
    rcases chain_joined h with h | ⟨i, j, -, hi, hj⟩
    · exact hR n a h
    · exact hback (j + i) ((chain_past hback hj).append hi)

/-- The longest path through the new edge is bounded by what lies on both of
its sides. -/
theorem bounded_joined {k : Nat} (hR : Bounded R k) (hback : ∀ n, ¬ Chain R n p c) :
    Bounded (Joined R c p) k ↔ ∀ i j a b, Chain R i a c → Chain R j p b → i + j + 1 ≤ k := by
  constructor
  · intro h i j a b hi hj
    have hpath := (hi.mono Joined.of).append (.step (.inr ⟨rfl, rfl⟩) (hj.mono Joined.of))
    have hle := h _ _ _ hpath
    omega
  · intro h n a b hpath
    rcases chain_joined hpath with hpath | ⟨i, j, rfl, hi, hj⟩
    · exact hR n a b hpath
    · have hle := h i j a b hi (chain_past hback hj)
      omega

section Queries

variable [DecidableEq α] (next : α → List α)

def reaches : Nat → List α → α → Bool
  | 0, rows, target => rows.contains target
  | fuel + 1, rows, target => rows.contains target || reaches fuel (rows.flatMap next) target

omit [DecidableEq α] in
def depth : Nat → List α → Nat
  | 0, _ => 0
  | fuel + 1, rows =>
      match rows.flatMap next with
      | [] => 0
      | row :: rest => depth fuel (row :: rest) + 1

variable {next} {R : α → α → Prop} (hnext : ∀ a b, b ∈ next a ↔ R a b)

include hnext

theorem reaches_iff {fuel : Nat} {rows : List α} {target : α} :
    reaches next fuel rows target = true ↔ ∃ a ∈ rows, ∃ n, n ≤ fuel ∧ Chain R n a target := by
  induction fuel generalizing rows with
  | zero =>
      rw [reaches, List.contains_iff_mem]
      constructor
      · exact fun h => ⟨target, h, 0, le_refl _, .refl _⟩
      · rintro ⟨a, ha, n, hn, h⟩
        obtain rfl : n = 0 := by omega
        cases h
        exact ha
  | succ fuel ih =>
      rw [reaches, Bool.or_eq_true, ih, List.contains_iff_mem]
      constructor
      · rintro (h | ⟨x, hx, n, hn, h⟩)
        · exact ⟨target, h, 0, by omega, .refl _⟩
        · obtain ⟨a, ha, hx⟩ := List.mem_flatMap.mp hx
          exact ⟨a, ha, n + 1, by omega, .step ((hnext a x).mp hx) h⟩
      · rintro ⟨a, ha, n, hn, h⟩
        cases h with
        | refl => exact .inl ha
        | step edge rest =>
            exact .inr ⟨_, List.mem_flatMap.mpr ⟨a, ha, (hnext _ _).mpr edge⟩, _, by omega, rest⟩

omit [DecidableEq α] in
theorem le_depth {fuel n : Nat} {rows : List α} {a b : α} (ha : a ∈ rows) (hn : n ≤ fuel) (h : Chain R n a b) :
    n ≤ depth next fuel rows := by
  induction fuel generalizing rows n a with
  | zero => omega
  | succ fuel ih =>
      cases h with
      | refl => exact Nat.zero_le _
      | @step k _ x _ edge rest =>
          have hx : x ∈ rows.flatMap next := List.mem_flatMap.mpr ⟨a, ha, (hnext a x).mpr edge⟩
          rw [depth]
          split
          · next hnil => simp [hnil] at hx
          · next row others hrows =>
              rw [hrows] at hx
              have hle := ih hx (by omega) rest
              omega

omit [DecidableEq α] in
theorem exists_depth (fuel : Nat) {rows : List α} (hrows : rows ≠ []) :
    ∃ a ∈ rows, ∃ b, Chain R (depth next fuel rows) a b := by
  induction fuel generalizing rows with
  | zero =>
      obtain ⟨a, rest, rfl⟩ := List.exists_cons_of_ne_nil hrows
      exact ⟨a, List.mem_cons_self, a, .refl a⟩
  | succ fuel ih =>
      rw [depth]
      split
      · obtain ⟨a, rest, rfl⟩ := List.exists_cons_of_ne_nil hrows
        exact ⟨a, List.mem_cons_self, a, .refl a⟩
      · next row others hlevel =>
          obtain ⟨x, hx, b, hb⟩ := ih (List.cons_ne_nil row others)
          rw [← hlevel] at hx
          obtain ⟨a, ha, hx⟩ := List.mem_flatMap.mp hx
          exact ⟨a, ha, b, .step ((hnext a x).mp hx) hb⟩

end Queries

end Galadril.Lib.Chains
