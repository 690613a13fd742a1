import Mathlib

namespace Galadril.Lib.Numbering

variable {α : Type} (key : α → Int)

def once (log : List α) (e : α) : List α := if log.any (key · == key e) then log else log ++ [e]

def firsts (log : List α) : List α := log.foldl (once key) []

theorem firsts_append (log : List α) (e : α) : firsts key (log ++ [e]) = once key (firsts key log) e := by
  simp [firsts]

theorem once_key {log : List α} {e : α} {k : Int} : (∃ a ∈ once key log e, key a = k) ↔ (∃ a ∈ log, key a = k) ∨ key e = k := by
  rw [once]
  split
  · next h =>
      obtain ⟨a, ha, hk⟩ := List.any_eq_true.mp h
      refine ⟨.inl, fun h => h.elim id fun he => ⟨a, ha, ?_⟩⟩
      rw [← he]
      exact beq_iff_eq.mp hk
  · simp [or_and_right, exists_or]

theorem firsts_key (log : List α) (k : Int) : (∃ a ∈ firsts key log, key a = k) ↔ ∃ a ∈ log, key a = k := by
  induction log using List.reverseRecOn with
  | nil => simp [firsts]
  | append_singleton log e ih => rw [firsts_append, once_key, ih]; simp [or_and_right, exists_or]

theorem firsts_append_fresh {log : List α} {e : α} (h : ∀ a ∈ log, key a ≠ key e) :
    firsts key (log ++ [e]) = firsts key log ++ [e] := by
  rw [firsts_append, once, if_neg]
  intro hany
  obtain ⟨a, ha, hk⟩ := List.any_eq_true.mp hany
  obtain ⟨b, hb, hkb⟩ := (firsts_key key log (key e)).mp ⟨a, ha, beq_iff_eq.mp hk⟩
  exact h b hb hkb

theorem firsts_append_again {log : List α} {e : α} (h : ∃ a ∈ log, key a = key e) :
    firsts key (log ++ [e]) = firsts key log := by
  obtain ⟨a, ha, hk⟩ := (firsts_key key log (key e)).mpr h
  rw [firsts_append, once, if_pos]
  exact List.any_eq_true.mpr ⟨a, ha, beq_iff_eq.mpr hk⟩

structure Numbered (log : List α) (cursor : Nat) : Prop where
  range : ∀ e ∈ log, 1 ≤ key e ∧ key e ≤ cursor + 1
  reached : ∀ k : Nat, 1 ≤ k → k ≤ cursor → ∃ e ∈ log, key e = k
  agree : ∀ a ∈ log, ∀ b ∈ log, key a = key b → a = b

variable {key} {log : List α} {cursor : Nat}

theorem Numbered.start : Numbered key [] 0 := by
  refine ⟨fun _ h => ?_, fun k h₁ h₂ => ?_, fun _ h => ?_⟩
  · cases h
  · omega
  · cases h

/-- An entry under the next number, unless another one is there. -/
theorem Numbered.append (h : Numbered key log cursor) {e : α} (hkey : key e = cursor + 1)
    (hnext : ∀ a ∈ log, key a = cursor + 1 → a = e) : Numbered key (log ++ [e]) cursor := by
  refine ⟨fun a ha => ?_, fun k h₁ h₂ => ?_, fun a ha b hb hk => ?_⟩
  · rcases List.mem_append.mp ha with ha | ha
    · exact h.range a ha
    · rw [List.mem_singleton.mp ha, hkey]
      omega
  · obtain ⟨a, ha, hk⟩ := h.reached k h₁ h₂
    exact ⟨a, List.mem_append_left _ ha, hk⟩
  · rcases List.mem_append.mp ha with ha | ha <;> rcases List.mem_append.mp hb with hb | hb
    · exact h.agree a ha b hb hk
    · obtain rfl : b = e := by simpa using hb
      exact hnext a ‹a ∈ log› (hk.trans hkey)
    · obtain rfl : a = e := by simpa using ha
      exact (hnext b ‹b ∈ log› (hk.symm.trans hkey)).symm
    · rw [List.mem_singleton.mp ha, List.mem_singleton.mp hb]

theorem Numbered.advance (h : Numbered key log cursor) (hnext : ∃ e ∈ log, key e = cursor + 1) :
    Numbered key log (cursor + 1) := by
  refine ⟨fun e he => ?_, fun k h₁ h₂ => ?_, h.agree⟩
  · obtain ⟨hlow, hhigh⟩ := h.range e he
    exact ⟨hlow, by push_cast; omega⟩
  · rcases Nat.lt_or_ge cursor k with hk | hk
    · obtain ⟨e, he, hke⟩ := hnext
      exact ⟨e, he, by omega⟩
    · exact h.reached k h₁ hk

theorem Numbered.consecutive (h : Numbered key log cursor) :
    ∃ last : Nat, ∀ k : Int, (∃ e ∈ log, key e = k) ↔ 1 ≤ k ∧ k ≤ last := by
  by_cases hnext : ∃ e ∈ log, key e = cursor + 1
  · refine ⟨cursor + 1, fun k => ⟨?_, fun ⟨h₁, h₂⟩ => ?_⟩⟩
    · rintro ⟨e, he, rfl⟩
      exact_mod_cast h.range e he
    · obtain ⟨e, he, hk⟩ := (h.advance hnext).reached k.toNat (by omega) (by omega)
      exact ⟨e, he, by omega⟩
  · refine ⟨cursor, fun k => ⟨?_, fun ⟨h₁, h₂⟩ => ?_⟩⟩
    · rintro ⟨e, he, rfl⟩
      have hne : key e ≠ cursor + 1 := fun hk => hnext ⟨e, he, hk⟩
      obtain ⟨hlow, hhigh⟩ := h.range e he
      exact ⟨hlow, by omega⟩
    · obtain ⟨e, he, hk⟩ := h.reached k.toNat (by omega) (by omega)
      exact ⟨e, he, by omega⟩

variable {γ : Type} [DecidableEq γ] {group : α → γ} {number : α → Nat} {log : List α}

def Counted (group : α → γ) (number : α → Nat) (log : List α) : Prop :=
  ∀ g, (log.filter (group · = g)).map number = List.range' 1 (log.filter (group · = g)).length

/-- The largest number of a list, which a new member goes beyond. -/
def top (number : α → Nat) (log : List α) : Nat := log.foldr (fun e n => max (number e) n) 0

theorem top_of_range {n m : Nat} (h : log.map number = List.range' m n) (hm : 0 < m) :
    top number log = if n = 0 then 0 else m + n - 1 := by
  induction log generalizing m n with
  | nil =>
      cases n with
      | zero => rfl
      | succ n => simp [List.range'] at h
  | cons e rest ih =>
      cases n with
      | zero => simp at h
      | succ n =>
          rw [List.map_cons, List.range'_succ] at h
          obtain ⟨he, hrest⟩ := List.cons.inj h
          have htop : top number (e :: rest) = max (number e) (top number rest) := rfl
          rw [htop, ih hrest (Nat.succ_pos m), he]
          split
          · simp_all
          · simp

theorem Counted.nil : Counted group number ([] : List α) := fun _ => rfl

theorem Counted.snoc (h : Counted group number log) {e : α}
    (he : number e = top number (log.filter (group · = group e)) + 1) : Counted group number (log ++ [e]) := by
  intro g
  rw [List.filter_append]
  by_cases hg : group e = g
  · subst hg
    have hnumber : number e = 1 + (log.filter (group · = group e)).length := by
      rw [he, top_of_range (h (group e)) Nat.one_pos]
      split <;> omega
    have hlast : [e].filter (group · = group e) = [e] := by simp
    rw [hlast, List.map_append, h (group e), List.length_append, List.length_singleton, List.range'_concat, List.map_singleton,
      hnumber, Nat.one_mul]
  · have hlast : [e].filter (group · = g) = [] := by simp [hg]
    rw [hlast, List.append_nil]
    exact h g

end Galadril.Lib.Numbering
