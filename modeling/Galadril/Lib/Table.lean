import Mathlib

namespace Galadril.Lib

structure Table {ρ κ : Type} (key : ρ → κ) where
  rows : List ρ
  keyed : (rows.map key).Nodup

namespace Table

variable {ρ κ : Type} [DecidableEq κ] {key : ρ → κ}

def empty : Table key := ⟨[], List.nodup_nil⟩

def find (t : Table key) (k : κ) : Option ρ := t.rows.find? (key · = k)

def count (t : Table key) (p : ρ → Bool) : Nat := t.rows.countP p

omit [DecidableEq κ] in
theorem eq_of_key {t : Table key} {r s : ρ} (hr : r ∈ t.rows) (hs : s ∈ t.rows) (h : key r = key s) : r = s :=
  List.inj_on_of_nodup_map t.keyed hr hs h

theorem find_eq_some {t : Table key} {k : κ} {r : ρ} : t.find k = some r ↔ r ∈ t.rows ∧ key r = k := by
  constructor
  · intro h
    exact ⟨List.mem_of_find?_eq_some h, by simpa using List.find?_some h⟩
  · rintro ⟨hr, rfl⟩
    cases h : t.find (key r) with
    | none => exact absurd (List.find?_eq_none.mp h r hr) (by simp)
    | some s =>
        have hs : key s = key r := by simpa using List.find?_some h
        rw [eq_of_key (List.mem_of_find?_eq_some h) hr hs]

theorem key_of_find {t : Table key} {k : κ} {r : ρ} (h : t.find k = some r) : key r = k := (find_eq_some.mp h).2

theorem find_eq_none {t : Table key} {k : κ} : t.find k = none ↔ ∀ r ∈ t.rows, key r ≠ k := by
  simp [find, List.find?_eq_none]

/-- A new row, unless its key is taken. -/
def insert (t : Table key) (r : ρ) : Table key :=
  if h : t.find (key r) = none then
    ⟨t.rows ++ [r], by
      rw [List.map_append, List.nodup_append]
      refine ⟨t.keyed, List.nodup_singleton _, ?_⟩
      intro a ha b hb
      obtain ⟨s, hs, rfl⟩ := List.mem_map.mp ha
      obtain rfl := List.mem_singleton.mp hb
      exact find_eq_none.mp h s hs⟩
  else t

def update (t : Table key) (p : ρ → Bool) (f : ρ → ρ) (hf : ∀ r, key (f r) = key r) : Table key :=
  ⟨t.rows.map fun r => if p r then f r else r, by
    rw [List.map_map, List.map_congr_left (g := key)]
    · exact t.keyed
    · intro r _
      by_cases h : p r <;> simp [h, hf]⟩

def delete (t : Table key) (p : ρ → Bool) : Table key :=
  ⟨t.rows.filter fun r => !p r, t.keyed.sublist (List.filter_sublist.map key)⟩

@[simp] theorem find_empty (k : κ) : (empty : Table key).find k = none := rfl

theorem insert_rows {t : Table key} {r : ρ} (h : t.find (key r) = none) : (t.insert r).rows = t.rows ++ [r] := by
  simp [insert, h]

theorem find_insert {t : Table key} {r : ρ} (h : t.find (key r) = none) (k : κ) :
    (t.insert r).find k = if key r = k then some r else t.find k := by
  rw [find, insert_rows h, List.find?_append]
  by_cases hk : key r = k
  · subst hk
    rw [if_pos rfl]
    have hnone : t.rows.find? (key · = key r) = none := h
    simp [hnone]
  · simp [hk, find]

theorem find_update (t : Table key) (p : ρ → Bool) (f : ρ → ρ) (hf : ∀ r, key (f r) = key r) (k : κ) :
    (t.update p f hf).find k = (t.find k).map fun r => if p r then f r else r := by
  have hkey : ((fun r => decide (key r = k)) ∘ fun r => if p r then f r else r) = fun r => decide (key r = k) := by
    funext r
    by_cases h : p r <;> simp [h, hf]
  simp only [find, update, List.find?_map]
  rw [hkey]

/-- An update leaves a row alone that it does not match. -/
theorem find_update_other {t : Table key} {p : ρ → Bool} {f : ρ → ρ} (hf : ∀ r, key (f r) = key r) {k : κ}
    (h : ∀ r, t.find k = some r → p r = false) : (t.update p f hf).find k = t.find k := by
  rw [find_update]
  cases hk : t.find k with
  | none => rfl
  | some r => simp [h r hk]

theorem find_update_key (t : Table key) (f : ρ → ρ) (hf : ∀ r, key (f r) = key r) (k k' : κ) :
    (t.update (fun r => key r = k) f hf).find k' = if k' = k then (t.find k').map f else t.find k' := by
  rw [find_update]
  cases h : t.find k' with
  | none => simp
  | some r =>
      obtain rfl := key_of_find h
      by_cases hk : key r = k <;> simp [hk]

theorem find_delete (t : Table key) (p : ρ → Bool) (k : κ) :
    (t.delete p).find k = (t.find k).filter fun r => !p r := by
  refine Option.ext fun r => ?_
  rw [find_eq_some, Option.filter_eq_some_iff, find_eq_some, delete, List.mem_filter]
  tauto

theorem find_delete_other {t : Table key} {p : ρ → Bool} {k : κ} (h : ∀ r, t.find k = some r → p r = false) :
    (t.delete p).find k = t.find k := by
  rw [find_delete]
  cases hk : t.find k with
  | none => rfl
  | some r => simp [h r hk]

omit [DecidableEq κ] in
theorem count_update_le {t : Table key} {p q : ρ → Bool} {f : ρ → ρ} (hf : ∀ r, key (f r) = key r)
    (h : ∀ r ∈ t.rows, p r = true → q (f r) = true → q r = true) : (t.update p f hf).count q ≤ t.count q := by
  rw [count, count, update, List.countP_map]
  refine List.countP_mono_left fun r hr hq => ?_
  by_cases hp : p r
  · exact h r hr hp (by simpa [hp] using hq)
  · simpa [hp] using hq

omit [DecidableEq κ] in
theorem count_delete_le (t : Table key) (p q : ρ → Bool) : (t.delete p).count q ≤ t.count q :=
  List.filter_sublist.countP_le

theorem count_insert {t : Table key} {r : ρ} (h : t.find (key r) = none) (q : ρ → Bool) :
    (t.insert r).count q = t.count q + if q r then 1 else 0 := by
  simp [count, insert_rows h, List.countP_append, List.countP_singleton]

theorem length_le_count {t : Table key} {p : ρ → Bool} {keys : List κ} (hkeys : keys.Nodup)
    (h : ∀ k ∈ keys, ∃ r, t.find k = some r ∧ p r = true) : keys.length ≤ t.rows.countP p := by
  have hsub : keys ⊆ (t.rows.filter p).map key := by
    intro k hk
    obtain ⟨r, hr, hp⟩ := h k hk
    obtain ⟨hmem, rfl⟩ := find_eq_some.mp hr
    exact List.mem_map_of_mem (List.mem_filter.mpr ⟨hmem, hp⟩)
  have hle := (hkeys.subperm hsub).length_le
  rwa [List.length_map, ← List.countP_eq_length_filter] at hle

theorem mem_insert {t : Table key} {r x : ρ} (h : x ∈ (t.insert r).rows) :
    x ∈ t.rows ∨ (x = r ∧ t.find (key r) = none) := by
  by_cases hnone : t.find (key r) = none
  · rw [insert_rows hnone] at h
    rcases List.mem_append.mp h with h | h
    · exact .inl h
    · exact .inr ⟨List.mem_singleton.mp h, hnone⟩
  · exact .inl (by simpa [insert, hnone] using h)

theorem subset_insert (t : Table key) (r : ρ) {x : ρ} (hx : x ∈ t.rows) : x ∈ (t.insert r).rows := by
  by_cases hnone : t.find (key r) = none
  · rw [insert_rows hnone]
    exact List.mem_append_left _ hx
  · simpa [insert, hnone] using hx

theorem exists_key_insert (t : Table key) (r : ρ) {P : ρ → Prop} (hP : ∀ x, key x = key r → P x) :
    ∃ x ∈ (t.insert r).rows, P x := by
  cases h : t.find (key r) with
  | none =>
      rw [insert_rows h]
      exact ⟨r, List.mem_append_right _ (List.mem_singleton_self r), hP r rfl⟩
  | some x =>
      obtain ⟨hx, hk⟩ := find_eq_some.mp h
      exact ⟨x, subset_insert t r hx, hP x hk⟩

/-- In a table that is its own key, an insert adds exactly its row. -/
theorem mem_insert_iff_of_id [DecidableEq ρ] {t : Table (id : ρ → ρ)} {r x : ρ} :
    x ∈ (t.insert r).rows ↔ x ∈ t.rows ∨ x = r := by
  constructor
  · intro h
    exact (mem_insert h).imp_right And.left
  · rintro (h | rfl)
    · exact subset_insert t r h
    · obtain ⟨y, hy, rfl⟩ := exists_key_insert t x fun y (hy : id y = id x) => hy
      exact hy

def least (le : ρ → ρ → Bool) : List ρ → Option ρ
  | [] => none
  | r :: rest =>
      match least le rest with
      | none => some r
      | some s => if le r s then some r else some s

theorem mem_of_least {le : ρ → ρ → Bool} {rows : List ρ} {r : ρ} (h : least le rows = some r) : r ∈ rows := by
  induction rows generalizing r with
  | nil => cases h
  | cons first rest ih =>
      rw [least] at h
      cases hl : least le rest with
      | none =>
          simp only [hl, Option.some.injEq] at h
          exact h ▸ List.mem_cons_self
      | some s =>
          simp only [hl] at h
          split at h
          · exact Option.some.inj h ▸ List.mem_cons_self
          · exact List.mem_cons_of_mem _ (ih (h ▸ hl))

end Table

abbrev Entries (κ α : Type) := Table (Prod.fst : κ × α → κ)

namespace Entries

variable {κ α : Type} [DecidableEq κ]

def get (t : Entries κ α) (k : κ) : Option α := (t.find k).map Prod.snd

def set (t : Entries κ α) (k : κ) (a : α) : Entries κ α := t.update (·.1 = k) (fun r => (r.1, a)) fun _ => rfl

def remove (t : Entries κ α) (k : κ) : Entries κ α := t.delete (·.1 = k)

theorem get_set (t : Entries κ α) (k k' : κ) (a : α) :
    (t.set k a).get k' = if k' = k then (t.get k').map fun _ => a else t.get k' := by
  rw [get, get, set, Table.find_update]
  cases h : t.find k' with
  | none => simp
  | some r =>
      have hkey : r.1 = k' := Table.key_of_find h
      by_cases hk : k' = k <;> simp [hkey, hk]

theorem get_set_self {t : Entries κ α} {k : κ} {a b : α} (h : t.get k = some b) : (t.set k a).get k = some a := by
  rw [get_set, if_pos rfl, h]
  rfl

theorem get_set_other {t : Entries κ α} {k k' : κ} (a : α) (h : k' ≠ k) : (t.set k a).get k' = t.get k' := by
  rw [get_set, if_neg h]

theorem get_remove (t : Entries κ α) (k k' : κ) : (t.remove k).get k' = if k' = k then none else t.get k' := by
  rw [get, get, remove, Table.find_delete]
  cases h : t.find k' with
  | none => simp
  | some r =>
      obtain ⟨key, a⟩ := r
      obtain rfl : key = k' := Table.key_of_find h
      by_cases hk : key = k <;> simp [hk]

end Entries

end Galadril.Lib

namespace Galadril.Lib.Table

variable {ρ κ : Type} [DecidableEq κ] {key : ρ → κ} (weight : ρ → Nat)

def total (t : Table key) : Nat := (t.rows.map weight).sum

omit [DecidableEq κ] in
@[simp] theorem total_empty : (empty : Table key).total weight = 0 := rfl

theorem delete_of_find_none {t : Table key} {k : κ} (h : t.find k = none) : (t.delete fun r => key r = k).rows = t.rows := by
  apply List.filter_eq_self.mpr
  intro r hr
  simpa using find_eq_none.mp h r hr

theorem total_delete {t : Table key} {k : κ} {r : ρ} (h : t.find k = some r) :
    (t.delete fun x => key x = k).total weight + weight r = t.total weight ∧
      (t.delete fun x => key x = k).rows.length + 1 = t.rows.length := by
  obtain ⟨hr, rfl⟩ := find_eq_some.mp h
  obtain ⟨before, after, hrows⟩ := List.append_of_mem hr
  have hkeyed := t.keyed
  rw [hrows, List.map_append, List.map_cons, List.nodup_middle, List.nodup_cons] at hkeyed
  have hothers : ∀ x ∈ before ++ after, (!decide (key x = key r)) = true := by
    intro x hx
    have hne : key x ≠ key r := by
      intro he
      apply hkeyed.1
      rw [← he, ← List.map_append]
      exact List.mem_map_of_mem hx
    simpa using hne
  have hbefore : before.filter (fun x => !decide (key x = key r)) = before :=
    List.filter_eq_self.mpr fun x hx => hothers x (List.mem_append_left _ hx)
  have hafter : after.filter (fun x => !decide (key x = key r)) = after :=
    List.filter_eq_self.mpr fun x hx => hothers x (List.mem_append_right _ hx)
  have hleft : (t.delete fun x => key x = key r).rows = before ++ after := by
    simp [delete, hrows, hbefore, hafter]
  constructor
  · simp [total, hleft, hrows]
    omega
  · simp [hleft, hrows]
    omega

theorem total_insert {t : Table key} {r : ρ} (h : t.find (key r) = none) :
    (t.insert r).total weight = t.total weight + weight r := by
  simp [total, insert_rows h]

end Galadril.Lib.Table
