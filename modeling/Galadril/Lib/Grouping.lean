import Galadril.Lib.Dictionary

namespace Galadril.Lib.Grouping

open Dictionary

variable {κ β : Type} [DecidableEq κ]

def valuesAt (k : κ) (entries : List (κ × β)) : List β := (entries.filter fun entry => entry.1 = k).map Prod.snd

def accumulate (entries : List (κ × β)) : List (κ × List β) :=
  entries.foldl (fun groups entry => assign entry.1 ((Dictionary.get entry.1 groups).getD [] ++ [entry.2]) groups) []

theorem valuesAt_ne_nil {k : κ} {entries : List (κ × β)} : valuesAt k entries ≠ [] ↔ k ∈ entries.map Prod.fst := by
  rw [valuesAt, ne_eq, List.map_eq_nil_iff, List.filter_eq_nil_iff]
  constructor
  · intro h
    by_contra hmem
    exact h fun entry hentry heq => hmem (List.mem_map.mpr ⟨entry, hentry, by simpa using heq⟩)
  · intro h hall
    obtain ⟨entry, hentry, rfl⟩ := List.mem_map.mp h
    exact hall entry hentry (by simp)

theorem get_foldl_accumulate (k : κ) (entries : List (κ × β)) (groups : List (κ × List β)) :
    Dictionary.get k (entries.foldl
      (fun groups entry => assign entry.1 ((Dictionary.get entry.1 groups).getD [] ++ [entry.2]) groups) groups) =
      if k ∈ entries.map Prod.fst then some ((Dictionary.get k groups).getD [] ++ valuesAt k entries)
        else Dictionary.get k groups := by
  induction entries generalizing groups with
  | nil => rfl
  | cons entry entries ih =>
      rw [List.foldl_cons, ih]
      by_cases hk : k = entry.1
      · subst hk
        have hvalues : valuesAt entry.1 (entry :: entries) = entry.2 :: valuesAt entry.1 entries := by simp [valuesAt]
        have hfirst : entry.1 ∈ (entry :: entries).map Prod.fst := List.mem_cons_self
        rw [get_assign_self, hvalues, if_pos hfirst, Option.getD_some, List.append_assoc, List.singleton_append]
        split
        · rfl
        · next hnot => rw [Classical.not_not.mp fun hne => hnot (valuesAt_ne_nil.mp hne)]
      · have hvalues : valuesAt k (entry :: entries) = valuesAt k entries := by simp [valuesAt, Ne.symm hk]
        rw [get_assign_ne hk]
        simp only [hvalues, List.map_cons, List.mem_cons, hk, false_or]

theorem get_accumulate (k : κ) (entries : List (κ × β)) :
    Dictionary.get k (accumulate entries) = if k ∈ entries.map Prod.fst then some (valuesAt k entries) else none :=
  get_foldl_accumulate k entries []

theorem get_isSome_iff {k : κ} {entries : List (κ × β)} : (Dictionary.get k entries).isSome ↔ k ∈ entries.map Prod.fst := by
  induction entries with
  | nil => simp
  | cons entry entries ih =>
      obtain ⟨x, w⟩ := entry
      rw [Dictionary.get, List.map_cons, List.mem_cons, ← ih]
      split
      · next hx => simp [hx]
      · next hx => simp [Ne.symm hx]

theorem mem_keys_accumulate {k : κ} {entries : List (κ × β)} :
    k ∈ (accumulate entries).map Prod.fst ↔ k ∈ entries.map Prod.fst := by
  rw [← get_isSome_iff, get_accumulate]
  split <;> simp [*]

/-- The values of a key among entries whose keys were renamed, without meeting
another key. -/
theorem valuesAt_rename {ι : Type} [DecidableEq ι] (f : κ → ι) {k : κ} {entries : List (κ × β)}
    (h : ∀ j ∈ entries.map Prod.fst, f j = f k → j = k) :
    valuesAt (f k) (entries.map fun entry => (f entry.1, entry.2)) = valuesAt k entries := by
  induction entries with
  | nil => rfl
  | cons entry entries ih =>
      rw [List.map_cons, List.forall_mem_cons] at h
      have hrest := ih h.2
      unfold valuesAt at hrest ⊢
      by_cases hk : entry.1 = k
      · simp [hk, hrest]
      · have hne : f entry.1 ≠ f k := fun heq => hk (h.1 heq)
        simp [hk, hne, hrest]

def tabulate (keys : List κ) (f : κ → β) (entries : List (κ × β)) : List (κ × β) :=
  keys.foldl (fun entries k => assign k (f k) entries) entries

theorem get_tabulate (k : κ) (keys : List κ) (f : κ → β) (entries : List (κ × β)) :
    Dictionary.get k (tabulate keys f entries) = if k ∈ keys then some (f k) else Dictionary.get k entries := by
  induction keys generalizing entries with
  | nil => rfl
  | cons j keys ih =>
      rw [show tabulate (j :: keys) f entries = tabulate keys f (assign j (f j) entries) from rfl, ih, get_assign]
      by_cases hk : k = j
      · simp [hk]
      · simp only [List.mem_cons, hk, false_or, if_false]

theorem mem_assign {k : κ} {v : β} {entries : List (κ × β)} {entry : κ × β} (h : entry ∈ assign k v entries) :
    entry = (k, v) ∨ entry ∈ entries := by
  induction entries with
  | nil => exact .inl (List.mem_singleton.mp h)
  | cons first entries ih =>
      obtain ⟨x, w⟩ := first
      rw [assign] at h
      split at h
      · next hx =>
        rcases List.mem_cons.mp h with rfl | hmem
        · exact .inl (by rw [hx])
        · exact .inr (List.mem_cons_of_mem _ hmem)
      · rcases List.mem_cons.mp h with rfl | hmem
        · exact .inr List.mem_cons_self
        · exact (ih hmem).imp id (List.mem_cons_of_mem _)

theorem mem_tabulate {keys : List κ} {f : κ → β} {entries : List (κ × β)} {entry : κ × β} (h : entry ∈ tabulate keys f entries) :
    (entry.1 ∈ keys ∧ entry.2 = f entry.1) ∨ entry ∈ entries := by
  induction keys generalizing entries with
  | nil => exact .inr h
  | cons j keys ih =>
      rcases ih h with ⟨hmem, hvalue⟩ | hmem
      · exact .inl ⟨List.mem_cons_of_mem _ hmem, hvalue⟩
      · rcases mem_assign hmem with rfl | hold
        · exact .inl ⟨List.mem_cons_self, rfl⟩
        · exact .inr hold

theorem get_map {γ : Type} (k : κ) (f : β → γ) (entries : List (κ × β)) :
    Dictionary.get k (entries.map fun entry => (entry.1, f entry.2)) = (Dictionary.get k entries).map f := by
  induction entries with
  | nil => rfl
  | cons entry entries ih =>
      obtain ⟨x, w⟩ := entry
      rw [List.map_cons, Dictionary.get, Dictionary.get, ih]
      split <;> rfl

section Assignments

variable {ι : Type} {name : ι → κ} {value : ι → β}

def assignAll (name : ι → κ) (value : ι → β) (things : List ι) (entries : List (κ × β)) : List (κ × β) :=
  things.foldl (fun entries i => assign (name i) (value i) entries) entries

theorem get_assignAll_of_ne {k : κ} {things : List ι} (h : ∀ i ∈ things, name i ≠ k) (entries : List (κ × β)) :
    Dictionary.get k (assignAll name value things entries) = Dictionary.get k entries := by
  induction things generalizing entries with
  | nil => rfl
  | cons i things ih =>
      rw [List.forall_mem_cons] at h
      rw [show assignAll name value (i :: things) entries = assignAll name value things
        (assign (name i) (value i) entries) from rfl,
        ih h.2, get_assign_ne (Ne.symm h.1)]

theorem get_assignAll {i : ι} {things : List ι} (hname : Function.Injective name) (hi : i ∈ things) (entries : List (κ × β)) :
    Dictionary.get (name i) (assignAll name value things entries) = some (value i) := by
  induction things generalizing entries with
  | nil => cases hi
  | cons j things ih =>
      rw [show assignAll name value (j :: things) entries = assignAll name value things
        (assign (name j) (value j) entries) from rfl]
      by_cases hmem : i ∈ things
      · exact ih hmem _
      · obtain rfl : i = j := (List.mem_cons.mp hi).resolve_right hmem
        rw [get_assignAll_of_ne, get_assign_self]
        intro j hj heq
        exact hmem (hname heq ▸ hj)

theorem mem_assignAll {things : List ι} {entries : List (κ × β)} {entry : κ × β} (h : entry ∈ assignAll name value things entries) :
    (∃ i ∈ things, entry = (name i, value i)) ∨ entry ∈ entries := by
  induction things generalizing entries with
  | nil => exact .inr h
  | cons i things ih =>
      rcases ih h with ⟨j, hj, rfl⟩ | hmem
      · exact .inl ⟨j, List.mem_cons_of_mem _ hj, rfl⟩
      · rcases mem_assign hmem with rfl | hold
        · exact .inl ⟨i, List.mem_cons_self, rfl⟩
        · exact .inr hold

theorem mem_drop {k : κ} {entries : List (κ × β)} {entry : κ × β} : entry ∈ drop k entries ↔ entry ∈ entries ∧ entry.1 ≠ k := by
  simp [drop]

end Assignments

end Galadril.Lib.Grouping
