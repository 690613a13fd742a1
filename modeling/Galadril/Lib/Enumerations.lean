import Mathlib

namespace Galadril.Lib.Enumerations

variable {ι α : Type}

/-- A list with one entry, under its own address, for each thing that a
predicate selects. -/
structure Enumerates (P : ι → α → Prop) (entries : List (ι × α)) : Prop where
  addresses : (entries.map Prod.fst).Nodup
  mem : ∀ i a, (i, a) ∈ entries ↔ P i a

def total (weight : α → Nat) (entries : List (ι × α)) : Nat := (entries.map fun p => weight p.2).sum

variable {P Q : ι → α → Prop} {entries others : List (ι × α)}

@[simp] theorem total_nil (weight : α → Nat) : total weight ([] : List (ι × α)) = 0 := rfl

@[simp] theorem total_cons (weight : α → Nat) (p : ι × α) (entries : List (ι × α)) :
    total weight (p :: entries) = weight p.2 + total weight entries := by
  simp [total]

@[simp] theorem total_append (weight : α → Nat) (entries others : List (ι × α)) :
    total weight (entries ++ others) = total weight entries + total weight others := by
  simp [total]

@[simp] theorem total_readdress {κ : Type} (weight : α → Nat) (f : ι → κ) (entries : List (ι × α)) :
    total weight (entries.map fun p => (f p.1, p.2)) = total weight entries := by
  simp only [total, List.map_map, Function.comp_def]

theorem enumerates_nil : Enumerates (fun (_ : ι) (_ : α) => False) [] := ⟨List.nodup_nil, by simp⟩

theorem Enumerates.congr (h : Enumerates P entries) (hPQ : ∀ i a, P i a ↔ Q i a) : Enumerates Q entries :=
  ⟨h.addresses, fun i a => (h.mem i a).trans (hPQ i a)⟩

theorem Enumerates.append (h : Enumerates P entries) (h' : Enumerates Q others)
    (hdisjoint : ∀ i a b, P i a → ¬ Q i b) : Enumerates (fun i a => P i a ∨ Q i a) (entries ++ others) := by
  refine ⟨?_, fun i a => by rw [List.mem_append, h.mem, h'.mem]⟩
  rw [List.map_append, List.nodup_append]
  refine ⟨h.addresses, h'.addresses, ?_⟩
  rintro _ hi _ hj rfl
  obtain ⟨⟨i, a⟩, ha, rfl⟩ := List.mem_map.mp hi
  obtain ⟨⟨j, b⟩, hb, rfl⟩ := List.mem_map.mp hj
  exact hdisjoint _ a b ((h.mem _ a).mp ha) ((h'.mem _ b).mp hb)

theorem Enumerates.cons (h : Enumerates P entries) {i : ι} {a : α} (hnew : ∀ b, ¬ P i b) :
    Enumerates (fun j b => (j = i ∧ b = a) ∨ P j b) ((i, a) :: entries) := by
  refine ⟨?_, fun j b => by rw [List.mem_cons, Prod.mk.injEq, h.mem]⟩
  rw [List.map_cons, List.nodup_cons]
  refine ⟨fun hi => ?_, h.addresses⟩
  obtain ⟨⟨j, b⟩, hb, rfl⟩ := List.mem_map.mp hi
  exact hnew b ((h.mem _ b).mp hb)

theorem Enumerates.readdress {κ : Type} (h : Enumerates P entries) {f : ι → κ} (hf : Function.Injective f) :
    Enumerates (fun k a => ∃ i, k = f i ∧ P i a) (entries.map fun p => (f p.1, p.2)) := by
  constructor
  · have hmap : (entries.map fun p => (f p.1, p.2)).map Prod.fst = (entries.map Prod.fst).map f := by
      simp only [List.map_map, Function.comp_def]
    rw [hmap]
    exact h.addresses.map hf
  · intro k a
    simp only [List.mem_map, Prod.mk.injEq, Prod.exists]
    constructor
    · rintro ⟨i, b, hb, rfl, rfl⟩
      exact ⟨i, rfl, (h.mem i b).mp hb⟩
    · rintro ⟨i, rfl, hP⟩
      exact ⟨i, a, (h.mem i a).mpr hP, rfl, rfl⟩

end Galadril.Lib.Enumerations
