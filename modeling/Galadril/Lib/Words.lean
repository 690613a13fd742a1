import Mathlib

namespace Galadril.Lib.Words

variable {α : Type} {p : α → Bool}

def words (p : α → Bool) (text : List α) : List (List α) := (text.splitOnP p).filter fun word => !word.isEmpty

@[simp] theorem words_nil : words p [] = [] := by simp [words]

theorem words_append_cons {c : α} (hc : p c = true) (x y : List α) : words p (x ++ c :: y) = words p x ++ words p y := by
  rw [words, List.splitOnP_append_cons x y hc, List.filter_append]
  rfl

theorem words_cons {c : α} (hc : p c = true) (y : List α) : words p (c :: y) = words p y := by
  simpa using words_append_cons hc [] y

theorem words_gap {gap : List α} (h : ∀ c ∈ gap, p c = true) (text : List α) : words p (gap ++ text) = words p text := by
  induction gap with
  | nil => rfl
  | cons c gap ih =>
      rw [List.cons_append, words_cons (h c List.mem_cons_self)]
      exact ih fun d hd => h d (List.mem_cons_of_mem _ hd)

theorem words_append_gap {gap : List α} (h : ∀ c ∈ gap, p c = true) (text : List α) : words p (text ++ gap) = words p text := by
  cases gap with
  | nil => rw [List.append_nil]
  | cons c gap =>
      have hgap := words_gap (fun d hd => h d (List.mem_cons_of_mem _ hd)) []
      rw [words_append_cons (h c List.mem_cons_self)]
      simpa using hgap

theorem words_single {word : List α} (hne : word ≠ []) (h : ∀ c ∈ word, p c = false) : words p word = [word] := by
  rw [words, List.splitOnP_eq_singleton (by simpa using h)]
  simp [hne]

inductive Laid (p : α → Bool) : List (List α × List α) → Prop
  | nil : Laid p []
  | cons {word gap : List α} {rest : List (List α × List α)} (hne : word ≠ []) (hword : ∀ c ∈ word, p c = false)
      (hgap : ∀ c ∈ gap, p c = true) (hlast : gap = [] → rest = []) (h : Laid p rest) : Laid p ((word, gap) :: rest)

def spelled (pairs : List (List α × List α)) : List α := pairs.flatMap fun x => x.1 ++ x.2

@[simp] theorem spelled_nil : spelled ([] : List (List α × List α)) = [] := rfl

@[simp] theorem spelled_cons (x : List α × List α) (rest : List (List α × List α)) :
    spelled (x :: rest) = x.1 ++ x.2 ++ spelled rest := rfl

theorem spelled_append (xs ys : List (List α × List α)) : spelled (xs ++ ys) = spelled xs ++ spelled ys :=
  List.flatMap_append

theorem Laid.right {xs ys : List (List α × List α)} (h : Laid p (xs ++ ys)) : Laid p ys := by
  induction xs with
  | nil => exact h
  | cons x xs ih =>
      cases h with
      | cons _ _ _ _ h => exact ih h

theorem Laid.left {xs ys : List (List α × List α)} (h : Laid p (xs ++ ys)) : Laid p xs := by
  induction xs with
  | nil => exact .nil
  | cons x xs ih =>
      cases h with
      | cons hne hword hgap hlast h =>
          exact .cons hne hword hgap (fun hnil => (List.append_eq_nil_iff.mp (hlast hnil)).1) (ih h)

theorem Laid.words {pairs : List (List α × List α)} (h : Laid p pairs) : words p (spelled pairs) = pairs.map Prod.fst := by
  induction h with
  | nil => simp
  | @cons word gap rest hne hword hgap hlast h ih =>
      rw [spelled_cons, List.map_cons, ← ih]
      cases gap with
      | nil =>
          rw [hlast rfl]
          simpa using words_single hne hword
      | cons c gap =>
          have hrest := words_gap (fun d hd => hgap d (List.mem_cons_of_mem _ hd)) (spelled rest)
          rw [List.append_assoc, List.cons_append, words_append_cons (hgap c List.mem_cons_self), words_single hne hword, hrest]
          rfl

theorem exists_laid (p : α → Bool) (text : List α) :
    ∃ gap pairs, (∀ c ∈ gap, p c = true) ∧ Laid p pairs ∧ text = gap ++ spelled pairs := by
  induction text with
  | nil => exact ⟨[], [], by simp, .nil, rfl⟩
  | cons c text ih =>
      obtain ⟨gap, pairs, hgap, hlaid, rfl⟩ := ih
      cases hc : p c with
      | true =>
          refine ⟨c :: gap, pairs, fun d hd => ?_, hlaid, rfl⟩
          rcases List.mem_cons.mp hd with rfl | hd
          · exact hc
          · exact hgap d hd
      | false =>
          cases gap with
          | cons d gap =>
              refine ⟨[], ([c], d :: gap) :: pairs, by simp, .cons (by simp) (by simpa using hc) hgap (by simp) hlaid, rfl⟩
          | nil =>
              cases hlaid with
              | nil => exact ⟨[], [([c], [])], by simp, .cons (by simp) (by simpa using hc) (by simp) (fun _ => rfl) .nil, rfl⟩
              | @cons word gap rest hne hword hgap hlast h =>
                  refine ⟨[], (c :: word, gap) :: rest, by simp, .cons (by simp) (fun d hd => ?_) hgap hlast h, rfl⟩
                  rcases List.mem_cons.mp hd with rfl | hd
                  · exact hc
                  · exact hword d hd

end Galadril.Lib.Words
