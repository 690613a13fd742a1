import Mathlib

namespace Galadril.Lib.Framing

variable {α : Type} [DecidableEq α] (sep : α)

def cut : List α → List (List α) × List α
  | [] => ([], [])
  | a :: rest =>
      if a = sep then ([] :: (cut rest).1, (cut rest).2)
      else
        match (cut rest).1 with
        | [] => ([], a :: (cut rest).2)
        | frame :: frames => ((a :: frame) :: frames, (cut rest).2)

def leading (pieces : List (List α) × List α) : List α := pieces.1.head?.getD pieces.2

variable {sep}

theorem cut_cons_of_ne {a : α} (h : a ≠ sep) (rest : List α) :
    cut sep (a :: rest) = match (cut sep rest).1 with
      | [] => ([], a :: (cut sep rest).2)
      | frame :: frames => ((a :: frame) :: frames, (cut sep rest).2) := by
  rw [cut, if_neg h]

@[simp] theorem cut_sep (rest : List α) : cut sep (sep :: rest) = ([] :: (cut sep rest).1, (cut sep rest).2) := by
  rw [cut, if_pos rfl]

theorem cut_append_sep {buffer : List α} (h : sep ∉ buffer) (rest : List α) :
    cut sep (buffer ++ sep :: rest) = (buffer :: (cut sep rest).1, (cut sep rest).2) := by
  induction buffer with
  | nil => exact cut_sep rest
  | cons a buffer ih =>
      rw [List.mem_cons, not_or] at h
      rw [List.cons_append, cut_cons_of_ne (Ne.symm h.1), ih h.2]

theorem cut_unframed {buffer : List α} (h : sep ∉ buffer) : cut sep buffer = ([], buffer) := by
  induction buffer with
  | nil => rfl
  | cons a buffer ih =>
      rw [List.mem_cons, not_or] at h
      rw [cut_cons_of_ne (Ne.symm h.1), ih h.2]

theorem leading_cons {a : α} (h : a ≠ sep) (rest : List α) : leading (cut sep (a :: rest)) = a :: leading (cut sep rest) := by
  rw [cut_cons_of_ne h, leading, leading]
  cases (cut sep rest).1 <;> rfl

/-- A beginning without separators lies in one frame. -/
theorem leading_append {buffer : List α} (h : sep ∉ buffer) (rest : List α) :
    leading (cut sep (buffer ++ rest)) = buffer ++ leading (cut sep rest) := by
  induction buffer with
  | nil => rfl
  | cons a buffer ih =>
      rw [List.mem_cons, not_or] at h
      rw [List.cons_append, leading_cons (Ne.symm h.1), ih h.2, List.cons_append]

end Galadril.Lib.Framing
