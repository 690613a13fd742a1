import Mathlib

namespace Galadril.Lib.Markers

variable {α : Type}

/-- A text after which a marker follows does not contain the marker yet, not
even together with a part of the one that follows. -/
def Leads (mark before : List α) : Prop := ¬ mark <:+: before ++ mark.dropLast

instance [DecidableEq α] (mark before : List α) : Decidable (Leads mark before) := inferInstanceAs (Decidable (¬ _))

theorem leads_prefix (mark before after : List α) : before ++ mark.dropLast <+: before ++ mark ++ after := by
  rw [List.append_assoc]
  exact (List.prefix_append_right_inj _).mpr ((List.dropLast_prefix mark).trans (List.prefix_append _ _))

theorem leads_nil {mark : List α} (h : mark ≠ []) : Leads mark [] := by
  intro hinfix
  have hlength := hinfix.length_le
  have hpos := List.length_pos_iff.mpr h
  rw [List.nil_append, List.length_dropLast] at hlength
  omega

theorem leads_le {mark before before' after after' : List α} (h : before ++ mark ++ after = before' ++ mark ++ after')
    (hmark : mark ≠ []) (hleads : Leads mark before') : before'.length ≤ before.length := by
  by_contra hlt
  have hpos := List.length_pos_iff.mpr hmark
  have hshort : before ++ mark <+: before' ++ mark.dropLast := by
    refine List.prefix_of_prefix_length_le (List.prefix_append _ after) ?_ ?_
    · rw [h]
      exact leads_prefix ..
    · rw [List.length_append, List.length_append, List.length_dropLast]
      omega
  exact hleads ((List.suffix_append before mark).isInfix.trans hshort.isInfix)

theorem leads_unique {mark before before' after after' : List α} (h : before ++ mark ++ after = before' ++ mark ++ after')
    (hmark : mark ≠ []) (hleads : Leads mark before) (hleads' : Leads mark before') : before = before' ∧ after = after' := by
  have hlength : before.length = before'.length := le_antisymm (leads_le h.symm hmark hleads) (leads_le h hmark hleads')
  obtain ⟨hbefore, hafter⟩ := List.append_inj h (by rw [List.length_append, List.length_append, hlength])
  exact ⟨(List.append_inj hbefore hlength).1, hafter⟩

variable [DecidableEq α]

def cut (mark : List α) : List α → Option (List α × List α)
  | [] => if mark = [] then some ([], []) else none
  | a :: text =>
      if mark <+: a :: text then some ([], (a :: text).drop mark.length)
      else (cut mark text).map fun p => (a :: p.1, p.2)

theorem cut_some {mark text before after : List α} (h : mark ≠ []) (hcut : cut mark text = some (before, after)) :
    text = before ++ mark ++ after ∧ Leads mark before := by
  induction text generalizing before with
  | nil => simp [cut, h] at hcut
  | cons a text ih =>
      rw [cut] at hcut
      split at hcut
      next hfirst =>
        obtain ⟨rfl, rfl⟩ := Prod.mk.inj (Option.some.inj hcut)
        obtain ⟨rest, hrest⟩ := hfirst
        refine ⟨?_, leads_nil h⟩
        rw [← hrest, List.drop_left, List.nil_append]
      next hfirst =>
        obtain ⟨⟨before', after'⟩, hcut', hp⟩ := Option.map_eq_some_iff.mp hcut
        obtain ⟨rfl, rfl⟩ := Prod.mk.inj hp
        obtain ⟨rfl, hleads⟩ := ih hcut'
        refine ⟨by simp, fun hinfix => ?_⟩
        rcases List.infix_cons_iff.mp hinfix with hp | hinfix
        · have hrest : before' ++ mark.dropLast <+: before' ++ mark ++ after' := leads_prefix ..
          exact hfirst (hp.trans (List.cons_prefix_cons.mpr ⟨rfl, hrest⟩))
        · exact hleads hinfix

theorem cut_none {mark text : List α} (h : mark ≠ []) (hcut : cut mark text = none) : ¬ mark <:+: text := by
  induction text with
  | nil => simpa using h
  | cons a text ih =>
      rw [cut] at hcut
      split at hcut
      next => cases hcut
      next hfirst =>
        intro hinfix
        rcases List.infix_cons_iff.mp hinfix with hp | hinfix
        · exact hfirst hp
        · exact ih (Option.map_eq_none_iff.mp hcut) hinfix

theorem cut_eq_some {mark text before after : List α} (h : mark ≠ []) :
    cut mark text = some (before, after) ↔ text = before ++ mark ++ after ∧ Leads mark before := by
  refine ⟨cut_some h, ?_⟩
  rintro ⟨rfl, hleads⟩
  cases hcut : cut mark (before ++ mark ++ after) with
  | none => exact absurd ⟨before, after, rfl⟩ (cut_none h hcut)
  | some p =>
      obtain ⟨hp, hleads'⟩ := cut_some h hcut
      obtain ⟨hbefore, hafter⟩ := leads_unique hp h hleads hleads'
      rw [hbefore, hafter]

theorem cut_eq_none {mark text : List α} (h : mark ≠ []) : cut mark text = none ↔ ¬ mark <:+: text := by
  refine ⟨cut_none h, fun hinfix => ?_⟩
  cases hcut : cut mark text with
  | none => rfl
  | some p =>
      obtain ⟨hp, -⟩ := cut_some h hcut
      exact absurd ⟨p.1, p.2, hp.symm⟩ hinfix

end Galadril.Lib.Markers
