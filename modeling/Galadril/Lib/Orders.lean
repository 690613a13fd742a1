import Mathlib

namespace Galadril.Lib.Orders

variable {κ α β : Type} {F : κ → List α}

def Commuting (keys : List κ) (F : κ → List α) : Prop := ∀ a ∈ keys, ∀ b ∈ keys, F a ++ F b = F b ++ F a

theorem Commuting.perm {keys keys' : List κ} (h : Commuting keys F) (hperm : keys.Perm keys') : Commuting keys' F :=
  fun a ha b hb => h a (hperm.mem_iff.mpr ha) b (hperm.mem_iff.mpr hb)

/-- Parts that commute are put together alike in every order. -/
theorem flatMap_perm {order order' : List κ} (hperm : order.Perm order') (h : Commuting order F) :
    order.flatMap F = order'.flatMap F := by
  induction hperm with
  | nil => rfl
  | cons a _ ih =>
      rw [List.flatMap_cons, List.flatMap_cons, ih fun b hb c hc => h b (List.mem_cons_of_mem _ hb) c (List.mem_cons_of_mem _ hc)]
  | swap a b order =>
      rw [List.flatMap_cons, List.flatMap_cons, List.flatMap_cons, List.flatMap_cons, ← List.append_assoc, ← List.append_assoc,
        h b List.mem_cons_self a (List.mem_cons_of_mem _ List.mem_cons_self)]
  | trans hfirst _ ih ih' => exact (ih h).trans (ih' (h.perm hfirst))

theorem length_flatMap_perm {order order' : List κ} (hperm : order.Perm order') :
    (order.flatMap F).length = (order'.flatMap F).length := (hperm.flatMap_right F).length_eq

/-- The order does not matter just when the parts commute. -/
theorem flatMap_perm_iff [DecidableEq κ] {keys : List κ} :
    (∀ order order' : List κ, order.Perm keys → order'.Perm keys → order.flatMap F = order'.flatMap F) ↔ Commuting keys F := by
  constructor
  · intro h a ha b hb
    by_cases hab : a = b
    · rw [hab]
    have hb' : b ∈ keys.erase a := (List.mem_erase_of_ne (Ne.symm hab)).mpr hb
    have hfirst : keys.Perm (a :: b :: (keys.erase a).erase b) :=
      (List.perm_cons_erase ha).trans ((List.perm_cons_erase hb').cons a)
    have hsecond : keys.Perm (b :: a :: (keys.erase a).erase b) := hfirst.trans (List.Perm.swap b a _)
    have hsame := h _ _ hfirst.symm hsecond.symm
    simp only [List.flatMap_cons, ← List.append_assoc] at hsame
    exact List.append_cancel_right hsame
  · intro h order order' horder horder'
    exact flatMap_perm (horder.trans horder'.symm) (h.perm horder.symm)

/-- Lists put together of parts of the same lengths are the same part by part. -/
theorem flatMap_eq_iff {f g : β → List α} {visits : List β} (hlength : ∀ v ∈ visits, (f v).length = (g v).length) :
    visits.flatMap f = visits.flatMap g ↔ ∀ v ∈ visits, f v = g v := by
  induction visits with
  | nil => simp
  | cons v visits ih =>
      rw [List.forall_mem_cons] at hlength ⊢
      rw [List.flatMap_cons, List.flatMap_cons]
      constructor
      · intro h
        obtain ⟨hfirst, hrest⟩ := List.append_inj h hlength.1
        exact ⟨hfirst, (ih hlength.2).mp hrest⟩
      · rintro ⟨hfirst, hrest⟩
        rw [hfirst, (ih hlength.2).mpr hrest]

/-- Parts that are images under an injection commute when the parts do. -/
theorem commuting_map {keys : List κ} {G : κ → List β} {f : β → α} (hf : Function.Injective f) :
    Commuting keys (fun k => (G k).map f) ↔ Commuting keys G := by
  unfold Commuting
  simp only [← List.map_append]
  exact ⟨fun h a ha b hb => hf.list_map (h a ha b hb), fun h a ha b hb => congrArg _ (h a ha b hb)⟩

end Galadril.Lib.Orders
