import Galadril.Lib.Checked
import Galadril.Lib.DepthFirst

namespace Galadril.Lib.Arranging

open Relation Checked

variable {α κ : Type} [DecidableEq κ] (name : α → κ) (needs : α → List κ)

def ready (served : List κ) (item : α) : Bool := (needs item).all served.contains

/-- Repeatedly take the first item whose needs have been served. The first
argument bounds the rounds; items that have to wait forever are the error. -/
def arrange : Nat → List κ → List α → Except (List α) (List α)
  | _, _, [] => .ok []
  | 0, _, item :: items => .error (item :: items)
  | rounds + 1, served, item :: items =>
      match (item :: items).find? (ready needs served) with
      | none => .error (item :: items)
      | some next => do
          let rest ← arrange rounds (name next :: served) ((item :: items).eraseP (ready needs served))
          return next :: rest

section Order

variable {name needs}

theorem eraseP_perm {p : α → Bool} {items : List α} {next : α} (h : items.find? p = some next) :
    (next :: items.eraseP p).Perm items := by
  induction items with
  | nil => cases h
  | cons item items ih =>
      rw [List.find?_cons] at h
      cases hp : p item with
      | true =>
          rw [hp] at h
          cases h
          rw [List.eraseP_cons_of_pos hp]
      | false =>
          rw [hp] at h
          rw [List.eraseP_cons_of_neg (by simp [hp])]
          exact (List.Perm.swap item next _).trans ((ih h).cons item)

/-- An arrangement that has been found is the whole list, with every item after
what it needs. -/
theorem arrange_ok {rounds : Nat} {served : List κ} {items ordered : List α}
    (h : arrange name needs rounds served items = .ok ordered) :
    ordered.Perm items ∧ ∀ before item after, ordered = before ++ item :: after →
      ∀ k ∈ needs item, k ∈ served ∨ ∃ earlier ∈ before, name earlier = k := by
  induction rounds generalizing served items ordered with
  | zero =>
      cases items with
      | nil =>
          cases h
          exact ⟨.refl [], fun before item after he => by simp at he⟩
      | cons item items => cases h
  | succ rounds ih =>
      cases items with
      | nil =>
          cases h
          exact ⟨.refl [], fun before item after he => by simp at he⟩
      | cons item items =>
          rw [arrange] at h
          split at h
          next => cases h
          next next hnext =>
            obtain ⟨rest, hrest, hordered⟩ := bind_eq_ok.mp h
            obtain rfl := pure_eq_ok.mp hordered
            obtain ⟨hperm, hafter⟩ := ih hrest
            have hready : ready needs served next = true := List.find?_some hnext
            refine ⟨(hperm.cons next).trans (eraseP_perm hnext), fun before a after he k hk => ?_⟩
            rcases List.cons_eq_append_iff.mp he with ⟨rfl, hcons⟩ | ⟨before', rfl, hrest'⟩
            · cases hcons
              rw [ready, List.all_eq_true] at hready
              exact .inl (List.contains_iff_mem.mp (hready k hk))
            · rcases hafter before' a after hrest' k hk with hserved | ⟨earlier, hearlier, rfl⟩
              · rcases List.mem_cons.mp hserved with rfl | hserved
                · exact .inr ⟨next, List.mem_cons_self, rfl⟩
                · exact .inl hserved
              · exact .inr ⟨earlier, List.mem_cons_of_mem _ hearlier, rfl⟩

def Needs (name : α → κ) (needs : α → List κ) (items : List α) (x y : κ) : Prop := ∃ item ∈ items, name item = x ∧ y ∈ needs item

/-- Only a cycle stops the arrangement of a list in which every need is
present or has been served. -/
theorem arrange_accepts {rounds : Nat} {served : List κ} {items : List α} (hrounds : items.length ≤ rounds)
    (hclosed : ∀ item ∈ items, ∀ k ∈ needs item, k ∈ served ∨ k ∈ items.map name)
    (hacyclic : ∀ x, Acc (Function.swap (Needs name needs items)) x) :
      ∃ ordered, arrange name needs rounds served items = .ok ordered := by
  induction rounds generalizing served items with
  | zero =>
      obtain rfl := List.eq_nil_of_length_eq_zero (Nat.le_zero.mp hrounds)
      exact ⟨[], rfl⟩
  | succ rounds ih =>
      cases items with
      | nil => exact ⟨[], rfl⟩
      | cons first items =>
          -- the least name among the items needs only what has been served
          obtain ⟨next, hnext⟩ : ∃ next, (first :: items).find? (ready needs served) = some next := by
            by_contra hnone
            have hwait : ∀ item ∈ first :: items, ready needs served item = false := by
              intro item hitem
              rw [← Bool.not_eq_true]
              have hnothing : (first :: items).find? (ready needs served) = none := by
                rw [← Option.not_isSome_iff_eq_none, Option.isSome_iff_exists]
                exact hnone
              exact List.find?_eq_none.mp hnothing item hitem
            have hno : ∀ x, Acc (Function.swap (Needs name needs (first :: items))) x → x ∉ (first :: items).map name := by
              intro x hx
              induction hx with
              | intro x _ ih =>
                  intro hmem
                  obtain ⟨item, hitem, rfl⟩ := List.mem_map.mp hmem
                  have hfalse := hwait item hitem
                  rw [ready, List.all_eq_false] at hfalse
                  obtain ⟨k, hk, hout⟩ := hfalse
                  rcases hclosed item hitem k hk with hserved | hlisted
                  · exact hout (List.contains_iff_mem.mpr hserved)
                  · exact ih k ⟨item, hitem, rfl, hk⟩ hlisted
            exact hno (name first) (hacyclic _) (by simp)
          have hperm := eraseP_perm hnext
          have hsub : ∀ item ∈ (first :: items).eraseP (ready needs served), item ∈ first :: items :=
            fun item hitem => hperm.mem_iff.mp (List.mem_cons_of_mem _ hitem)
          have hrest : ∃ ordered, arrange name needs rounds (name next :: served) ((first :: items).eraseP (ready needs served)) =
              .ok ordered := by
            refine ih ?_ (fun item hitem k hk => ?_) fun x => ?_
            · have hlength := hperm.length_eq
              simp only [List.length_cons] at hlength hrounds
              omega
            · rcases hclosed item (hsub item hitem) k hk with hserved | hlisted
              · exact .inl (List.mem_cons_of_mem _ hserved)
              · obtain ⟨other, hother, rfl⟩ := List.mem_map.mp hlisted
                rcases List.mem_cons.mp (hperm.mem_iff.mpr hother) with rfl | hother
                · exact .inl List.mem_cons_self
                · exact .inr (List.mem_map_of_mem hother)
            · exact Subrelation.accessible (fun ⟨item, hitem, hx, hy⟩ => ⟨item, hsub item hitem, hx, hy⟩) (hacyclic x)
          obtain ⟨ordered, hordered⟩ := hrest
          refine ⟨next :: ordered, ?_⟩
          rw [arrange, hnext]
          simp only [hordered]
          rfl

omit [DecidableEq κ] in
theorem acc_of_no_cycle {items : List α} (h : ∀ x, ¬ TransGen (Needs name needs items) x x) (x : κ) :
    Acc (Function.swap (Needs name needs items)) x := by
  have htargets : ∀ a b, Function.swap (Needs name needs items) a b → b ∈ items.map name := by
    rintro a b ⟨item, hitem, rfl, -⟩
    exact List.mem_map_of_mem hitem
  exact Cycles.acc_of_acyclic htargets (fun a hcycle => h a (transGen_swap.mp hcycle)) x

theorem no_cycle_of_arrange {rounds : Nat} {items ordered : List α} (h : arrange name needs rounds [] items = .ok ordered)
    (hdistinct : (items.map name).Nodup) (x : κ) : ¬ TransGen (Needs name needs items) x x := by
  obtain ⟨hperm, hafter⟩ := arrange_ok h
  have hnames : (ordered.map name).Nodup := (hperm.map name).nodup_iff.mpr hdistinct
  have hindex : ∀ x y, Needs name needs items x y → (ordered.map name).idxOf y < (ordered.map name).idxOf x := by
    rintro x y ⟨item, hitem, rfl, hy⟩
    obtain ⟨before, after, rfl⟩ := List.append_of_mem (hperm.mem_iff.mpr hitem)
    rcases hafter before item after rfl y hy with hserved | ⟨earlier, hearlier, rfl⟩
    · cases hserved
    · rw [List.map_append, List.map_cons] at hnames ⊢
      have hout : name item ∉ before.map name := fun hm => (List.nodup_append.mp hnames).2.2 _ hm _ List.mem_cons_self rfl
      rw [List.idxOf_append_of_mem (List.mem_map_of_mem hearlier), List.idxOf_append_of_notMem hout]
      exact lt_of_lt_of_le (List.idxOf_lt_length_iff.mpr (List.mem_map_of_mem hearlier)) (Nat.le_add_right _ _)
  intro hcycle
  have hless : ∀ y, TransGen (Needs name needs items) x y → (ordered.map name).idxOf y < (ordered.map name).idxOf x := by
    intro y hxy
    induction hxy with
    | single hstep => exact hindex _ _ hstep
    | tail _ hstep ih => exact (hindex _ _ hstep).trans ih
  exact lt_irrefl _ (hless x hcycle)

end Order

end Galadril.Lib.Arranging
