import Mathlib

namespace Galadril.Lib.Pages

structure Page (α κ : Type) where
  items : List α
  after : Option κ

variable {ε α κ : Type} (call : Nat → Option κ → Except ε (Page α κ))

inductive Walk : Nat → Option κ → List (Page α κ) → Prop
  | last {k : Nat} {cursor : Option κ} {page : Page α κ} (hcall : call k cursor = .ok page) (hafter : page.after = none) :
      Walk k cursor [page]
  | next {k : Nat} {cursor : Option κ} {page : Page α κ} {next : κ} {pages : List (Page α κ)}
      (hcall : call k cursor = .ok page) (hafter : page.after = some next) (hrest : Walk (k + 1) (some next) pages) :
      Walk k cursor (page :: pages)

def Yields (k : Nat) (cursor : Option κ) (items : List α) : Prop :=
  ∃ pages, Walk call k cursor pages ∧ pages.flatMap Page.items = items

variable {call}

theorem yields_last {k : Nat} {cursor : Option κ} {page : Page α κ} (hcall : call k cursor = .ok page)
    (hafter : page.after = none) : Yields call k cursor page.items := by
  exact ⟨[page], .last hcall hafter, by simp⟩

/-- A page with a cursor leaves the rest to the calls behind it. -/
theorem yields_next {k : Nat} {cursor : Option κ} {page : Page α κ} {next : κ} (hcall : call k cursor = .ok page)
    (hafter : page.after = some next) {items : List α} :
    Yields call k cursor (page.items ++ items) ↔ Yields call (k + 1) (some next) items := by
  constructor
  · rintro ⟨pages, hwalk, hitems⟩
    cases hwalk with
    | last hcall' hafter' =>
        rw [hcall] at hcall'
        cases hcall'
        rw [hafter] at hafter'
        cases hafter'
    | next hcall' hafter' hrest =>
        rw [hcall] at hcall'
        cases hcall'
        rw [hafter] at hafter'
        cases hafter'
        exact ⟨_, hrest, List.append_cancel_left hitems⟩
  · rintro ⟨pages, hrest, rfl⟩
    exact ⟨page :: pages, .next hcall hafter hrest, rfl⟩

theorem not_yields_of_error {k : Nat} {cursor : Option κ} {e : ε} (hcall : call k cursor = .error e) (items : List α) :
    ¬ Yields call k cursor items := by
  rintro ⟨pages, hwalk, -⟩
  cases hwalk with
  | last hcall' _ => simp [hcall] at hcall'
  | next hcall' _ _ => simp [hcall] at hcall'

theorem Yields.unique {k : Nat} {cursor : Option κ} {items items' : List α} (h : Yields call k cursor items)
    (h' : Yields call k cursor items') : items = items' := by
  obtain ⟨pages, hwalk, rfl⟩ := h
  induction hwalk generalizing items' with
  | last hcall hafter =>
      obtain ⟨_, hwalk', rfl⟩ := h'
      cases hwalk' with
      | last hcall' _ =>
          rw [hcall] at hcall'
          cases hcall'
          rfl
      | next hcall' hafter' _ =>
          rw [hcall] at hcall'
          cases hcall'
          rw [hafter] at hafter'
          cases hafter'
  | next hcall hafter hrest ih =>
      obtain ⟨_, hwalk', rfl⟩ := h'
      cases hwalk' with
      | last hcall' hafter' =>
          rw [hcall] at hcall'
          cases hcall'
          rw [hafter] at hafter'
          cases hafter'
      | next hcall' hafter' hrest' =>
          rw [hcall] at hcall'
          cases hcall'
          rw [hafter] at hafter'
          cases hafter'
          rw [List.flatMap_cons, List.flatMap_cons, ih ⟨_, hrest', rfl⟩]

/-- Cursors that stand for what is left make a walk complete, given that every
call brings its end closer. -/
theorem yields_of_stands (Stands : Option κ → List α → Nat → Prop)
    (hcall : ∀ k cursor items n, Stands cursor items n → ∃ page, call k cursor = .ok page ∧
      ((page.after = none ∧ page.items = items) ∨
        ∃ next rest m, page.after = some next ∧ Stands (some next) rest m ∧ m < n ∧ items = page.items ++ rest))
    {cursor : Option κ} {items : List α} {n : Nat} (h : Stands cursor items n) (k : Nat) : Yields call k cursor items := by
  induction n using Nat.strong_induction_on generalizing cursor items k with
  | _ n ih =>
      obtain ⟨page, hpage, ⟨hafter, rfl⟩ | ⟨next, rest, m, hafter, hnext, hm, rfl⟩⟩ := hcall k cursor items n h
      · exact yields_last hpage hafter
      · exact (yields_next hpage hafter).mpr (ih m hm hnext (k + 1))

theorem getElem?_mixed {rows rows' : List α} (h : rows.length = rows'.length) (cut offset : Nat) :
    (rows.take cut ++ rows'.drop cut)[offset]? = (if offset < cut then rows else rows')[offset]? := by
  by_cases hcut : offset < cut
  · simp only [if_pos hcut, List.getElem?_append, List.length_take, List.getElem?_take, List.getElem?_drop]
    grind
  · simp only [if_neg hcut, List.getElem?_append, List.length_take, List.getElem?_take, List.getElem?_drop]
    grind

structure Sorting {α κ : Type} [LE κ] (key : α → κ) where
  sort : List α → List α
  perm : ∀ rows, (sort rows).Perm rows
  ordered : ∀ rows, (sort rows).Pairwise fun x y => key x ≤ key y

variable {β : Type} [LinearOrder κ] {key : α → κ}

theorem Sorting.length_sort (o : Sorting key) (rows : List α) : (o.sort rows).length = rows.length := (o.perm rows).length_eq

@[simp] theorem Sorting.sort_nil (o : Sorting key) : o.sort [] = [] := List.perm_nil.mp (o.perm [])

@[simp] theorem Sorting.sort_singleton (o : Sorting key) (x : α) : o.sort [x] = [x] := List.perm_singleton.mp (o.perm [x])

def Sorting.ranked (key : α → κ) (rank : α → Nat) : Sorting key where
  sort := fun rows => rows.mergeSort fun x y => decide (key x < key y ∨ key x = key y ∧ rank x ≤ rank y)
  perm := fun rows => List.mergeSort_perm rows _
  ordered := fun rows => by
    refine (List.pairwise_mergeSort ?_ ?_ rows).imp fun h => ?_
    · grind
    · grind
    · exact (of_decide_eq_true h).elim le_of_lt fun h => h.1.le

theorem Sorting.ranked_two (rank : α → Nat) (x y : α) (h : key x = key y) :
    (Sorting.ranked key rank).sort [x, y] = if rank x ≤ rank y then [x, y] else [y, x] := by
  simp [Sorting.ranked, List.mergeSort, List.MergeSort.Internal.splitInTwo, List.merge, h]

theorem Sorting.ranked_pairwise (rank : α → Nat) (rows : List α) :
    ((Sorting.ranked key rank).sort rows).Pairwise fun x y => key x = key y → rank x ≤ rank y := by
  refine (List.pairwise_mergeSort ?_ ?_ rows).imp fun h htie => ?_
  · grind
  · grind
  · exact (of_decide_eq_true h).elim (fun h => absurd htie h.ne) And.right

/-- Where rows of one key look alike, every order looks the same. -/
theorem Sorting.map_sort (f : α → β) {rows : List α} (htie : ∀ x ∈ rows, ∀ y ∈ rows, key x = key y → f x = f y)
    (o o' : Sorting key) :
    (o.sort rows).map f = (o'.sort rows).map f := by
  -- a row next to its key is settled by the key
  have hsame : (o.sort rows).map (fun x => (key x, f x)) = (o'.sort rows).map fun x => (key x, f x) := by
    have hordered (o : Sorting key) :
        ((o.sort rows).map fun x => (key x, f x)).Pairwise fun p q : κ × β => p.1 ≤ q.1 :=
      List.pairwise_map.mpr (o.ordered rows)
    refine List.Perm.eq_of_pairwise ?_ (hordered o) (hordered o') (((o.perm rows).trans (o'.perm rows).symm).map _)
    intro p q hp hq hle hge
    obtain ⟨x, hx, rfl⟩ := List.mem_map.mp hp
    obtain ⟨y, hy, rfl⟩ := List.mem_map.mp hq
    have hkey := le_antisymm hle hge
    exact Prod.ext hkey (htie x ((o.perm rows).mem_iff.mp hx) y ((o'.perm rows).mem_iff.mp hy) hkey)
  simpa [Function.comp_def] using congrArg (List.map Prod.snd) hsame

/-- In a list ordered by its keys the rows below a key come first. -/
theorem filter_append_of_ordered {rows : List α} (h : rows.Pairwise fun x y => key x ≤ key y) (k : κ) :
    rows.filter (key · < k) ++ rows.filter (k ≤ key ·) = rows := by
  induction rows with
  | nil => rfl
  | cons x rows ih =>
      obtain ⟨hx, hrows⟩ := List.pairwise_cons.mp h
      by_cases hlow : key x < k
      · simpa [hlow, not_le_of_gt hlow] using ih hrows
      · have hnone : rows.filter (key · < k) = [] := by
          simpa using fun y hy => (not_lt.mp hlow).trans (hx y hy)
        have hall : rows.filter (k ≤ key ·) = rows := by
          simpa using fun y hy => (not_lt.mp hlow).trans (hx y hy)
        simp [hlow, not_lt.mp hlow, hnone, hall]

/-- The first row of a ranked order from some key on has the least rank. -/
theorem Sorting.ranked_split (rank : α → Nat) {rows : List α} {x : α} (hx : x ∈ rows) (hrank : rank x = 0) :
    ∃ y rest, (Sorting.ranked key rank).sort rows = ((Sorting.ranked key rank).sort rows).filter (key · < key x) ++ y :: rest ∧
      rank y = 0 := by
  have hsplit := filter_append_of_ordered ((Sorting.ranked key rank).ordered rows) (key x)
  have hmem : x ∈ ((Sorting.ranked key rank).sort rows).filter (key x ≤ key ·) := by
    simpa using ((Sorting.ranked key rank).perm rows).mem_iff.mpr hx
  cases hfrom : ((Sorting.ranked key rank).sort rows).filter (key x ≤ key ·) with
  | nil => simp [hfrom] at hmem
  | cons y rest =>
      rw [hfrom] at hsplit hmem
      refine ⟨y, rest, hsplit.symm, ?_⟩
      have hle : key x ≤ key y := by
        have hy : y ∈ ((Sorting.ranked key rank).sort rows).filter (key x ≤ key ·) := hfrom ▸ List.mem_cons_self
        simpa using (List.mem_filter.mp hy).2
      rcases List.mem_cons.mp hmem with rfl | hrest
      · exact hrank
      · have hordered := (Sorting.ranked key rank).ordered rows
        have htied : ((Sorting.ranked key rank).sort rows).Pairwise fun x y => key x = key y → rank x ≤ rank y :=
          Sorting.ranked_pairwise rank rows
        rw [← hsplit] at hordered htied
        have hkey := List.rel_of_pairwise_cons (List.pairwise_append.mp hordered).2.1 hrest
        have hleast := List.rel_of_pairwise_cons (List.pairwise_append.mp htied).2.1 hrest
        exact Nat.le_zero.mp (hrank ▸ hleast (le_antisymm hkey hle))

/-- Two rows of one key that look different let two orders disagree: the first
rows by the one and the others by the other are not the rows. -/
theorem Sorting.exists_mixed (f : α → β) {rows : List α} {x y : α} (hx : x ∈ rows) (hy : y ∈ rows) (htie : key x = key y)
    (hne : f x ≠ f y) :
    ∃ (o o' : Sorting key) (cut : Nat),
      ¬ (((o.sort rows).map f).take cut ++ ((o'.sort rows).map f).drop cut).Perm (rows.map f) := by
  classical
  let rank (z : α) : Nat := if f z = f x then 0 else 1
  let rank' (z : α) : Nat := if f z = f x then 1 else 0
  obtain ⟨z, rest, hsort, hz⟩ := @Sorting.ranked_split _ _ _ key rank rows x hx (if_pos rfl)
  obtain ⟨z', rest', hsort', hz'⟩ := @Sorting.ranked_split _ _ _ key rank' rows y hy (if_neg hne.symm)
  refine ⟨Sorting.ranked key rank, Sorting.ranked key rank', (rows.filter (key · < key x)).length + 1, ?_⟩
  rw [← htie] at hsort'
  have hlow := ((Sorting.ranked key rank).perm rows).filter (key · < key x)
  have hlow' := ((Sorting.ranked key rank').perm rows).filter (key · < key x)
  have hrows := (Sorting.ranked key rank').perm rows
  generalize ((Sorting.ranked key rank).sort rows).filter (key · < key x) = low at hsort hlow
  generalize ((Sorting.ranked key rank').sort rows).filter (key · < key x) = low' at hsort' hlow'
  have htake : (((Sorting.ranked key rank).sort rows).map f).take ((rows.filter (key · < key x)).length + 1) =
    low.map f ++ [f z] := by
    rw [hsort, List.map_append, List.map_cons, ← hlow.length_eq, ← List.length_map (f := f), List.take_length_add_append]
    rfl
  have hdrop : (((Sorting.ranked key rank').sort rows).map f).drop ((rows.filter (key · < key x)).length + 1) = rest'.map f := by
    rw [hsort', List.map_append, List.map_cons, ← hlow'.length_eq, ← List.length_map (f := f), List.drop_length_add_append]
    rfl
  rw [htake, hdrop]
  intro hperm
  have hlows : (low.map f).Perm (low'.map f) := (hlow.trans hlow'.symm).map f
  have hsame : (f z :: rest'.map f).Perm (f z' :: rest'.map f) := by
    refine (List.perm_append_left_iff (low'.map f)).mp ?_
    have hall := hperm.trans (hrows.map f).symm
    rw [hsort', List.map_append, List.map_cons, List.append_assoc, List.singleton_append] at hall
    exact (hlows.symm.append_right _).trans hall
  have hfz : f z = f x := by
    by_contra hne
    simp [rank, hne] at hz
  have hfz' : f z' ≠ f x := fun heq => by simp [rank', heq] at hz'
  have hcount := hsame.count_eq (f x)
  simp [hfz, hfz'] at hcount

end Galadril.Lib.Pages
