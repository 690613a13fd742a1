import Galadril.Registry.Expansions

namespace Galadril.Registry.Pipeline

open Json Lib Lib.Checked Identity Ontology Std

def Placed.name (p : Placed) : Option String := p.value.getStr "step"

def Placed.address (p : Placed) : List String × String := (p.site, p.block)

def Within (definitions : Definitions) (o : Occurrence) (rest : List Value) : List String → Occurrence → Prop
  | [], o' => o' = o
  | id :: site, o' => ∃ step ∈ rest, ∃ child, step.getStr "step" = some id ∧ o.Live id ∧ transferred definitions step = some child ∧
      Occurs definitions child site o'

variable {definitions : Definitions} {o o' : Occurrence} {rest : List Value} {site : List String}

theorem occurs_iff_within : Occurs definitions o site o' ↔ Within definitions o o.steps site o' := by
  constructor
  · rintro (_ | ⟨hm, hid, hl, ht, ho⟩)
    · rfl
    · exact ⟨_, hm, _, hid, hl, ht, ho⟩
  · intro h
    cases site with
    | nil =>
        obtain rfl := h
        exact .here _
    | cons id site =>
        obtain ⟨step, hm, child, hid, hl, ht, ho⟩ := h
        exact .enter hm hid hl ht ho

theorem Within.mono {more : List Value} (h : Within definitions o rest site o') (hsub : rest ⊆ more) :
    Within definitions o more site o' := by
  cases site with
  | nil => exact h
  | cons id site =>
      obtain ⟨step, hm, hrest⟩ := h
      exact ⟨step, hsub hm, hrest⟩

theorem within_cons {step : Value} {id : String} (hid : step.getStr "step" = some id) :
    Within definitions o (step :: rest) site o' ↔
    Within definitions o rest site o' ∨ (∃ site' child, site = id :: site' ∧ o.Live id ∧ transferred definitions step = some child ∧
      Occurs definitions child site' o') := by
  cases site with
  | nil => simp [Within]
  | cons first site' =>
      constructor
      · rintro ⟨step', hm, child, hid', hl, ht, ho⟩
        rcases List.mem_cons.mp hm with rfl | hm
        · obtain rfl := Option.some.inj (hid.symm.trans hid')
          exact .inr ⟨site', child, rfl, hl, ht, ho⟩
        · exact .inl ⟨step', hm, child, hid', hl, ht, ho⟩
      · rintro (⟨step', hm, hrest⟩ | ⟨site'', child, heq, hl, ht, ho⟩)
        · exact ⟨step', List.mem_cons_of_mem _ hm, hrest⟩
        · obtain ⟨rfl, rfl⟩ := List.cons.inj heq
          exact ⟨step, List.mem_cons_self, child, hid, hl, ht, ho⟩

/-- What an expansion of listed steps contributes. Each occurrence has one
renaming, and each of its live blocks one compiled step. -/
structure Unfolded (definitions : Definitions) (o : Occurrence) (names : Renaming) (rest : List Value) (placed : List Placed)
    (naming : List String → Renaming) : Prop where
  here : naming [] = names
  listed : ∀ p ∈ placed, p.site = [] → p.block ∈ stepIds rest
  sound : ∀ p ∈ placed, ∃ o', Within definitions o rest p.site o' ∧ ∃ step ∈ o'.steps, step.getStr "step" = some p.block ∧
    o'.Live p.block ∧ Image (naming p.site) (o'.origin p.block) step p.value
  complete : ∀ site o' block, Within definitions o rest site o' → (site = [] → block ∈ stepIds rest) → o'.Live block →
    ∃ p ∈ placed, p.address = (site, block)
  unique : ∀ site o₁ o₂, Within definitions o rest site o₁ → Within definitions o rest site o₂ → o₁ = o₂
  entered : ∀ site id o', Within definitions o rest (site ++ [id]) o' → ∃ mapped n n', (naming site)[id]? = some mapped ∧
    Named o' (some mapped) n (naming (site ++ [id])) n'

section Expansions

variable {definitions : Definitions} {o child : Occurrence} {names names' : Renaming} {step value : Value} {rest : List Value}
  {placed below : List Placed} {naming naming' : List String → Renaming} {id mapped : String} {n n' : Nat}

theorem unfolded_nil (definitions : Definitions) (o : Occurrence) (names : Renaming) :
    Unfolded definitions o names [] [] fun _ => names := by
  have hnone : ∀ id site o', ¬ Within definitions o [] (id :: site) o' := by
    rintro id site o' ⟨step, hm, -⟩
    cases hm
  refine ⟨rfl, fun p hp => ?_, fun p hp => ?_, fun site o' block h hblock hl => ?_, fun site o₁ o₂ h₁ h₂ => ?_,
    fun site id o' h => ?_⟩
  · cases hp
  · cases hp
  · cases site with
    | nil => exact absurd (hblock rfl) (by simp [stepIds])
    | cons id site => exact absurd h (hnone id site o')
  · cases site with
    | nil => exact h₁.trans h₂.symm
    | cons id site => exact absurd h₁ (hnone id site o₁)
  · cases site with
    | nil => exact absurd h (hnone id [] o')
    | cons first site => exact absurd h (hnone first (site ++ [id]) o')

theorem Unfolded.skip (h : Unfolded definitions o names rest placed naming) (hid : step.getStr "step" = some id)
    (hl : ¬ o.Live id) :
    Unfolded definitions o names (step :: rest) placed naming := by
  have hbelow : ∀ site o', Within definitions o (step :: rest) site o' ↔ Within definitions o rest site o' := by
    intro site o'
    rw [within_cons hid]
    refine or_iff_left ?_
    rintro ⟨site', child, -, hlive, -⟩
    exact hl hlive
  refine ⟨h.here, fun p hp hsite => ?_, fun p hp => ?_, fun site o' block hb hblock hlive => ?_,
    fun site o₁ o₂ h₁ h₂ => ?_, fun site id' o' hb => ?_⟩
  · rw [stepIds_cons hid]
    exact List.mem_cons_of_mem _ (h.listed p hp hsite)
  · obtain ⟨o', hb, hrest⟩ := h.sound p hp
    exact ⟨o', (hbelow _ _).mpr hb, hrest⟩
  · refine h.complete site o' block ((hbelow _ _).mp hb) (fun hsite => ?_) hlive
    have hmem := hblock hsite
    rw [stepIds_cons hid, List.mem_cons] at hmem
    rcases hmem with rfl | hmem
    · subst hsite
      obtain rfl : o' = o := hb
      exact absurd hlive hl
    · exact hmem
  · exact h.unique site o₁ o₂ ((hbelow _ _).mp h₁) ((hbelow _ _).mp h₂)
  · exact h.entered site id' o' ((hbelow _ _).mp hb)

theorem Unfolded.block (h : Unfolded definitions o names rest placed naming) (hm : step ∈ o.steps)
    (hid : step.getStr "step" = some id)
    (hl : o.Live id) (htype : step.getStr "type" ≠ some "pipeline") (himage : Image names (o.origin id) step value) :
    Unfolded definitions o names (step :: rest) (⟨[], id, names, value⟩ :: placed) naming := by
  have hbelow : ∀ site o', Within definitions o (step :: rest) site o' ↔ Within definitions o rest site o' := by
    intro site o'
    rw [within_cons hid]
    refine or_iff_left ?_
    rintro ⟨site', child', -, -, ht, -⟩
    simp [transferred, htype] at ht
  refine ⟨h.here, fun p hp hsite => ?_, fun p hp => ?_, fun site o' block hb hblock hlive => ?_,
    fun site o₁ o₂ h₁ h₂ => ?_, fun site id' o' hb => ?_⟩
  · rw [stepIds_cons hid]
    rcases List.mem_cons.mp hp with rfl | hp
    · exact List.mem_cons_self
    · exact List.mem_cons_of_mem _ (h.listed p hp hsite)
  · rcases List.mem_cons.mp hp with rfl | hp
    · exact ⟨o, rfl, step, hm, hid, hl, h.here ▸ himage⟩
    · obtain ⟨o', hb, hrest⟩ := h.sound p hp
      exact ⟨o', (hbelow _ _).mpr hb, hrest⟩
  · by_cases hhere : site = [] ∧ block = id
    · obtain ⟨rfl, rfl⟩ := hhere
      exact ⟨_, List.mem_cons_self, rfl⟩
    · obtain ⟨p, hp, haddress⟩ := h.complete site o' block ((hbelow _ _).mp hb) (fun hsite => by
        have hmem := hblock hsite
        rw [stepIds_cons hid, List.mem_cons] at hmem
        exact hmem.resolve_left fun heq => hhere ⟨hsite, heq⟩) hlive
      exact ⟨p, List.mem_cons_of_mem _ hp, haddress⟩
  · exact h.unique site o₁ o₂ ((hbelow _ _).mp h₁) ((hbelow _ _).mp h₂)
  · exact h.entered site id' o' ((hbelow _ _).mp hb)

def grafted (id : String) (below naming : List String → Renaming) : List String → Renaming
  | [] => naming []
  | first :: site => if first = id then below site else naming (first :: site)

/-- A live transfer contributes its image and the occurrence it continues with. -/
theorem Unfolded.transfer (h : Unfolded definitions o names rest placed naming)
    (hbelow : Unfolded definitions child names' child.steps below naming') (hfresh : id ∉ stepIds rest) (hm : step ∈ o.steps)
    (hid : step.getStr "step" = some id) (hl : o.Live id) (ht : transferred definitions step = some child)
    (himage : Image names (o.origin id) step value) (hmapped : names[id]? = some mapped)
    (hnamed : Named child (some mapped) n names' n') :
    Unfolded definitions o names (step :: rest) (⟨[], id, names, value⟩ :: (below.map (Placed.under id) ++ placed))
      (grafted id naming' naming) := by
  have hother : ∀ first site o', Within definitions o rest (first :: site) o' → first ≠ id := by
    rintro first site o' ⟨step', hm', _, hid', -⟩ rfl
    exact hfresh (mem_stepIds.mpr ⟨step', hm', hid'⟩)
  have hkept : ∀ site o', Within definitions o rest site o' → grafted id naming' naming site = naming site := by
    intro site o' hb
    cases site with
    | nil => rfl
    | cons first site => rw [grafted, if_neg (hother first site o' hb)]
  have hentered : ∀ site, grafted id naming' naming (id :: site) = naming' site := fun site => by rw [grafted, if_pos rfl]
  have hchild : ∀ site o', Within definitions o (step :: rest) site o' ↔ Within definitions o rest site o' ∨
      ∃ site', site = id :: site' ∧ Within definitions child child.steps site' o' := by
    intro site o'
    rw [within_cons hid]
    refine or_congr_right ⟨?_, ?_⟩
    · rintro ⟨site', child', rfl, -, ht', ho⟩
      obtain rfl := Option.some.inj (ht.symm.trans ht')
      exact ⟨site', rfl, occurs_iff_within.mp ho⟩
    · rintro ⟨site', rfl, hb⟩
      exact ⟨site', child, rfl, hl, ht, occurs_iff_within.mpr hb⟩
  refine ⟨h.here, fun p hp hsite => ?_, fun p hp => ?_, fun site o' block hb hblock hlive => ?_,
    fun site o₁ o₂ h₁ h₂ => ?_, fun site id' o' hb => ?_⟩
  · rw [stepIds_cons hid]
    rcases List.mem_cons.mp hp with rfl | hp
    · exact List.mem_cons_self
    · rcases List.mem_append.mp hp with hp | hp
      · obtain ⟨q, -, rfl⟩ := List.mem_map.mp hp
        cases hsite
      · exact List.mem_cons_of_mem _ (h.listed p hp hsite)
  · rcases List.mem_cons.mp hp with rfl | hp
    · exact ⟨o, rfl, step, hm, hid, hl, by rw [grafted, h.here]; exact himage⟩
    · rcases List.mem_append.mp hp with hp | hp
      · obtain ⟨q, hq, rfl⟩ := List.mem_map.mp hp
        obtain ⟨o', hb, step', hm', hid', hl', himage'⟩ := hbelow.sound q hq
        refine ⟨o', (hchild _ _).mpr (.inr ⟨q.site, rfl, hb⟩), step', hm', hid', hl', ?_⟩
        rw [show (Placed.under id q).site = id :: q.site from rfl, hentered]
        exact himage'
      · obtain ⟨o', hb, step', hm', hid', hl', himage'⟩ := h.sound p hp
        refine ⟨o', (hchild _ _).mpr (.inl hb), step', hm', hid', hl', ?_⟩
        rwa [hkept _ _ hb]
  · rcases (hchild _ _).mp hb with hrest | ⟨site', rfl, hb'⟩
    · by_cases hhere : site = [] ∧ block = id
      · obtain ⟨rfl, rfl⟩ := hhere
        exact ⟨_, List.mem_cons_self, rfl⟩
      · obtain ⟨p, hp, haddress⟩ := h.complete site o' block hrest (fun hsite => by
          have hmem := hblock hsite
          rw [stepIds_cons hid, List.mem_cons] at hmem
          exact hmem.resolve_left fun heq => hhere ⟨hsite, heq⟩) hlive
        exact ⟨p, List.mem_cons_of_mem _ (List.mem_append_right _ hp), haddress⟩
    · obtain ⟨p, hp, haddress⟩ := hbelow.complete site' o' block hb' (fun hsite => by
        subst hsite
        obtain rfl : o' = child := hb'
        exact hlive.1) hlive
      obtain ⟨hsite, hblock⟩ := Prod.mk.inj haddress
      refine ⟨p.under id, List.mem_cons_of_mem _ (List.mem_append_left _ (List.mem_map_of_mem hp)), ?_⟩
      simp [Placed.address, Placed.under, hsite, hblock]
  · rcases (hchild _ _).mp h₁ with hrest₁ | ⟨site₁, rfl, hb₁⟩
    · rcases (hchild _ _).mp h₂ with hrest₂ | ⟨site₂, rfl, -⟩
      · exact h.unique site o₁ o₂ hrest₁ hrest₂
      · exact absurd rfl (hother _ _ _ hrest₁)
    · rcases (hchild _ _).mp h₂ with hrest₂ | ⟨site₂, heq, hb₂⟩
      · exact absurd rfl (hother _ _ _ hrest₂)
      · obtain ⟨-, rfl⟩ := List.cons.inj heq
        exact hbelow.unique _ o₁ o₂ hb₁ hb₂
  · rcases (hchild _ _).mp hb with hrest | ⟨site', heq, hb'⟩
    · obtain ⟨m, k, k', hm', hnamed'⟩ := h.entered site id' o' hrest
      have hsite : grafted id naming' naming site = naming site := by
        cases site with
        | nil => rfl
        | cons first site => rw [grafted, if_neg (hother first (site ++ [id']) o' hrest)]
      exact ⟨m, k, k', hsite ▸ hm', (hkept _ _ hrest).symm ▸ hnamed'⟩
    · rw [heq, hentered]
      cases site with
      | nil =>
          obtain ⟨rfl, rfl⟩ := List.cons.inj heq
          obtain rfl : o' = child := hb'
          refine ⟨mapped, n, n', ?_, hbelow.here.symm ▸ hnamed⟩
          rw [grafted, h.here, hmapped]
      | cons first site =>
          obtain ⟨rfl, rfl⟩ := List.cons.inj heq
          rw [hentered]
          exact hbelow.entered site id' o' hb'

/-- Every derivation gives each occurrence one renaming. -/
theorem Emits.unfolded (h : Emits definitions o names rest n placed n') (hdistinct : (stepIds rest).Nodup) :
    ∃ naming, Unfolded definitions o names rest placed naming := by
  induction h with
  | nil o names n => exact ⟨_, unfolded_nil definitions o names⟩
  | skip hid hl _ ih =>
      rw [stepIds_cons hid, List.nodup_cons] at hdistinct
      obtain ⟨naming, hrest⟩ := ih hdistinct.2
      exact ⟨naming, hrest.skip hid hl⟩
  | block hm hid hl htype himage _ ih =>
      rw [stepIds_cons hid, List.nodup_cons] at hdistinct
      obtain ⟨naming, hrest⟩ := ih hdistinct.2
      exact ⟨naming, hrest.block hm hid hl htype himage⟩
  | transfer hm hid hl ht himage hmapped hnamed _ _ ihbelow ih =>
      rw [stepIds_cons hid, List.nodup_cons] at hdistinct
      obtain ⟨naming, hrest⟩ := ih hdistinct.2
      obtain ⟨naming', hbelow⟩ := ihbelow (List.nodup_append.mp hnamed.authored.graph.distinct).2.1
      exact ⟨_, hrest.transfer hbelow hdistinct.1 hm hid hl ht himage hmapped hnamed⟩

end Expansions

section Numbering

variable {definitions : Definitions} {o child : Occurrence} {names names' : Renaming} {step value : Value} {rest : List Value}
  {placed below : List Placed} {id mapped : String} {n n₀ n₁ n' : Nat}

/-- The names of the blocks below transfers are numbered without gaps, and the
other blocks have those that their occurrence gives them. -/
structure Numbered (o : Occurrence) (names : Renaming) (rest : List Value) (n : Nat) (placed : List Placed) (n' : Nat) : Prop where
  le : n ≤ n'
  heads : ∃ ids : List String, ids.Sublist (stepIds rest) ∧ (∀ i, i ∈ ids ↔ i ∈ stepIds rest ∧ o.Live i) ∧
    (placed.filter fun p => p.site = []).map Placed.name = ids.map (names[·]?)
  deep : ((placed.filter fun p => p.site ≠ []).map Placed.name).Perm ((List.range' (n + 1) (n' - n)).map fun k =>
    some (linkedName k))

theorem numbered_nil (o : Occurrence) (names : Renaming) (n : Nat) : Numbered o names [] n [] n := by
  refine ⟨le_rfl, ⟨[], List.Sublist.slnil, fun i => by simp [stepIds], rfl⟩, ?_⟩
  rw [Nat.sub_self]
  exact List.Perm.nil

theorem Numbered.skip (h : Numbered o names rest n placed n') (hid : step.getStr "step" = some id) (hl : ¬ o.Live id) :
    Numbered o names (step :: rest) n placed n' := by
  obtain ⟨ids, hsub, hmem, hnames⟩ := h.heads
  refine ⟨h.le, ⟨ids, ?_, fun i => ?_, hnames⟩, h.deep⟩
  · rw [stepIds_cons hid]
    exact hsub.cons id
  · rw [hmem, stepIds_cons hid, List.mem_cons]
    refine and_congr_left fun hi => (or_iff_right ?_).symm
    rintro rfl
    exact hl hi

theorem Image.name_eq {origin : Option Value} (h : Image names origin step value) (hid : step.getStr "step" = some id) :
    value.getStr "step" = names[id]? := by
  obtain ⟨id', mapped, hid', hmapped, hvalue⟩ := h.identity
  obtain rfl := Option.some.inj (hid.symm.trans hid')
  rw [hvalue, hmapped]

theorem Numbered.head (h : Numbered o names rest n placed n') (hid : step.getStr "step" = some id) (hl : o.Live id)
    (hvalue : value.getStr "step" = names[id]?) : Numbered o names (step :: rest) n (⟨[], id, names, value⟩ :: placed) n' := by
  obtain ⟨ids, hsub, hmem, hnames⟩ := h.heads
  refine ⟨h.le, ⟨id :: ids, ?_, fun i => ?_, ?_⟩, ?_⟩
  · rw [stepIds_cons hid]
    exact hsub.cons_cons id
  · rw [stepIds_cons hid, List.mem_cons, List.mem_cons, hmem]
    constructor
    · rintro (rfl | ⟨hi, hlive⟩)
      · exact ⟨.inl rfl, hl⟩
      · exact ⟨.inr hi, hlive⟩
    · rintro ⟨rfl | hi, hlive⟩
      · exact .inl rfl
      · exact .inr ⟨hi, hlive⟩
  · rw [List.filter_cons_of_pos (by simp), List.map_cons, List.map_cons, hnames]
    exact congrArg (· :: _) hvalue
  · rw [List.filter_cons_of_neg (by simp)]
    exact h.deep

/-- All blocks of an occurrence below a transfer have numbered names. -/
theorem Numbered.all (h : Numbered child names' child.steps n₀ below n₁) (hnamed : Named child (some mapped) n names' n₀)
    (hselected : child.selected.isSome = true) :
    n ≤ n₁ ∧ (below.map Placed.name).Perm ((List.range' (n + 1) (n₁ - n)).map fun k => some (linkedName k)) := by
  obtain ⟨s, hs⟩ := Option.isSome_iff_exists.mp hselected
  obtain ⟨ids, hnodup, hlive, hlength, hnames⟩ := hnamed.fresh s hs
  obtain ⟨heads, hsub, hmem, hheads⟩ := h.heads
  have hperm : heads.Perm ids := by
    refine (List.perm_ext_iff_of_nodup (hsub.nodup (List.nodup_append.mp hnamed.authored.graph.distinct).2.1)
      hnodup).mpr fun i => ?_
    rw [hmem, hlive]
    exact and_iff_right_of_imp fun hl => hl.1
  refine ⟨by have := h.le; omega, ?_⟩
  calc (below.map Placed.name).Perm
          (((below.filter fun p => p.site = []) ++ below.filter fun p => p.site ≠ []).map Placed.name) := by
        refine (List.Perm.map _ ?_).symm
        have hdivided := List.filter_append_perm (fun p : Placed => decide (p.site = [])) below
        simpa only [decide_not] using hdivided
    _ = heads.map (names'[·]?) ++ (below.filter fun p => p.site ≠ []).map Placed.name := by rw [List.map_append, hheads]
    _ |>.Perm (ids.map (names'[·]?) ++ (List.range' (n₀ + 1) (n₁ - n₀)).map fun k => some (linkedName k)) :=
        (hperm.map _).append h.deep
    _ = (List.range' (n + 1) (n₁ - n)).map fun k => some (linkedName k) := by
        have hle := h.le
        rw [hnames, ← List.map_append]
        have hsplit := @List.range'_append_1 (n + 1) ids.length (n₁ - n₀)
        rw [show n + 1 + ids.length = n₀ + 1 by omega, show ids.length + (n₁ - n₀) = n₁ - n by omega] at hsplit
        rw [hsplit]

theorem Numbered.transfer (h : Numbered o names rest n₁ placed n') (hid : step.getStr "step" = some id) (hl : o.Live id)
    (hvalue : value.getStr "step" = names[id]?) (hle : n ≤ n₁)
    (hbelow : (below.map Placed.name).Perm ((List.range' (n + 1) (n₁ - n)).map fun k => some (linkedName k))) :
    Numbered o names (step :: rest) n (⟨[], id, names, value⟩ :: (below.map (Placed.under id) ++ placed)) n' := by
  have hunder : ∀ p ∈ below.map (Placed.under id), p.site ≠ [] := by
    intro p hp
    obtain ⟨q, -, rfl⟩ := List.mem_map.mp hp
    exact List.cons_ne_nil _ _
  have hnone : (below.map (Placed.under id)).filter (fun p => p.site = []) = [] :=
    List.filter_eq_nil_iff.mpr fun p hp => by simp [hunder p hp]
  have hall : (below.map (Placed.under id)).filter (fun p => p.site ≠ []) = below.map (Placed.under id) :=
    List.filter_eq_self.mpr fun p hp => by simp [hunder p hp]
  have hle' := h.le
  suffices hmore : Numbered o names rest n (below.map (Placed.under id) ++ placed) n' from hmore.head hid hl hvalue
  refine ⟨hle.trans h.le, ?_, ?_⟩
  · rw [List.filter_append, hnone, List.nil_append]
    exact h.heads
  · have hsplit := @List.range'_append_1 (n + 1) (n₁ - n) (n' - n₁)
    rw [show n + 1 + (n₁ - n) = n₁ + 1 by omega, show n₁ - n + (n' - n₁) = n' - n by omega] at hsplit
    rw [List.filter_append, hall, List.map_append, List.map_map, ← hsplit, List.map_append]
    exact hbelow.append h.deep

theorem transferred_selected (ht : transferred definitions step = some child) : child.selected.isSome = true := by
  unfold transferred at ht
  split at ht
  · simp only [Option.bind_eq_bind, Option.bind_eq_some_iff, Option.some.injEq] at ht
    obtain ⟨reference, -, definition, -, rfl⟩ := ht
    rfl
  · cases ht

theorem Emits.numbered (h : Emits definitions o names rest n placed n') : Numbered o names rest n placed n' := by
  induction h with
  | nil o names n => exact numbered_nil o names n
  | skip hid hl _ ih => exact ih.skip hid hl
  | block _ hid hl _ himage _ ih => exact ih.head hid hl (himage.name_eq hid)
  | transfer _ hid hl ht himage _ hnamed _ _ ihbelow ih =>
      obtain ⟨hle, hall⟩ := ihbelow.all hnamed (transferred_selected ht)
      exact ih.transfer hid hl (himage.name_eq hid) hle hall

theorem linkedName_inj {k k' : Nat} : linkedName k = linkedName k' ↔ k = k' := by
  constructor
  · intro h
    have hlists := congrArg String.toList h
    simp only [linkedName, String.toList_append] at hlists
    exact Nat.repr_inj.mp (String.toList_inj.mp (List.append_cancel_left hlists))
  · rintro rfl
    rfl

theorem startsWith_linkedName (k : Nat) : startsWith "__linked_" (linkedName k) = true := by
  rw [startsWith, List.isPrefixOf_iff_prefix, linkedName, String.toList_append]
  exact List.prefix_append _ _

end Numbering

end Galadril.Registry.Pipeline
