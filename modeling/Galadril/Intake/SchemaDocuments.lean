import Galadril.Intake.SchemaPlan
import Galadril.Lib.Entries
import Galadril.Lib.Worklist

namespace Galadril.Intake.Schemas

open Json Lib.Checked Lib.Entries Lib.Fuel Lib.Mapping Lib.Worklist Relation
open Std (ExtTreeMap)

/-- A document in which every occurrence of a registered name is marked, either
as a name or as the place of its definition. -/
inductive Marked
  | scalar (v : Value)
  | name (n : String)
  | definition (n : String) (body : Marked)
  | array (items : List Marked)
  | object (members : List (String × Marked))

inductive Occurrence
  | defined (n : String)
  | named (n : String)

def Occurrence.name : Occurrence → String
  | .defined n => n
  | .named n => n

namespace Marked

mutual

def source : Marked → Value
  | .scalar v => v
  | .name n => .string n
  | .definition n _ => .string n
  | .array items => .array (sources items)
  | .object members => .object (memberSources members)

def sources : List Marked → List Value
  | [] => []
  | item :: items => source item :: sources items

def memberSources : List (String × Marked) → Members
  | [] => []
  | (key, v) :: members => (key, source v) :: memberSources members

end

mutual

def resolved : Marked → Value
  | .scalar v => v
  | .name n => .string n
  | .definition _ body => resolved body
  | .array items => .array (resolvedItems items)
  | .object members => .object (resolvedMembers members)

def resolvedItems : List Marked → List Value
  | [] => []
  | item :: items => resolved item :: resolvedItems items

def resolvedMembers : List (String × Marked) → Members
  | [] => []
  | (key, v) :: members => (key, resolved v) :: resolvedMembers members

end

mutual

def occurrences : Marked → List Occurrence
  | .scalar _ => []
  | .name n => [.named n]
  | .definition n body => .defined n :: occurrences body
  | .array items => itemOccurrences items
  | .object members => memberOccurrences members

def itemOccurrences : List Marked → List Occurrence
  | [] => []
  | item :: items => occurrences item ++ itemOccurrences items

def memberOccurrences : List (String × Marked) → List Occurrence
  | [] => []
  | (_, v) :: members => occurrences v ++ memberOccurrences members

end

mutual

def Faithful (contents : String → Option Value) : Marked → Prop
  | .scalar v => ∀ s ∈ strings v, contents s = none
  | .name n => (contents n).isSome
  | .definition n body => contents n = some (source body) ∧ Faithful contents body
  | .array items => FaithfulItems contents items
  | .object members => FaithfulMembers contents members

def FaithfulItems (contents : String → Option Value) : List Marked → Prop
  | [] => True
  | item :: items => Faithful contents item ∧ FaithfulItems contents items

def FaithfulMembers (contents : String → Option Value) : List (String × Marked) → Prop
  | [] => True
  | (_, v) :: members => Faithful contents v ∧ FaithfulMembers contents members

end

end Marked

def Introduces : List String → List Occurrence → Prop
  | _, [] => True
  | seen, .defined n :: rest => n ∉ seen ∧ Introduces (n :: seen) rest
  | seen, .named n :: rest => n ∈ seen ∧ Introduces seen rest

def seenAfter : List String → List Occurrence → List String
  | seen, [] => seen
  | seen, .defined n :: rest => seenAfter (n :: seen) rest
  | seen, .named _ :: rest => seenAfter seen rest

theorem seenAfter_append (seen : List String) (a b : List Occurrence) :
    seenAfter seen (a ++ b) = seenAfter (seenAfter seen a) b := by
  induction a generalizing seen with
  | nil => rfl
  | cons o a ih => cases o <;> exact ih _

theorem introduces_append {seen : List String} {a b : List Occurrence} :
    Introduces seen (a ++ b) ↔ Introduces seen a ∧ Introduces (seenAfter seen a) b := by
  induction a generalizing seen with
  | nil => simp [Introduces, seenAfter]
  | cons o a ih => cases o <;> simp only [List.cons_append, Introduces, seenAfter, ih, and_assoc]

theorem mem_seenAfter {seen : List String} {a : List Occurrence} {x : String} (h : x ∈ seen) : x ∈ seenAfter seen a := by
  induction a generalizing seen with
  | nil => exact h
  | cons o a ih =>
      cases o with
      | defined n => exact ih (List.mem_cons_of_mem n h)
      | named n => exact ih h

theorem Introduces.once {seen : List String} {a : List Occurrence} (h : Introduces seen a) {n : String}
    (hn : n ∈ a.map Occurrence.name)
    (hnew : n ∉ seen) : ∃ before after, a = before ++ .defined n :: after ∧ n ∉ before.map Occurrence.name ∧
      .defined n ∉ after := by
  induction a generalizing seen with
  | nil => cases hn
  | cons o a ih =>
      cases o with
      | named m =>
          have hne : n ≠ m := fun he => hnew (he ▸ h.1)
          obtain ⟨before, after, rfl, hbefore, hafter⟩ := ih h.2 ((List.mem_cons.mp hn).resolve_left hne) hnew
          exact ⟨.named m :: before, after, rfl, by simpa [Occurrence.name, hne] using hbefore, hafter⟩
      | defined m =>
          by_cases he : n = m
          · subst he
            refine ⟨[], a, rfl, List.not_mem_nil, fun hm => ?_⟩
            obtain ⟨b, c, rfl⟩ := List.append_of_mem hm
            exact (introduces_append.mp h.2).2.1 (mem_seenAfter List.mem_cons_self)
          · have hnew' : n ∉ m :: seen := by simp [he, hnew]
            obtain ⟨before, after, rfl, hbefore, hafter⟩ := ih h.2 ((List.mem_cons.mp hn).resolve_left he) hnew'
            exact ⟨.defined m :: before, after, rfl, by simpa [Occurrence.name, he] using hbefore, hafter⟩

section Reaching

variable {contents : String → Option Value}

def Mentions (contents : String → Option Value) (x y : String) : Prop :=
  ∃ v, contents x = some v ∧ y ∈ strings v ∧ (contents y).isSome

/-- A registered name that a document refers to, directly or through contents. -/
def Reaches (contents : String → Option Value) (document : Value) (n : String) : Prop :=
  ∃ y ∈ strings document, (contents y).isSome ∧ ReflTransGen (Mentions contents) y n

open Marked

mutual

theorem Faithful.reaches (a : Marked) (h : a.Faithful contents) {n : String} (hn : n ∈ a.occurrences.map Occurrence.name) :
    Reaches contents a.source n := by
  cases a with
  | scalar v => cases hn
  | name m =>
      obtain rfl := List.mem_singleton.mp hn
      exact ⟨n, List.mem_singleton.mpr rfl, h, .refl⟩
  | definition m body =>
      have hm : (contents m).isSome := by simp [h.1]
      rcases List.mem_cons.mp hn with rfl | hn
      · exact ⟨_, List.mem_singleton.mpr rfl, hm, .refl⟩
      · obtain ⟨y, hy, hsome, hpath⟩ := Faithful.reaches body h.2 hn
        exact ⟨m, List.mem_singleton.mpr rfl, hm, .head ⟨_, h.1, hy, hsome⟩ hpath⟩
  | array items => exact FaithfulItems.reaches items h hn
  | object members => exact FaithfulMembers.reaches members h hn

theorem FaithfulItems.reaches (items : List Marked) (h : FaithfulItems contents items) {n : String}
    (hn : n ∈ (itemOccurrences items).map Occurrence.name) : Reaches contents (.array (sources items)) n := by
  cases items with
  | nil => cases hn
  | cons item items =>
      rw [itemOccurrences, List.map_append, List.mem_append] at hn
      rcases hn with hn | hn
      · obtain ⟨y, hy, hrest⟩ := Faithful.reaches item h.1 hn
        exact ⟨y, List.mem_append_left _ hy, hrest⟩
      · obtain ⟨y, hy, hrest⟩ := FaithfulItems.reaches items h.2 hn
        exact ⟨y, List.mem_append_right _ hy, hrest⟩

theorem FaithfulMembers.reaches (members : List (String × Marked)) (h : FaithfulMembers contents members) {n : String}
    (hn : n ∈ (memberOccurrences members).map Occurrence.name) : Reaches contents (.object (memberSources members)) n := by
  cases members with
  | nil => cases hn
  | cons member members =>
      obtain ⟨key, v⟩ := member
      rw [memberOccurrences, List.map_append, List.mem_append] at hn
      rcases hn with hn | hn
      · obtain ⟨y, hy, hrest⟩ := Faithful.reaches v h.1 hn
        exact ⟨y, List.mem_append_left _ hy, hrest⟩
      · obtain ⟨y, hy, hrest⟩ := FaithfulMembers.reaches members h.2 hn
        exact ⟨y, List.mem_append_right _ hy, hrest⟩

end

mutual

theorem Faithful.marks (a : Marked) (h : a.Faithful contents) {y : String} (hy : y ∈ strings a.source)
    (hsome : (contents y).isSome) :
    y ∈ a.occurrences.map Occurrence.name := by
  cases a with
  | scalar v =>
      rw [h y hy] at hsome
      cases hsome
  | name m => exact hy
  | definition m body => exact List.mem_cons.mpr (.inl (List.mem_singleton.mp hy))
  | array items => exact FaithfulItems.marks items h hy hsome
  | object members => exact FaithfulMembers.marks members h hy hsome

theorem FaithfulItems.marks (items : List Marked) (h : FaithfulItems contents items) {y : String}
    (hy : y ∈ itemStrings (sources items)) (hsome : (contents y).isSome) : y ∈ (itemOccurrences items).map Occurrence.name := by
  cases items with
  | nil => cases hy
  | cons item items =>
      rw [itemOccurrences, List.map_append, List.mem_append]
      rcases List.mem_append.mp hy with hy | hy
      · exact .inl (Faithful.marks item h.1 hy hsome)
      · exact .inr (FaithfulItems.marks items h.2 hy hsome)

theorem FaithfulMembers.marks (members : List (String × Marked)) (h : FaithfulMembers contents members) {y : String}
    (hy : y ∈ memberStrings (memberSources members)) (hsome : (contents y).isSome) :
    y ∈ (memberOccurrences members).map Occurrence.name := by
  cases members with
  | nil => cases hy
  | cons member members =>
      obtain ⟨key, v⟩ := member
      rw [memberOccurrences, List.map_append, List.mem_append]
      rcases List.mem_append.mp hy with hy | hy
      · exact .inl (Faithful.marks v h.1 hy hsome)
      · exact .inr (FaithfulMembers.marks members h.2 hy hsome)

end

mutual

theorem Faithful.closed (a : Marked) (h : a.Faithful contents) {x y : String} (hx : .defined x ∈ a.occurrences)
    (hxy : Mentions contents x y) : y ∈ a.occurrences.map Occurrence.name := by
  cases a with
  | scalar v => cases hx
  | name m =>
      obtain hm := List.mem_singleton.mp hx
      cases hm
  | definition m body =>
      refine List.mem_cons.mpr (.inr ?_)
      rcases List.mem_cons.mp hx with hm | hx
      · cases hm
        obtain ⟨v, hv, hy, hsome⟩ := hxy
        rw [h.1] at hv
        cases hv
        exact Faithful.marks body h.2 hy hsome
      · exact Faithful.closed body h.2 hx hxy
  | array items => exact FaithfulItems.closed items h hx hxy
  | object members => exact FaithfulMembers.closed members h hx hxy

theorem FaithfulItems.closed (items : List Marked) (h : FaithfulItems contents items) {x y : String}
    (hx : .defined x ∈ itemOccurrences items) (hxy : Mentions contents x y) : y ∈ (itemOccurrences items).map Occurrence.name := by
  cases items with
  | nil => cases hx
  | cons item items =>
      rw [itemOccurrences, List.map_append, List.mem_append]
      rcases List.mem_append.mp hx with hx | hx
      · exact .inl (Faithful.closed item h.1 hx hxy)
      · exact .inr (FaithfulItems.closed items h.2 hx hxy)

theorem FaithfulMembers.closed (members : List (String × Marked)) (h : FaithfulMembers contents members) {x y : String}
    (hx : .defined x ∈ memberOccurrences members) (hxy : Mentions contents x y) :
    y ∈ (memberOccurrences members).map Occurrence.name := by
  cases members with
  | nil => cases hx
  | cons member members =>
      obtain ⟨key, v⟩ := member
      rw [memberOccurrences, List.map_append, List.mem_append]
      rcases List.mem_append.mp hx with hx | hx
      · exact .inl (Faithful.closed v h.1 hx hxy)
      · exact .inr (FaithfulMembers.closed members h.2 hx hxy)

end

theorem Introduces.defined {a : List Occurrence} (h : Introduces [] a) {n : String}
    (hn : n ∈ a.map Occurrence.name) : .defined n ∈ a := by
  obtain ⟨before, after, rfl, -, -⟩ := h.once hn List.not_mem_nil
  exact List.mem_append_right _ List.mem_cons_self

theorem Faithful.mem_occurrences {a : Marked} (h : a.Faithful contents) (hi : Introduces [] a.occurrences) {n : String} :
    n ∈ a.occurrences.map Occurrence.name ↔ Reaches contents a.source n := by
  refine ⟨Faithful.reaches a h, ?_⟩
  rintro ⟨y, hy, hsome, hpath⟩
  induction hpath with
  | refl => exact Faithful.marks a h hy hsome
  | tail _ hstep ih => exact Faithful.closed a h (hi.defined ih) hstep

end Reaching

variable {parse : String → Except String Value} {registered : Registered}

def contentsOf (parse : String → Except String Value) (registered : Registered) (n : String) : Option Value :=
  registered[n]?.bind fun info => (parse info.content).toOption

theorem settles_bind {α β : Type} {x : Fueled String α} {a : α} {f : α → Fueled String β} {y : Except String β}
    (hx : Settles x (.ok a)) (hf : Settles (f a) y) : Settles (x >>= f) y := by
  rw [Settles, ExceptT.run_bind, show x.run = some (.ok a) from hx]
  exact hf

theorem unseen_cons {U seen : List String} {n : String} (hU : n ∈ U) (hn : n ∉ seen) : unseen U (n :: seen) < unseen U seen := by
  refine Finset.card_lt_card (Finset.ssubset_iff_of_subset ?_ |>.mpr ⟨n, by simp [hU, hn], by simp⟩)
  intro x hx
  simp only [Finset.mem_sdiff, List.mem_toFinset, List.mem_cons, not_or] at hx ⊢
  exact ⟨hx.1, hx.2.2⟩

theorem unseen_seenAfter (U seen : List String) (a : List Occurrence) : unseen U (seenAfter seen a) ≤ unseen U seen := by
  refine Finset.card_le_card fun x hx => ?_
  simp only [Finset.mem_sdiff, List.mem_toFinset] at hx ⊢
  exact ⟨hx.1, fun hm => hx.2 (mem_seenAfter hm)⟩

def Marks (contents : String → Option Value) (v : Value) (seen : List String) (run : Fueled String (Value × List String)) : Prop :=
  ∃ a : Marked, a.source = v ∧ a.Faithful contents ∧ Introduces seen a.occurrences ∧
    Settles run (.ok (a.resolved, seenAfter seen a.occurrences))

def Expands (contents : String → Option Value) (U : List String) (fuel : Nat)
    (expand : String → List String → Fueled String (Value × List String)) : Prop :=
  ∀ s seen, unseen U seen ≤ fuel → Marks contents (.string s) seen (expand s seen)

section Below

variable {contents : String → Option Value} {U : List String} {fuel : Nat}
  {expand : String → List String → Fueled String (Value × List String)}

mutual

/-- Inlining below a value marks it when the fuel is enough for its strings. -/
theorem inlineValue_marks (hexpand : Expands contents U fuel expand) (v : Value) (seen : List String) (h : unseen U seen ≤ fuel) :
    Marks contents v seen (inlineValue expand v seen) := by
  cases v with
  | string s => exact hexpand s seen h
  | null => exact ⟨.scalar .null, rfl, fun s hs => absurd hs List.not_mem_nil, trivial, settles_pure _⟩
  | bool b => exact ⟨.scalar (.bool b), rfl, fun s hs => absurd hs List.not_mem_nil, trivial, settles_pure _⟩
  | number n => exact ⟨.scalar (.number n), rfl, fun s hs => absurd hs List.not_mem_nil, trivial, settles_pure _⟩
  | array items =>
      obtain ⟨marked, rfl, hfaithful, hintroduces, hrun⟩ := inlineItems_marks hexpand items seen h
      refine ⟨.array marked, rfl, hfaithful, hintroduces, ?_⟩
      rw [inlineValue]
      exact settles_bind hrun (settles_pure _)
  | object members =>
      obtain ⟨marked, rfl, hfaithful, hintroduces, hrun⟩ := inlineMembers_marks hexpand members seen h
      refine ⟨.object marked, rfl, hfaithful, hintroduces, ?_⟩
      rw [inlineValue]
      exact settles_bind hrun (settles_pure _)

theorem inlineItems_marks (hexpand : Expands contents U fuel expand) (items : List Value) (seen : List String)
    (h : unseen U seen ≤ fuel) :
    ∃ marked, Marked.sources marked = items ∧ Marked.FaithfulItems contents marked ∧ Introduces seen
    (Marked.itemOccurrences marked) ∧
      Settles (inlineItems expand items seen)
      (.ok (Marked.resolvedItems marked, seenAfter seen (Marked.itemOccurrences marked))) := by
  cases items with
  | nil => exact ⟨[], rfl, trivial, trivial, settles_pure _⟩
  | cons item items =>
      obtain ⟨a, rfl, hfirst, hintroduces, hrun⟩ := inlineValue_marks hexpand item seen h
      obtain ⟨marked, rfl, hrest, hintroduces', hrun'⟩ := inlineItems_marks hexpand items (seenAfter seen a.occurrences)
        ((unseen_seenAfter U seen _).trans h)
      refine ⟨a :: marked, rfl, ⟨hfirst, hrest⟩, introduces_append.mpr ⟨hintroduces, hintroduces'⟩, ?_⟩
      rw [inlineItems, Marked.itemOccurrences, seenAfter_append]
      exact settles_bind hrun (settles_bind hrun' (settles_pure _))

theorem inlineMembers_marks (hexpand : Expands contents U fuel expand) (members : Members) (seen : List String)
    (h : unseen U seen ≤ fuel) :
    ∃ marked, Marked.memberSources marked = members ∧ Marked.FaithfulMembers contents marked ∧
      Introduces seen (Marked.memberOccurrences marked) ∧
      Settles (inlineMembers expand members seen)
        (.ok (Marked.resolvedMembers marked, seenAfter seen (Marked.memberOccurrences marked))) := by
  cases members with
  | nil => exact ⟨[], rfl, trivial, trivial, settles_pure _⟩
  | cons member members =>
      obtain ⟨key, v⟩ := member
      obtain ⟨a, rfl, hfirst, hintroduces, hrun⟩ := inlineValue_marks hexpand v seen h
      obtain ⟨marked, rfl, hrest, hintroduces', hrun'⟩ := inlineMembers_marks hexpand members (seenAfter seen a.occurrences)
        ((unseen_seenAfter U seen _).trans h)
      refine ⟨(key, a) :: marked, rfl, ⟨hfirst, hrest⟩, introduces_append.mpr ⟨hintroduces, hintroduces'⟩, ?_⟩
      rw [inlineMembers, Marked.memberOccurrences, seenAfter_append]
      exact settles_bind hrun (settles_bind hrun' (settles_pure _))

end

end Below

theorem inlineName_unregistered {s : String} (hs : registered[s]? = none) (fuel : Nat) (seen : List String) :
    Marks (contentsOf parse registered) (.string s) seen (inlineName parse registered fuel s seen) := by
  refine ⟨.scalar (.string s), rfl, fun t ht => ?_, trivial, ?_⟩
  · obtain rfl := List.mem_singleton.mp ht
    simp [contentsOf, hs]
  · rw [inlineName, hs]
    exact settles_pure _

theorem inlineName_seen {s : String} {info : RegisteredInfo} {v : Value} (hs : registered[s]? = some info)
    (hv : parse info.content = .ok v) (fuel : Nat) {seen : List String} (hseen : s ∈ seen) :
    Marks (contentsOf parse registered) (.string s) seen (inlineName parse registered fuel s seen) := by
  refine ⟨.name s, rfl, ?_, ⟨hseen, trivial⟩, ?_⟩
  · simp [Marked.Faithful, contentsOf, hs, hv, Except.toOption]
  · rw [inlineName, hs]
    simp only [List.contains_iff_mem.mpr hseen, if_true]
    exact settles_pure _

theorem inlineName_expands {U : List String} (hU : ∀ (n : String) info, registered[n]? = some info → n ∈ U)
    (hreadable : ∀ (n : String) info, registered[n]? = some info → Accepts (parse info.content)) (fuel : Nat) :
    Expands (contentsOf parse registered) U fuel (inlineName parse registered fuel) := by
  induction fuel with
  | zero =>
      intro s seen h
      cases hs : registered[s]? with
      | none => exact inlineName_unregistered hs 0 seen
      | some info =>
          obtain ⟨v, hv⟩ := hreadable s info hs
          refine inlineName_seen hs hv 0 (by_contra fun hnew => ?_)
          have := unseen_cons (hU s info hs) hnew
          omega
  | succ fuel ih =>
      intro s seen h
      cases hs : registered[s]? with
      | none => exact inlineName_unregistered hs (fuel + 1) seen
      | some info =>
          obtain ⟨v, hv⟩ := hreadable s info hs
          by_cases hseen : s ∈ seen
          · exact inlineName_seen hs hv (fuel + 1) hseen
          · have hless := unseen_cons (hU s info hs) hseen
            obtain ⟨body, rfl, hfaithful, hintroduces, hrun⟩ := inlineValue_marks ih v (s :: seen) (by omega)
            have hcontent : contentsOf parse registered s = some body.source := by simp [contentsOf, hs, hv, Except.toOption]
            have hcontains : seen.contains s = false := by
              rw [← Bool.not_eq_true, List.contains_iff_mem]
              exact hseen
            refine ⟨.definition s body, rfl, ⟨hcontent, hfaithful⟩, ⟨hseen, hintroduces⟩, ?_⟩
            rw [inlineName, hs]
            simp only [hcontains, hv, Except.mapError]
            exact settles_bind (settles_lift _) hrun

end Galadril.Intake.Schemas
