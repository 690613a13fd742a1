import Galadril.Json.Ordered

namespace Galadril.Json

def Closed (x : List Char) : Prop := ∀ c ∈ x.head?, c.isDigit = false ∧ c ≠ '-'

theorem closed_nil : Closed [] := by simp [Closed]

theorem closed_cons {c : Char} {x : List Char} (h : c.isDigit = false ∧ c ≠ '-') : Closed (c :: x) := by
  rintro d hd
  obtain rfl := Option.some.inj hd
  exact h

theorem numeral_chars {n : Int} {c : Char} (h : c ∈ (toString n).toList) : c.isDigit = true ∨ c = '-' := by
  have hnat : ∀ m : Nat, c ∈ (toString m).toList → c.isDigit = true := by
    intro m hm
    rw [Nat.toString_eq_repr, Nat.toList_repr] at hm
    exact Nat.isDigit_of_mem_toDigits (by decide) (by decide) hm
  cases n with
  | ofNat m => exact .inl (hnat m h)
  | negSucc m =>
      have hneg : (toString (Int.negSucc m)).toList = '-' :: (toString (m + 1)).toList := by
        rw [show toString (Int.negSucc m) = "-" ++ toString (m + 1) from rfl, String.toList_append]
        rfl
      rw [hneg] at h
      rcases List.mem_cons.mp h with h | h
      · exact .inr h
      · exact .inl (hnat _ h)

/-- The longest part of a text that can belong to a number. -/
def numeral (x : List Char) : List Char := x.takeWhile fun c => c.isDigit || c == '-'

theorem numeral_append {n : Int} {x : List Char} (hx : Closed x) :
    numeral ((toString n).toList ++ x) = (toString n).toList := by
  have hall : ∀ c ∈ (toString n).toList, (c.isDigit || c == '-') = true := by
    intro c hc
    rcases numeral_chars hc with h | rfl
    · simp [h]
    · rfl
  rw [numeral, List.takeWhile_append_of_pos hall]
  have hrest : x.takeWhile (fun c => c.isDigit || c == '-') = [] := by
    cases x with
    | nil => rfl
    | cons c x =>
        obtain ⟨hd, hne⟩ := hx c rfl
        rw [List.takeWhile_cons_of_neg]
        simp [hd, hne]
  rw [hrest, List.append_nil]

theorem numeral_inj {a b : Int} {x y : List Char} (hx : Closed x) (hy : Closed y)
    (h : (toString a).toList ++ x = (toString b).toList ++ y) : a = b ∧ x = y := by
  have hn := congrArg numeral h
  rw [numeral_append hx, numeral_append hy] at hn
  rw [hn] at h
  exact ⟨Int.repr_inj.mp (String.toList_inj.mp hn), List.append_cancel_left h⟩

namespace Value

mutual

def exact : Value → Bool
  | .number (.float _) => false
  | .array items => exactItems items
  | .object members => exactMembers members
  | _ => true

def exactItems : List Value → Bool
  | [] => true
  | v :: rest => exact v && exactItems rest

def exactMembers : Members → Bool
  | [] => true
  | (_, v) :: rest => exact v && exactMembers rest

end

theorem exactItems_iff {items : List Value} : exactItems items = true ↔ ∀ v ∈ items, exact v = true := by
  induction items with
  | nil => simp [exactItems]
  | cons v items ih => simp [exactItems, ih]

theorem exactMembers_iff {m : Members} : exactMembers m = true ↔ ∀ p ∈ m, exact p.2 = true := by
  induction m with
  | nil => simp [exactMembers]
  | cons p m ih =>
      obtain ⟨k, v⟩ := p
      simp [exactMembers, ih]

def kindOf (c : Char) : Nat := if c.isDigit || c == '-' then 0 else c.toNat

def kind : Value → Nat
  | .null => 110
  | .bool true => 116
  | .bool false => 102
  | .number _ => 0
  | .string _ => 34
  | .array _ => 91
  | .object _ => 123

theorem render_kind (v : Value) (hv : v.exact = true) (x : List Char) :
    (render v ++ x).head?.map kindOf = some v.kind := by
  match v with
  | .null | .bool true | .bool false | .string _ | .array _ | .object _ => rfl
  | .number (.float _) => cases hv
  | .number (.int n) =>
      have hne : (toString n).toList ≠ [] := by
        cases n with
        | ofNat m =>
            rw [show toString (Int.ofNat m) = toString m from rfl, Nat.toString_eq_repr, Nat.toList_repr]
            exact Nat.toDigits_ne_nil
        | negSucc m =>
            rw [show toString (Int.negSucc m) = "-" ++ toString (m + 1) from rfl, String.toList_append]
            simp
      obtain ⟨c, rest, hc⟩ := List.exists_cons_of_ne_nil hne
      have hnumeral := numeral_chars (n := n) (c := c) (by rw [hc]; exact List.mem_cons_self)
      rw [render, Number.render, hc, List.cons_append, List.head?_cons, Option.map_some, kindOf, if_pos]
      · rfl
      · rcases hnumeral with h | rfl
        · simp [h]
        · rfl

theorem kind_eq {v w : Value} {x y : List Char} (hv : v.exact = true) (hw : w.exact = true)
    (h : render v ++ x = render w ++ y) : v.kind = w.kind := by
  have hk := render_kind v hv x
  rw [h, render_kind w hw y, Option.some.injEq] at hk
  exact hk.symm

theorem render_ne_close {v : Value} {x y : List Char} (hv : v.exact = true) : render v ++ x ≠ ']' :: y := by
  intro h
  have hk := render_kind v hv x
  rw [h] at hk
  have hclose : some 93 = some v.kind := hk
  match v with
  | .null | .bool true | .bool false | .string _ | .array _ | .object _ | .number _ => simp [kind] at hclose

mutual

/-- A document without fractions is determined by its text. -/
theorem render_inj (v w : Value) (hv : v.exact = true) (hw : w.exact = true) {x y : List Char} (hx : Closed x)
    (hy : Closed y) (h : render v ++ x = render w ++ y) : v = w ∧ x = y := by
  have hkind := kind_eq hv hw h
  match v, w with
  | .null, .null => exact ⟨rfl, List.append_cancel_left h⟩
  | .bool true, .bool true | .bool false, .bool false => exact ⟨rfl, List.append_cancel_left h⟩
  | .string s, .string t =>
      obtain ⟨rfl, hxy⟩ := quoted_inj h
      exact ⟨rfl, hxy⟩
  | .number (.int a), .number (.int b) =>
      obtain ⟨rfl, hxy⟩ := numeral_inj hx hy h
      exact ⟨rfl, hxy⟩
  | .number (.float _), _ => cases hv
  | _, .number (.float _) => cases hw
  | .array a, .array b =>
      simp only [render, List.cons_append, List.append_assoc, List.cons.injEq, true_and] at h
      obtain ⟨rfl, hxy⟩ := renderItems_inj a b hv hw h
      exact ⟨rfl, hxy⟩
  | .object m, .object n =>
      simp only [render, List.cons_append, List.append_assoc, List.cons.injEq, true_and] at h
      obtain ⟨rfl, hxy⟩ := renderMembers_inj m n hv hw h
      exact ⟨rfl, hxy⟩
  | .bool true, .bool false | .bool false, .bool true
  | .null, .bool true | .null, .bool false | .null, .number (.int _) | .null, .string _ | .null, .array _ | .null, .object _
  | .bool true, .null | .bool true, .number (.int _) | .bool true, .string _ | .bool true, .array _ | .bool true, .object _
  | .bool false, .null | .bool false, .number (.int _) | .bool false, .string _ | .bool false, .array _
  | .bool false, .object _
  | .number (.int _), .null | .number (.int _), .bool true | .number (.int _), .bool false | .number (.int _), .string _
  | .number (.int _), .array _ | .number (.int _), .object _
  | .string _, .null | .string _, .bool true | .string _, .bool false | .string _, .number (.int _)
  | .string _, .array _ | .string _, .object _
  | .array _, .null | .array _, .bool true | .array _, .bool false | .array _, .number (.int _)
  | .array _, .string _ | .array _, .object _
  | .object _, .null | .object _, .bool true | .object _, .bool false | .object _, .number (.int _)
  | .object _, .string _ | .object _, .array _ => simp [kind] at hkind

theorem renderItems_inj (a b : List Value) (ha : exactItems a = true) (hb : exactItems b = true) {x y : List Char}
    (h : renderItems a ++ ']' :: x = renderItems b ++ ']' :: y) : a = b ∧ x = y := by
  match a, b with
  | [], [] => exact ⟨rfl, (List.cons.inj h).2⟩
  | [], [w] => exact absurd h.symm (render_ne_close (exactItems_iff.mp hb w List.mem_cons_self))
  | [], w :: w' :: b =>
      simp only [renderItems, List.append_assoc, List.cons_append, List.nil_append] at h
      exact absurd h.symm (render_ne_close (exactItems_iff.mp hb w List.mem_cons_self))
  | [v], [] => exact absurd h (render_ne_close (exactItems_iff.mp ha v List.mem_cons_self))
  | v :: v' :: a, [] =>
      simp only [renderItems, List.append_assoc, List.cons_append, List.nil_append] at h
      exact absurd h (render_ne_close (exactItems_iff.mp ha v List.mem_cons_self))
  | [v], [w] =>
      obtain ⟨rfl, hxy⟩ := render_inj v w (exactItems_iff.mp ha v List.mem_cons_self)
        (exactItems_iff.mp hb w List.mem_cons_self) (closed_cons (by decide)) (closed_cons (by decide)) h
      exact ⟨rfl, (List.cons.inj hxy).2⟩
  | [v], w :: w' :: b =>
      simp only [renderItems, List.append_assoc, List.cons_append] at h
      obtain ⟨-, hxy⟩ := render_inj v w (exactItems_iff.mp ha v List.mem_cons_self)
        (exactItems_iff.mp hb w List.mem_cons_self) (closed_cons (by decide)) (closed_cons (by decide)) h
      exact absurd (List.cons.inj hxy).1 (by decide)
  | v :: v' :: a, [w] =>
      simp only [renderItems, List.append_assoc, List.cons_append] at h
      obtain ⟨-, hxy⟩ := render_inj v w (exactItems_iff.mp ha v List.mem_cons_self)
        (exactItems_iff.mp hb w List.mem_cons_self) (closed_cons (by decide)) (closed_cons (by decide)) h
      exact absurd (List.cons.inj hxy).1 (by decide)
  | v :: v' :: a, w :: w' :: b =>
      simp only [renderItems, List.append_assoc, List.cons_append] at h
      rw [exactItems, Bool.and_eq_true] at ha hb
      obtain ⟨rfl, hxy⟩ := render_inj v w ha.1 hb.1 (closed_cons (by decide)) (closed_cons (by decide)) h
      obtain ⟨hrest, hxy⟩ := renderItems_inj (v' :: a) (w' :: b) ha.2 hb.2 (List.cons.inj hxy).2
      exact ⟨by rw [hrest], hxy⟩

theorem renderMembers_inj (m n : Members) (hm : exactMembers m = true) (hn : exactMembers n = true) {x y : List Char}
    (h : renderMembers m ++ Char.ofNat 125 :: x = renderMembers n ++ Char.ofNat 125 :: y) : m = n ∧ x = y := by
  match m, n with
  | [], [] => exact ⟨rfl, (List.cons.inj h).2⟩
  | [], [(l, w)] => exact absurd (List.cons.inj h).1 (by decide)
  | [], (l, w) :: q :: n => exact absurd (List.cons.inj h).1 (by decide)
  | [(k, v)], [] => exact absurd (List.cons.inj h).1 (by decide)
  | (k, v) :: p :: m, [] => exact absurd (List.cons.inj h).1 (by decide)
  | [(k, v)], [(l, w)] =>
      simp only [renderMembers, List.append_assoc, List.cons_append] at h
      obtain ⟨rfl, hvalue⟩ := quoted_inj h
      obtain ⟨rfl, hxy⟩ := render_inj v w (exactMembers_iff.mp hm _ List.mem_cons_self)
        (exactMembers_iff.mp hn _ List.mem_cons_self) (closed_cons (by decide)) (closed_cons (by decide)) (List.cons.inj hvalue).2
      exact ⟨rfl, (List.cons.inj hxy).2⟩
  | [(k, v)], (l, w) :: q :: n =>
      simp only [renderMembers, List.append_assoc, List.cons_append] at h
      obtain ⟨rfl, hvalue⟩ := quoted_inj h
      obtain ⟨-, hxy⟩ := render_inj v w (exactMembers_iff.mp hm _ List.mem_cons_self)
        (exactMembers_iff.mp hn _ List.mem_cons_self) (closed_cons (by decide)) (closed_cons (by decide)) (List.cons.inj hvalue).2
      exact absurd (List.cons.inj hxy).1 (by decide)
  | (k, v) :: p :: m, [(l, w)] =>
      simp only [renderMembers, List.append_assoc, List.cons_append] at h
      obtain ⟨rfl, hvalue⟩ := quoted_inj h
      obtain ⟨-, hxy⟩ := render_inj v w (exactMembers_iff.mp hm _ List.mem_cons_self)
        (exactMembers_iff.mp hn _ List.mem_cons_self) (closed_cons (by decide)) (closed_cons (by decide)) (List.cons.inj hvalue).2
      exact absurd (List.cons.inj hxy).1 (by decide)
  | (k, v) :: p :: m, (l, w) :: q :: n =>
      simp only [renderMembers, List.append_assoc, List.cons_append] at h
      rw [exactMembers, Bool.and_eq_true] at hm hn
      obtain ⟨rfl, hvalue⟩ := quoted_inj h
      obtain ⟨rfl, hxy⟩ := render_inj v w hm.1 hn.1 (closed_cons (by decide)) (closed_cons (by decide)) (List.cons.inj hvalue).2
      obtain ⟨hrest, hxy⟩ := renderMembers_inj (p :: m) (q :: n) hm.2 hn.2 (List.cons.inj hxy).2
      exact ⟨by rw [hrest], hxy⟩

end

theorem toVec_inj {v w : Value} (hv : v.exact = true) (hw : w.exact = true) (h : v.toVec = w.toVec) : v = w := by
  have hr : render v ++ [] = render w ++ [] := by rw [flatMap_utf8_inj h]
  exact (render_inj v w hv hw closed_nil closed_nil hr).1

end Value

end Galadril.Json
