import Galadril.Json.Keyed
import Galadril.Json.Text

namespace Galadril.Json

/-- The character that a text starts with, read back from its escaped form. A
quotation mark ends the text. -/
def unescape : List Char → Option (Char × List Char)
  | [] => none
  | c :: rest =>
      if c.toNat = 34 then none
      else if c.toNat = 92 then
        match rest with
        | 'b' :: rest => some (Char.ofNat 8, rest)
        | 't' :: rest => some (Char.ofNat 9, rest)
        | 'n' :: rest => some (Char.ofNat 10, rest)
        | 'f' :: rest => some (Char.ofNat 12, rest)
        | 'r' :: rest => some (Char.ofNat 13, rest)
        | 'u' :: _ :: _ :: a :: b :: rest =>
            some (Char.ofNat (16 * (a.toNat - 48) + if b.toNat < 58 then b.toNat - 48 else b.toNat - 87), rest)
        | d :: rest => some (d, rest)
        | [] => none
      else some (c, rest)

theorem unescape_escapeChar (c : Char) (x : List Char) : unescape (escapeChar c ++ x) = some (c, x) := by
  have hcontrol : ∀ n < 32, n ∉ [8, 9, 10, 12, 13] → Char.ofNat (16 * ((hexDigit (n / 16)).toNat - 48) +
      if (hexDigit (n % 16)).toNat < 58 then (hexDigit (n % 16)).toNat - 48 else (hexDigit (n % 16)).toNat - 87) =
        Char.ofNat n := by decide
  have hc := Char.ofNat_toNat c
  unfold escapeChar
  split
  · next h =>
      obtain rfl : c = Char.ofNat 8 := by rw [← hc, h]
      rfl
  · next h =>
      obtain rfl : c = Char.ofNat 9 := by rw [← hc, h]
      rfl
  · next h =>
      obtain rfl : c = Char.ofNat 10 := by rw [← hc, h]
      rfl
  · next h =>
      obtain rfl : c = Char.ofNat 12 := by rw [← hc, h]
      rfl
  · next h =>
      obtain rfl : c = Char.ofNat 13 := by rw [← hc, h]
      rfl
  · next h =>
      obtain rfl : c = Char.ofNat 34 := by rw [← hc, h]
      rfl
  · next h =>
      obtain rfl : c = Char.ofNat 92 := by rw [← hc, h]
      rfl
  · next h8 h9 h10 h12 h13 h34 h92 =>
      split
      · next hlt =>
          have hother : c.toNat ∉ [8, 9, 10, 12, 13] := by
            simp only [List.mem_cons, List.not_mem_nil, or_false, not_or]
            exact ⟨h8, h9, h10, h12, h13⟩
          have hread := hcontrol c.toNat hlt hother
          simp only [unescape, List.cons_append, List.nil_append]
          rw [if_neg (by decide), if_pos (by decide)]
          simp only [hread, hc]
      · simp only [unescape, List.cons_append, List.nil_append]
        rw [if_neg h34, if_neg h92]

theorem escaped_inj {s t x y : List Char}
    (h : s.flatMap escapeChar ++ Char.ofNat 34 :: x = t.flatMap escapeChar ++ Char.ofNat 34 :: y) : s = t ∧ x = y := by
  have hend : ∀ (c : Char) (s x y : List Char),
      (c :: s).flatMap escapeChar ++ Char.ofNat 34 :: x ≠ Char.ofNat 34 :: y := by
    intro c s x y he
    have hu := congrArg unescape he
    rw [List.flatMap_cons, List.append_assoc, unescape_escapeChar] at hu
    simp [unescape] at hu
  induction s generalizing t with
  | nil =>
      cases t with
      | nil => exact ⟨rfl, (List.cons.inj h).2⟩
      | cons d t => exact absurd h.symm (hend d t y x)
  | cons c s ih =>
      cases t with
      | nil => exact absurd h (hend c s x y)
      | cons d t =>
          rw [List.flatMap_cons, List.flatMap_cons, List.append_assoc, List.append_assoc] at h
          have hu := congrArg unescape h
          rw [unescape_escapeChar, unescape_escapeChar, Option.some.injEq, Prod.mk.injEq] at hu
          obtain ⟨rfl, hrest⟩ := hu
          obtain ⟨rfl, hxy⟩ := ih hrest
          exact ⟨rfl, hxy⟩

theorem quoted_inj {s t : String} {x y : List Char} (h : quoted s ++ x = quoted t ++ y) : s = t ∧ x = y := by
  simp only [quoted, List.append_assoc, List.cons_append, List.cons.injEq, true_and] at h
  obtain ⟨hst, hxy⟩ := escaped_inj h
  exact ⟨String.toList_inj.mp hst, hxy⟩

namespace Value

mutual

def aligned : Value → Value → Bool
  | .number a, .number b => a = b
  | .array a, .array b => alignedItems a b
  | .object m, .object n => alignedMembers m n
  | _, _ => true

def alignedItems : List Value → List Value → Bool
  | v :: a, w :: b => aligned v w && alignedItems a b
  | _, _ => true

def alignedMembers : Members → Members → Bool
  | (k, v) :: m, (l, w) :: n => decide (k = l) && aligned v w && alignedMembers m n
  | _, _ => true

end

theorem number_equiv {a b : Number} (h : Value.number a ≈ Value.number b) :
    a = b ∨ (a = .float "-0.0" ∧ b = .float "0.0") ∨ (a = .float "0.0" ∧ b = .float "-0.0") := by
  have hcanon : a.canon = b.canon := Value.number.inj (equiv_iff.mp h)
  cases a with
  | int m =>
      cases b with
      | int n => exact .inl (by simpa [Number.canon] using hcanon)
      | float t => simp [Number.canon] at hcanon
  | float s =>
      cases b with
      | int n => simp [Number.canon] at hcanon
      | float t =>
          simp only [Number.canon, Number.float.injEq] at hcanon
          split at hcanon <;> split at hcanon <;> simp_all

/-- Two objects that agree at every key go on agreeing without their first
member, once it is the same. -/
theorem same_tail {k : String} {v w : Value} {m n : Members} (hm : (Members.keys ((k, v) :: m)).Nodup)
    (hn : (Members.keys ((k, w) :: n)).Nodup)
    (h : ∀ key, Same (Members.field ((k, v) :: m) key) (Members.field ((k, w) :: n) key)) :
    v ≈ w ∧ ∀ key, Same (Members.field m key) (Members.field n key) := by
  have hnone : ∀ {u : Value} {l : Members}, (Members.keys ((k, u) :: l)).Nodup → Members.field l k = none := by
    intro u l hl
    rw [Members.keys, List.map_cons, List.nodup_cons] at hl
    cases hf : Members.field l k with
    | none => rfl
    | some x => exact absurd (List.mem_map_of_mem (Members.mem_of_field hf)) hl.1
  constructor
  · have hk := h k
    rwa [Members.field, if_pos rfl, Members.field, if_pos rfl, same_some] at hk
  · intro key
    by_cases hk : k = key
    · subst hk
      rw [hnone hm, hnone hn]
      exact Same.refl none
    · have hkey := h key
      rwa [Members.field, if_neg hk, Members.field, if_neg hk] at hkey

theorem keyedMembers_cons {k : String} {v : Value} {m : Members} (h : (Value.object ((k, v) :: m)).keyed = true) :
    v.keyed = true ∧ (Value.object m).keyed = true := by
  simp only [keyed, keyedMembers, Members.keys, List.map_cons, List.nodup_cons, Bool.and_eq_true, decide_eq_true_eq] at h
  obtain ⟨⟨-, hkeys⟩, hv, hm⟩ := h
  exact ⟨hv, by simp [keyed, Members.keys, hkeys, hm]⟩

theorem eq_nil_of_same {n : Members} (h : ∀ key, Same (Members.field [] key) (Members.field n key)) : n = [] := by
  cases n with
  | nil => rfl
  | cons p n =>
      obtain ⟨k, v⟩ := p
      have hk := h k
      rw [Members.field, Members.field, if_pos rfl] at hk
      cases hk

theorem exists_cons_of_same {k : String} {v : Value} {m n : Members}
    (h : ∀ key, Same (Members.field ((k, v) :: m) key) (Members.field n key)) : ∃ l w n', n = (l, w) :: n' := by
  cases n with
  | nil =>
      have hk := h k
      simp [Members.field] at hk
  | cons p n => exact ⟨p.1, p.2, n, rfl⟩

mutual

/-- The text of a document fixes the order of the members, once the document is
known up to it. -/
theorem aligned_of_render (v w : Value) (hv : v.keyed = true) (hw : w.keyed = true) (h : v ≈ w) {x y : List Char}
    (hr : render v ++ x = render w ++ y) : aligned v w = true ∧ x = y := by
  match v, w with
  | .null, .null => exact ⟨rfl, by simpa [render] using hr⟩
  | .bool a, .bool b =>
      obtain rfl : a = b := by simpa [equiv_iff, canon] using h
      exact ⟨rfl, List.append_cancel_left hr⟩
  | .string s, .string t =>
      obtain rfl : s = t := by simpa [equiv_iff, canon] using h
      exact ⟨rfl, List.append_cancel_left hr⟩
  | .number a, .number b =>
      rcases number_equiv h with rfl | ⟨rfl, rfl⟩ | ⟨rfl, rfl⟩
      · exact ⟨by simp [aligned], List.append_cancel_left hr⟩
      · simp [render, Number.render] at hr
      · simp [render, Number.render] at hr
  | .array a, .array b =>
      simp only [render, List.cons_append, List.append_assoc, List.cons.injEq, true_and] at hr
      exact alignedItems_of_render a b hv hw (array_equiv.mp h) hr
  | .object m, .object n =>
      simp only [render, List.cons_append, List.append_assoc, List.cons.injEq, true_and] at hr
      exact alignedMembers_of_render m n hv hw (object_equiv.mp h) hr
  | .null, .bool _ | .null, .number _ | .null, .string _ | .null, .array _ | .null, .object _
  | .bool _, .null | .bool _, .number _ | .bool _, .string _ | .bool _, .array _ | .bool _, .object _
  | .number _, .null | .number _, .bool _ | .number _, .string _ | .number _, .array _
  | .number _, .object _ | .string _, .null | .string _, .bool _ | .string _, .number _
  | .string _, .array _ | .string _, .object _ | .array _, .null | .array _, .bool _
  | .array _, .number _ | .array _, .string _ | .array _, .object _ | .object _, .null
  | .object _, .bool _ | .object _, .number _ | .object _, .string _ | .object _, .array _ =>
      simp [canon] at h

theorem alignedItems_of_render (a b : List Value) (ha : (Value.array a).keyed = true) (hb : (Value.array b).keyed = true)
    (h : List.Forall₂ (· ≈ ·) a b) {x y : List Char} (hr : renderItems a ++ ']' :: x = renderItems b ++ ']' :: y) :
    alignedItems a b = true ∧ x = y := by
  match a, b with
  | [], [] => exact ⟨rfl, by simpa [renderItems] using hr⟩
  | v :: a, w :: b =>
      obtain ⟨hvw, hab⟩ := List.forall₂_cons.mp h
      have hv := keyed_of_mem ha List.mem_cons_self
      have hw := keyed_of_mem hb List.mem_cons_self
      match a, b with
      | [], [] =>
          obtain ⟨hal, hxy⟩ := aligned_of_render v w hv hw hvw hr
          exact ⟨by simp [alignedItems, hal], (List.cons.inj hxy).2⟩
      | v' :: a, w' :: b =>
          simp only [renderItems, List.append_assoc, List.cons_append] at hr
          obtain ⟨hal, hrest⟩ := aligned_of_render v w hv hw hvw hr
          have ha' : (Value.array (v' :: a)).keyed = true := by
            rw [keyed, keyedItems, Bool.and_eq_true] at ha
            exact ha.2
          have hb' : (Value.array (w' :: b)).keyed = true := by
            rw [keyed, keyedItems, Bool.and_eq_true] at hb
            exact hb.2
          obtain ⟨hals, hxy⟩ := alignedItems_of_render (v' :: a) (w' :: b) ha' hb' hab (List.cons.inj hrest).2
          refine ⟨?_, hxy⟩
          rw [alignedItems, hal, hals]
          rfl
      | [], w' :: b | v' :: a, [] => cases hab
  | [], w :: b | v :: a, [] => cases h

theorem alignedMembers_of_render (m n : Members) (hm : (Value.object m).keyed = true) (hn : (Value.object n).keyed = true)
    (h : ∀ key, Same (Members.field m key) (Members.field n key)) {x y : List Char}
    (hr : renderMembers m ++ Char.ofNat 125 :: x = renderMembers n ++ Char.ofNat 125 :: y) :
    alignedMembers m n = true ∧ x = y := by
  match m with
  | [] =>
      obtain rfl := eq_nil_of_same h
      exact ⟨rfl, by simpa [renderMembers] using hr⟩
  | (k, v) :: m =>
      obtain ⟨l, w, n, rfl⟩ := exists_cons_of_same h
      -- the texts of the first members end where their values end
      have hfirst : ∃ z z', quoted k ++ ':' :: (render v ++ z) = quoted l ++ ':' :: (render w ++ z') ∧
          (z = z' → m = [] ∧ n = [] ∧ x = y ∨ ∃ p m' q n', m = p :: m' ∧ n = q :: n' ∧
            renderMembers m ++ Char.ofNat 125 :: x = renderMembers n ++ Char.ofNat 125 :: y) := by
        cases m with
        | nil =>
            cases n with
            | nil =>
                simp only [renderMembers, List.append_assoc, List.cons_append] at hr
                exact ⟨_, _, hr, fun he => .inl ⟨rfl, rfl, (List.cons.inj he).2⟩⟩
            | cons q n =>
                simp only [renderMembers, List.append_assoc, List.cons_append] at hr
                exact ⟨_, _, hr, fun he => absurd (List.cons.inj he).1 (by decide)⟩
        | cons p m =>
            cases n with
            | nil =>
                simp only [renderMembers, List.append_assoc, List.cons_append] at hr
                exact ⟨_, _, hr, fun he => absurd (List.cons.inj he).1 (by decide)⟩
            | cons q n =>
                simp only [renderMembers, List.append_assoc, List.cons_append] at hr
                exact ⟨_, _, hr, fun he => .inr ⟨p, m, q, n, rfl, rfl, (List.cons.inj he).2⟩⟩
      obtain ⟨z, z', hquoted, hrest⟩ := hfirst
      obtain ⟨rfl, hvalues⟩ := quoted_inj hquoted
      obtain ⟨hv, hm'⟩ := keyedMembers_cons hm
      obtain ⟨hw, hn'⟩ := keyedMembers_cons hn
      obtain ⟨hvw, htail⟩ := same_tail (keyed_keys hm) (keyed_keys hn) h
      obtain ⟨hal, hz⟩ := aligned_of_render v w hv hw hvw (List.cons.inj hvalues).2
      rcases hrest hz with ⟨rfl, rfl, hxy⟩ | ⟨p, m', q, n', -, -, hr'⟩
      · exact ⟨by simp [alignedMembers, hal], hxy⟩
      · obtain ⟨hals, hxy⟩ := alignedMembers_of_render m n hm' hn' htail hr'
        exact ⟨by simp [alignedMembers, hal, hals], hxy⟩

end

mutual

/-- Equal documents in the same order are the same. -/
theorem eq_of_aligned (v w : Value) (hv : v.keyed = true) (hw : w.keyed = true) (h : v ≈ w) (ha : aligned v w = true) :
    v = w := by
  match v, w with
  | .null, .null => rfl
  | .bool a, .bool b =>
      obtain rfl : a = b := by simpa [equiv_iff, canon] using h
      rfl
  | .string s, .string t =>
      obtain rfl : s = t := by simpa [equiv_iff, canon] using h
      rfl
  | .number a, .number b =>
      obtain rfl : a = b := by simpa [aligned] using ha
      rfl
  | .array a, .array b => rw [eq_of_alignedItems a b hv hw (array_equiv.mp h) ha]
  | .object m, .object n => rw [eq_of_alignedMembers m n hv hw (object_equiv.mp h) ha]
  | .null, .bool _ | .null, .number _ | .null, .string _ | .null, .array _ | .null, .object _
  | .bool _, .null | .bool _, .number _ | .bool _, .string _ | .bool _, .array _ | .bool _, .object _
  | .number _, .null | .number _, .bool _ | .number _, .string _ | .number _, .array _
  | .number _, .object _ | .string _, .null | .string _, .bool _ | .string _, .number _
  | .string _, .array _ | .string _, .object _ | .array _, .null | .array _, .bool _
  | .array _, .number _ | .array _, .string _ | .array _, .object _ | .object _, .null
  | .object _, .bool _ | .object _, .number _ | .object _, .string _ | .object _, .array _ =>
      simp [canon] at h

theorem eq_of_alignedItems (a b : List Value) (ha : (Value.array a).keyed = true) (hb : (Value.array b).keyed = true)
    (h : List.Forall₂ (· ≈ ·) a b) (hal : alignedItems a b = true) : a = b := by
  match a, b with
  | [], [] => rfl
  | v :: a, w :: b =>
      obtain ⟨hvw, hab⟩ := List.forall₂_cons.mp h
      rw [alignedItems, Bool.and_eq_true] at hal
      simp only [keyed, keyedItems, Bool.and_eq_true] at ha hb
      rw [eq_of_aligned v w ha.1 hb.1 hvw hal.1, eq_of_alignedItems a b ha.2 hb.2 hab hal.2]
  | [], w :: b | v :: a, [] => cases h

theorem eq_of_alignedMembers (m n : Members) (hm : (Value.object m).keyed = true) (hn : (Value.object n).keyed = true)
    (h : ∀ key, Same (Members.field m key) (Members.field n key)) (hal : alignedMembers m n = true) : m = n := by
  match m with
  | [] => exact (eq_nil_of_same h).symm
  | (k, v) :: m =>
      obtain ⟨l, w, n, rfl⟩ := exists_cons_of_same h
      simp only [alignedMembers, Bool.and_eq_true, decide_eq_true_eq] at hal
      obtain ⟨⟨rfl, hvw⟩, hmn⟩ := hal
      obtain ⟨hv, hm'⟩ := keyedMembers_cons hm
      obtain ⟨hw, hn'⟩ := keyedMembers_cons hn
      obtain ⟨he, htail⟩ := same_tail (keyed_keys hm) (keyed_keys hn) h
      rw [eq_of_aligned v w hv hw he hvw, eq_of_alignedMembers m n hm' hn' htail hmn]

end

theorem flatMap_utf8_inj {s t : List Char} (h : s.flatMap String.utf8EncodeChar = t.flatMap String.utf8EncodeChar) : s = t := by
  have hbytes : s.utf8Encode = t.utf8Encode := by rw [List.utf8Encode, List.utf8Encode, h]
  have hread := congrArg ByteArray.utf8Decode? hbytes
  rw [List.utf8Decode?_utf8Encode, List.utf8Decode?_utf8Encode, Option.some.injEq] at hread
  simpa using hread

/-- Of documents that are equal as JSON, exactly those with the same order have
the same text. -/
theorem toVec_eq_iff {a b : Value} (ha : a.keyed = true) (hb : b.keyed = true) (h : a ≈ b) :
    a.toVec = b.toVec ↔ aligned a b = true := by
  constructor
  · intro hvec
    have hr : render a ++ [] = render b ++ [] := by rw [flatMap_utf8_inj hvec]
    exact (aligned_of_render a b ha hb h hr).1
  · intro hal
    rw [eq_of_aligned a b ha hb h hal]

end Value

end Galadril.Json
