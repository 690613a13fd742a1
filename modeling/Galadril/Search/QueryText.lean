import Galadril.Lib.Text
import Galadril.Lib.Words
import Galadril.Registry.Identity

namespace Galadril.Search

open Lib.Text Lib.Words Registry.Identity

structure ParsedQuery where
  freeText : String
  entityId : Option String
  eventType : Option String
  modality : Option String

inductive FilterKey
  | entityId
  | event
  | modality
deriving DecidableEq

def FilterKey.ofName (name : List Char) : Option FilterKey :=
  if name = "entity_id".toList then some .entityId
  else if name = "event".toList then some .event
  else if name = "modality".toList then some .modality
  else none

def ParsedQuery.value (out : ParsedQuery) : FilterKey → Option String
  | .entityId => out.entityId
  | .event => out.eventType
  | .modality => out.modality

def ParsedQuery.record (out : ParsedQuery) (value : String) : FilterKey → ParsedQuery
  | .entityId => { out with entityId := some value }
  | .event => { out with eventType := some value }
  | .modality => { out with modality := some value }

def filterOf (part : List Char) : Option (FilterKey × String) :=
  (splitOnce ':' part).bind fun kv => (FilterKey.ofName kv.1).map fun key => (key, String.ofList kv.2)

def find (part : List Char) : List Char → Option Nat
  | [] => if part.isEmpty then some 0 else none
  | c :: rest => if part.isPrefixOf (c :: rest) then some 0 else (find part rest).map (· + 1)

structure Scan where
  out : ParsedQuery
  firstFilterStart : Option Nat
  firstFreeStart : Option Nat
  cursor : Nat

def Scan.token (s : Scan) (start : Nat) (part : List Char) : Scan :=
  let s := { s with cursor := start + part.length }
  match filterOf part with
  | some (key, value) =>
      if (s.out.value key).isNone then { s with
        out := s.out.record value key
        firstFilterStart := s.firstFilterStart.or (some start) }
      else { s with firstFreeStart := s.firstFreeStart.or (some start) }
  | none => { s with firstFreeStart := s.firstFreeStart.or (some start) }

def scan (text : List Char) : Scan → List (List Char) → Scan
  | s, [] => s
  | s, part :: parts =>
      match find part (text.drop s.cursor) with
      | some relative => scan text (s.token (s.cursor + relative) part) parts
      | none => s

def trim (text : List Char) : List Char := trimBy isWhitespace text

def freeText (text : List Char) (s : Scan) : List Char :=
  match s.firstFreeStart, s.firstFilterStart with
  | some free, some filter => if free < filter then trim ((text.take filter).drop free) else trim (text.drop free)
  | some free, none => trim (text.drop free)
  | none, some _ => []
  | none, none => text

def parseGlobalQuery (q : String) : ParsedQuery :=
  let text := trim q.toList
  let out : ParsedQuery := ⟨String.ofList text, none, none, none⟩
  if text.contains ':' then
    let s := scan text ⟨out, none, none, 0⟩ (words isWhitespace text)
    { s.out with freeText := String.ofList (freeText text s) }
  else out

def marks : List FilterKey → List (List Char) → List Bool
  | _, [] => []
  | seen, part :: parts =>
      match filterOf part with
      | some (key, _) => if key ∈ seen then false :: marks seen parts else true :: marks (key :: seen) parts
      | none => false :: marks seen parts

def tokens (q : String) : List (List Char) := words isWhitespace q.toList

def unmarked (parts : List (List Char)) (ms : List Bool) : List (List Char) :=
  ((parts.zip ms).filter fun x => !x.2).map Prod.fst

def freeTokens (q : String) : List (List Char) := unmarked (tokens q) (marks [] (tokens q))

def firstValue (key : FilterKey) (parts : List (List Char)) : Option String :=
  parts.findSome? fun part => (filterOf part).bind fun kv => if kv.1 = key then some kv.2 else none

structure Split (q : String) (out : ParsedQuery) : Prop where
  free : words isWhitespace out.freeText.toList = freeTokens q
  recorded : ∀ key, out.value key = firstValue key (tokens q)

def Together (ms : List Bool) : Prop :=
  ∃ a b, ms = List.replicate a true ++ List.replicate b false ∨ ms = List.replicate a false ++ List.replicate b true

theorem marks_length (seen : List FilterKey) (parts : List (List Char)) : (marks seen parts).length = parts.length := by
  induction parts generalizing seen with
  | nil => rfl
  | cons part parts ih =>
      rw [marks]
      split
      · split <;> simp [ih]
      · simp [ih]

theorem words_trim (text : List Char) : words isWhitespace (trim text) = words isWhitespace text := by
  have hall : ∀ l : List Char, ∀ c ∈ l.takeWhile isWhitespace, isWhitespace c = true := fun l c hc => List.mem_takeWhile_imp hc
  have hlead : words isWhitespace (text.dropWhile isWhitespace) = words isWhitespace text := by
    conv => rhs; rw [← List.takeWhile_append_dropWhile (p := isWhitespace) (l := text)]
    exact (words_gap (hall text) _).symm
  rw [← hlead, trim, trimBy]
  generalize text.dropWhile isWhitespace = m
  have hsplit : m = (m.reverse.dropWhile isWhitespace).reverse ++ (m.reverse.takeWhile isWhitespace).reverse := by
    rw [← List.reverse_append, List.takeWhile_append_dropWhile, List.reverse_reverse]
  conv => rhs; rw [hsplit]
  exact (words_append_gap (fun c hc => hall _ c (List.mem_reverse.mp hc)) _).symm

theorem find_part {gap part : List Char} (hgap : ∀ c ∈ gap, isWhitespace c = true) (hne : part ≠ [])
    (hpart : ∀ c ∈ part, isWhitespace c = false) (rest : List Char) : find part (gap ++ (part ++ rest)) = some gap.length := by
  obtain ⟨d, part, rfl⟩ := List.exists_cons_of_ne_nil hne
  induction gap with
  | nil => simp [find]
  | cons c gap ih =>
      have hdiff : d ≠ c := by
        rintro rfl
        have hc := hgap d List.mem_cons_self
        rw [hpart d List.mem_cons_self] at hc
        cases hc
      rw [List.cons_append, find, if_neg (by simp [hdiff]), ih fun e he => hgap e (List.mem_cons_of_mem _ he)]
      simp

def firstStart (wanted : Bool) : Nat → List (List Char × List Char) → List Bool → Option Nat
  | start, x :: rest, m :: ms =>
      if m = wanted then some start else firstStart wanted (start + x.1.length + x.2.length) rest ms
  | _, _, _ => none

theorem record_value (out : ParsedQuery) (value : String) (key key' : FilterKey) :
    (out.record value key).value key' = if key = key' then some value else out.value key' := by
  cases key <;> cases key' <;> rfl

theorem firstValue_cons (key : FilterKey) (part : List Char) (parts : List (List Char)) :
    firstValue key (part :: parts) =
      ((filterOf part).bind fun kv => if kv.1 = key then some kv.2 else none).or (firstValue key parts) := by
  rw [firstValue, List.findSome?_cons]
  cases (filterOf part).bind fun kv => if kv.1 = key then some kv.2 else none <;> rfl

def Scan.seesFree (s : Scan) (start : Nat) (part : List Char) : Scan :=
  { s with
    cursor := start + part.length
    firstFreeStart := s.firstFreeStart.or (some start) }

def Scan.seesFilter (s : Scan) (start : Nat) (part : List Char) (key : FilterKey) (value : String) : Scan :=
  { s with
    cursor := start + part.length
    out := s.out.record value key
    firstFilterStart := s.firstFilterStart.or (some start) }

theorem token_cases (s : Scan) (seen : List FilterKey) (hseen : ∀ key, key ∈ seen ↔ (s.out.value key).isSome = true)
    (start : Nat) (part : List Char) (parts : List (List Char)) :
    (s.token start part = s.seesFree start part ∧ marks seen (part :: parts) = false :: marks seen parts ∧
      ∀ key, (s.out.value key).or (firstValue key (part :: parts)) = (s.out.value key).or (firstValue key parts)) ∨
    ∃ key value, s.token start part = s.seesFilter start part key value ∧
      marks seen (part :: parts) = true :: marks (key :: seen) parts ∧
      ∀ key', (s.out.value key').or (firstValue key' (part :: parts)) =
        ((s.out.record value key).value key').or (firstValue key' parts) := by
  cases hf : filterOf part with
  | none => exact .inl ⟨by simp [Scan.token, Scan.seesFree, hf], by simp [marks, hf], fun key => by simp [firstValue_cons, hf]⟩
  | some kv =>
      obtain ⟨key, value⟩ := kv
      by_cases hk : key ∈ seen
      · obtain ⟨v, hv⟩ := Option.isSome_iff_exists.mp ((hseen key).mp hk)
        refine .inl ⟨by simp [Scan.token, Scan.seesFree, hf, hv], by simp [marks, hf, hk], fun key' => ?_⟩
        rw [firstValue_cons, hf]
        by_cases hkey : key = key'
        · simp [← hkey, hv]
        · simp [hkey]
      · have hnone : s.out.value key = none := by
          rw [hseen, Bool.not_eq_true, Option.isSome_eq_false_iff, Option.isNone_iff_eq_none] at hk
          exact hk
        refine .inr ⟨key, value, by simp [Scan.token, Scan.seesFilter, hf, hnone], by simp [marks, hf, hk], fun key' => ?_⟩
        rw [firstValue_cons, hf, record_value]
        by_cases hkey : key = key'
        · simp [← hkey, hnone]
        · simp [hkey]

theorem scan_spec (text done gap : List Char) (rest : List (List Char × List Char)) (s : Scan) (seen : List FilterKey)
    (htext : text = done ++ (gap ++ spelled rest)) (hcursor : s.cursor = done.length)
    (hgap : ∀ c ∈ gap, isWhitespace c = true) (hlaid : Laid isWhitespace rest)
    (hseen : ∀ key, key ∈ seen ↔ (s.out.value key).isSome = true) :
    (scan text s (rest.map Prod.fst)).firstFilterStart =
        s.firstFilterStart.or (firstStart true (done.length + gap.length) rest (marks seen (rest.map Prod.fst))) ∧
      (scan text s (rest.map Prod.fst)).firstFreeStart =
        s.firstFreeStart.or (firstStart false (done.length + gap.length) rest (marks seen (rest.map Prod.fst))) ∧
      ∀ key, (scan text s (rest.map Prod.fst)).out.value key = (s.out.value key).or (firstValue key (rest.map Prod.fst)) := by
  induction rest generalizing done gap s seen with
  | nil => simp [scan, firstStart, firstValue]
  | cons x rest ih =>
      cases hlaid with
      | @cons word after _ hne hword hafter hlast hlaid =>
          have hdrop : text.drop s.cursor = gap ++ (word ++ (after ++ spelled rest)) := by
            rw [htext, hcursor, List.drop_left, spelled_cons, List.append_assoc]
          have hscan : scan text s (((word, after) :: rest).map Prod.fst) =
              scan text (s.token (done.length + gap.length) word) (rest.map Prod.fst) := by
            rw [List.map_cons, scan, hdrop, find_part hgap hne hword, hcursor]
          have htext' : text = (done ++ gap ++ word) ++ (after ++ spelled rest) := by
            rw [htext, spelled_cons]
            simp only [List.append_assoc]
          have hlength : done.length + gap.length + word.length = (done ++ gap ++ word).length := by simp [Nat.add_assoc]
          have hstart : ∀ wanted m ms, firstStart wanted (done.length + gap.length) ((word, after) :: rest) (m :: ms) =
              if m = wanted then some (done.length + gap.length)
              else firstStart wanted ((done ++ gap ++ word).length + after.length) rest ms := by
            intro wanted m ms
            rw [firstStart, hlength]
          rw [hscan, List.map_cons]
          rcases token_cases s seen hseen (done.length + gap.length) word (rest.map Prod.fst) with
            ⟨htoken, hmarks, hvalue⟩ | ⟨key, value, htoken, hmarks, hvalue⟩
          · obtain ⟨h₁, h₂, h₃⟩ := ih (done ++ gap ++ word) after (s.seesFree (done.length + gap.length) word) seen htext'
              hlength hafter hlaid hseen
            rw [htoken, hmarks, hstart, hstart]
            refine ⟨h₁, ?_, fun key => ?_⟩
            · rw [h₂, Scan.seesFree]
              cases s.firstFreeStart <;> rfl
            · rw [h₃, hvalue]
              rfl
          · have hseen' : ∀ key', key' ∈ key :: seen ↔ ((s.out.record value key).value key').isSome = true := by
              intro key'
              rw [record_value, List.mem_cons, hseen]
              by_cases hkey : key = key'
              · simp [hkey]
              · simp [hkey, Ne.symm hkey]
            obtain ⟨h₁, h₂, h₃⟩ := ih (done ++ gap ++ word) after (s.seesFilter (done.length + gap.length) word key value)
              (key :: seen) htext' hlength hafter hlaid hseen'
            rw [htoken, hmarks, hstart, hstart]
            refine ⟨?_, h₂, fun key' => ?_⟩
            · rw [h₁, Scan.seesFilter]
              cases s.firstFilterStart <;> rfl
            · rw [h₃, hvalue]
              rfl

theorem firstStart_eq_some {wanted : Bool} {start position : Nat} {rest : List (List Char × List Char)} {ms : List Bool}
    (h : firstStart wanted start rest ms = some position) (hlength : ms.length = rest.length) :
    ∃ before after msAfter, rest = before ++ after ∧ ms = List.replicate before.length (!wanted) ++ wanted :: msAfter ∧
      position = start + (spelled before).length := by
  induction rest generalizing start ms with
  | nil => simp [firstStart] at h
  | cons x rest ih =>
      cases ms with
      | nil => simp at hlength
      | cons m ms =>
          rw [firstStart] at h
          split at h
          · next hm =>
              cases h
              exact ⟨[], x :: rest, ms, rfl, by simp [hm], rfl⟩
          · next hm =>
              obtain ⟨before, after, msAfter, rfl, rfl, rfl⟩ := ih h (by simpa using hlength)
              have hm : m = !wanted := by cases m <;> cases wanted <;> simp_all
              refine ⟨x :: before, after, msAfter, rfl, by simp [hm, List.replicate_succ], ?_⟩
              rw [spelled_cons, List.length_append, List.length_append]
              omega

theorem firstStart_eq_none {wanted : Bool} {start : Nat} {rest : List (List Char × List Char)} {ms : List Bool}
    (h : firstStart wanted start rest ms = none) (hlength : ms.length = rest.length) :
    ms = List.replicate rest.length (!wanted) := by
  induction rest generalizing start ms with
  | nil => simpa using hlength
  | cons x rest ih =>
      cases ms with
      | nil => simp at hlength
      | cons m ms =>
          rw [firstStart] at h
          split at h
          · cases h
          · next hm =>
              have hm : m = !wanted := by cases m <;> cases wanted <;> simp_all
              rw [ih h (by simpa using hlength), hm]
              rfl

theorem unmarked_append (xs ys : List (List Char)) (b : Bool) (ms : List Bool) :
    unmarked (xs ++ ys) (List.replicate xs.length b ++ ms) = (if b then [] else xs) ++ unmarked ys ms := by
  induction xs with
  | nil => cases b <;> rfl
  | cons x xs ih => cases b <;> simpa [unmarked, List.replicate_succ] using ih

theorem unmarked_split (before after : List (List Char × List Char)) (b : Bool) (ms : List Bool) :
    unmarked ((before ++ after).map Prod.fst) (List.replicate before.length b ++ ms) =
      (if b then [] else before.map Prod.fst) ++ unmarked (after.map Prod.fst) ms := by
  have happend := unmarked_append (before.map Prod.fst) (after.map Prod.fst) b ms
  rwa [List.length_map, ← List.map_append] at happend

theorem unmarked_replicate (xs : List (List Char)) (b : Bool) :
    unmarked xs (List.replicate xs.length b) = if b then [] else xs := by
  simpa [unmarked] using unmarked_append xs [] b []

theorem unmarked_eq_nil {parts : List (List Char)} {ms : List Bool} (hlength : ms.length = parts.length) :
    unmarked parts ms = [] ↔ ms = List.replicate ms.length true := by
  rw [List.eq_replicate_length, unmarked, List.map_eq_nil_iff, List.filter_eq_nil_iff]
  constructor
  · intro h b hb
    obtain ⟨i, hi, rfl⟩ := List.getElem_of_mem hb
    have hmem : (parts[i], ms[i]) ∈ parts.zip ms := by
      refine List.mem_of_getElem (i := i) (h := by simp [hlength] at hi ⊢; exact hi) ?_
      simp
    simpa using h _ hmem
  · intro h x hx
    simpa using h x.2 (List.of_mem_zip hx).2

theorem unmarked_eq_self {parts : List (List Char)} {ms : List Bool} (hlength : ms.length = parts.length) :
    unmarked parts ms = parts ↔ ms = List.replicate ms.length false := by
  constructor
  · intro h
    have hcount : ((parts.zip ms).filter fun x => !x.2).length = (parts.zip ms).length := by
      have := congrArg List.length h
      simpa [unmarked, hlength] using this
    rw [List.length_filter_eq_length_iff] at hcount
    rw [List.eq_replicate_length]
    intro b hb
    obtain ⟨i, hi, rfl⟩ := List.getElem_of_mem hb
    have hmem : (parts[i], ms[i]) ∈ parts.zip ms := by
      refine List.mem_of_getElem (i := i) (h := by simp [hlength] at hi ⊢; exact hi) ?_
      simp
    simpa using hcount _ hmem
  · intro h
    rw [h, hlength, unmarked_replicate]
    rfl

theorem splitOnce_absent {c : Char} {part : List Char} (h : c ∉ part) : splitOnce c part = none := by
  induction part with
  | nil => rfl
  | cons d part ih =>
      rw [List.mem_cons, not_or] at h
      rw [splitOnce, if_neg (Ne.symm h.1), ih h.2]
      rfl

theorem plain_tokens {parts : List (List Char)} (h : ∀ part ∈ parts, ':' ∉ part) (seen : List FilterKey) :
    marks seen parts = List.replicate parts.length false ∧ ∀ key, firstValue key parts = none := by
  induction parts with
  | nil => exact ⟨rfl, fun _ => rfl⟩
  | cons part parts ih =>
      have hf : filterOf part = none := by
        rw [filterOf, splitOnce_absent (h part List.mem_cons_self)]
        rfl
      obtain ⟨hmarks, hvalues⟩ := ih fun q hq => h q (List.mem_cons_of_mem _ hq)
      refine ⟨?_, fun key => ?_⟩
      · simp [marks, hf, hmarks, List.replicate_succ]
      · rw [firstValue_cons, hf, hvalues]
        rfl

theorem together_of_eq {ms : List Bool} {n : Nat} {b : Bool} (h : ms = List.replicate n b) : Together ms := by
  cases b with
  | true => exact ⟨n, 0, .inl (by simpa using h)⟩
  | false => exact ⟨n, 0, .inr (by simpa using h)⟩

theorem getElem_halves {a d j : Nat} {b x : Bool} (h : (List.replicate a b ++ List.replicate d (!b))[j]? = some x) :
    x = if j < a then b else !b := by
  rw [List.getElem?_append, List.length_replicate] at h
  split at h
  · next hj => simpa [hj] using h.symm
  · next hj =>
      rw [List.getElem?_replicate] at h
      split at h
      · simpa [hj] using h.symm
      · cases h

/-- After the first change of marks, no other one may follow. -/
theorem together_iff {b : Bool} {k : Nat} (hk : 0 < k) (ms : List Bool) :
    Together (List.replicate k b ++ (!b) :: ms) ↔ ms = List.replicate ms.length (!b) := by
  constructor
  · intro h
    obtain ⟨a, d, c, heq⟩ : ∃ a d c, List.replicate k b ++ (!b) :: ms = List.replicate a c ++ List.replicate d (!c) := by
      obtain ⟨a, d, h | h⟩ := h
      · exact ⟨a, d, true, h⟩
      · exact ⟨a, d, false, h⟩
    have hget : ∀ j x, (List.replicate k b ++ (!b) :: ms)[j]? = some x → x = if j < a then c else !c := by
      intro j x hx
      rw [heq] at hx
      exact getElem_halves hx
    have hfirst := hget 0 b (by simp [hk])
    have hchange := hget k (!b) (by simp)
    rw [List.eq_replicate_length]
    intro x hx
    obtain ⟨i, hi, rfl⟩ := List.getElem_of_mem hx
    have hrest := hget (k + 1 + i) ms[i] (by simp [Nat.add_assoc, Nat.add_comm 1 i, hi])
    -- the change at `k` fixes both `a` and `c`
    have hak : a ≤ k := by
      by_contra hlt
      rw [if_pos (by omega)] at hfirst hchange
      cases b <;> simp_all
    rw [if_neg (by omega)] at hchange hrest
    rw [hrest, hchange]
  · intro h
    rw [h]
    have hcons : (!b) :: List.replicate ms.length (!b) = List.replicate (ms.length + 1) (!b) := rfl
    rw [hcons]
    cases b with
    | true => exact ⟨k, ms.length + 1, .inl rfl⟩
    | false => exact ⟨k, ms.length + 1, .inr rfl⟩

theorem trim_words {before after : List (List Char × List Char)} (h : Laid isWhitespace (before ++ after)) :
    words isWhitespace (trim (spelled before)) = before.map Prod.fst ∧
      words isWhitespace (trim (spelled after)) = after.map Prod.fst := by
  rw [words_trim, words_trim]
  exact ⟨h.left.words, h.right.words⟩

theorem spelled_pos {p : Char → Bool} {x : List Char × List Char} {rest : List (List Char × List Char)}
    (h : Laid p (x :: rest)) : 0 < (spelled (x :: rest)).length := by
  cases h with
  | cons hne =>
      have hpos := List.length_pos_of_ne_nil hne
      simp only [spelled_cons, List.length_append]
      omega

theorem freeText_words {gap : List Char} {rest : List (List Char × List Char)} (hgap : ∀ c ∈ gap, isWhitespace c = true)
    (hlaid : Laid isWhitespace rest) {ms : List Bool} (hlength : ms.length = rest.length) {s : Scan}
    (hfilter : s.firstFilterStart = firstStart true gap.length rest ms)
    (hfree : s.firstFreeStart = firstStart false gap.length rest ms) :
    words isWhitespace (freeText (gap ++ spelled rest) s) = unmarked (rest.map Prod.fst) ms ↔ Together ms := by
  have hall : words isWhitespace (gap ++ spelled rest) = rest.map Prod.fst := (words_gap hgap _).trans hlaid.words
  have hmap : ms.length = (rest.map Prod.fst).length := by simpa using hlength
  cases hf : s.firstFreeStart with
  | none =>
      -- there are filters only
      have hms := firstStart_eq_none (hfree.symm.trans hf) hlength
      have hnil : unmarked (rest.map Prod.fst) ms = [] := (unmarked_eq_nil hmap).mpr (by rw [hlength]; exact hms)
      refine iff_of_true ?_ (together_of_eq hms)
      rw [hnil]
      cases hi : s.firstFilterStart with
      | some i => simp [freeText, hf, hi]
      | none =>
          have hms' := firstStart_eq_none (hfilter.symm.trans hi) hlength
          have hempty : rest = [] := by
            cases rest with
            | nil => rfl
            | cons x rest =>
                rw [hms] at hms'
                cases hms'
          rw [hempty] at hall
          simpa [freeText, hf, hi, hempty] using hall
  | some f =>
      obtain ⟨before, after, msAfter, hrest, hms, rfl⟩ := firstStart_eq_some (hfree.symm.trans hf) hlength
      cases before with
      | nil =>
          have hdrop : (gap ++ spelled rest).drop (gap.length + (spelled ([] : List (List Char × List Char))).length) =
              spelled rest := by simp
          cases hi : s.firstFilterStart with
          | none =>
              -- there are no filters
              have hms' := firstStart_eq_none (hfilter.symm.trans hi) hlength
              refine iff_of_true ?_ (together_of_eq hms')
              rw [(unmarked_eq_self hmap).mpr (by rw [hlength]; exact hms')]
              simp only [freeText, hf, hi, hdrop]
              rw [words_trim, hlaid.words]
          | some i =>
              -- the text up to the first filter
              obtain ⟨before', after', ms', hrest', hms', rfl⟩ := firstStart_eq_some (hfilter.symm.trans hi) hlength
              have hne : before' ≠ [] := by
                rintro rfl
                rw [hms] at hms'
                simp at hms'
              obtain ⟨x, xs, hx⟩ := List.exists_cons_of_ne_nil hne
              have hlaid' : Laid isWhitespace (before' ++ after') := hrest' ▸ hlaid
              have hpos : 0 < (spelled before').length := by
                rw [hx] at hlaid' ⊢
                exact spelled_pos hlaid'.left
              have hslice : ((gap ++ spelled rest).take (gap.length + (spelled before').length)).drop
                  (gap.length + (spelled ([] : List (List Char × List Char))).length) = spelled before' := by
                rw [hrest', spelled_append, ← List.append_assoc, List.take_left' (by simp)]
                simp
              have hlen : ms'.length + 1 = (after'.map Prod.fst).length := by
                have := hlength
                rw [hms', hrest'] at this
                simp at this ⊢
                omega
              have hiff := together_iff (b := false) (List.length_pos_of_ne_nil hne) ms'
              simp only [Bool.not_false] at hiff
              simp only [freeText, hf, hi]
              have hnil : unmarked (after'.map Prod.fst) (true :: ms') = [] ↔ true :: ms' = List.replicate (ms'.length + 1) true :=
                unmarked_eq_nil hlen
              rw [if_pos (by simpa using hpos), hslice, (trim_words hlaid').1, hms', hrest', unmarked_split, Bool.not_true, hiff,
                if_neg (by simp), List.self_eq_append_right, hnil]
              simp [List.replicate_succ]
      | cons x xs =>
          -- the text from the first free token on
          have hlaid' : Laid isWhitespace ((x :: xs) ++ after) := hrest ▸ hlaid
          have hpos := spelled_pos hlaid'.left
          have hi : s.firstFilterStart = some gap.length := by
            rw [hfilter, hrest, hms]
            simp [firstStart, List.replicate_succ]
          have hdrop : (gap ++ spelled rest).drop (gap.length + (spelled (x :: xs)).length) = spelled after := by
            rw [hrest, spelled_append, ← List.append_assoc, List.drop_left' (by simp)]
          have hlen : msAfter.length + 1 = (after.map Prod.fst).length := by
            have := hlength
            rw [hms, hrest] at this
            simp at this ⊢
            omega
          have hiff := together_iff (b := true) (k := (x :: xs).length) (by simp) msAfter
          simp only [Bool.not_true] at hiff
          simp only [freeText, hf, hi]
          have hself : unmarked (after.map Prod.fst) (false :: msAfter) = after.map Prod.fst ↔
              false :: msAfter = List.replicate (msAfter.length + 1) false := unmarked_eq_self hlen
          rw [if_neg (by omega), hdrop, (trim_words hlaid').2, hms, hrest, unmarked_split, Bool.not_false, hiff, if_pos rfl,
            List.nil_append, eq_comm, hself]
          simp [List.replicate_succ]

/-- The words of a query are its filters, which are recorded, and its free
text exactly when the filters stand together at one of its ends. -/
theorem parseGlobalQuery_splits (q : String) : Split q (parseGlobalQuery q) ↔ Together (marks [] (tokens q)) := by
  have htokens : words isWhitespace (trim q.toList) = tokens q := words_trim _
  by_cases hc : (trim q.toList).contains ':' = true
  · obtain ⟨gap, rest, hgap, hlaid, htext⟩ := exists_laid isWhitespace (trim q.toList)
    have hrest : rest.map Prod.fst = tokens q := by rw [← htokens, htext, words_gap hgap, hlaid.words]
    obtain ⟨hfilter, hfree, hvalues⟩ := scan_spec (trim q.toList) [] gap rest ⟨⟨String.ofList (trim q.toList), none, none, none⟩,
      none, none, 0⟩ [] htext rfl hgap hlaid fun key => by cases key <;> simp [ParsedQuery.value]
    have hlength : (marks [] (rest.map Prod.fst)).length = rest.length := by rw [marks_length, List.length_map]
    have hwords := freeText_words hgap hlaid hlength (by simpa using hfilter) (by simpa using hfree)
    rw [← htext, hrest] at hwords
    have hparse : parseGlobalQuery q = { (scan (trim q.toList) ⟨⟨String.ofList (trim q.toList), none, none, none⟩, none, none, 0⟩
        (tokens q)).out with
        freeText := String.ofList (freeText (trim q.toList) (scan (trim q.toList)
          ⟨⟨String.ofList (trim q.toList), none, none, none⟩, none, none, 0⟩ (tokens q))) } := by
      simp only [parseGlobalQuery]
      rw [if_pos hc, htokens]
    refine ⟨fun h => hwords.mp ?_, fun h => ⟨?_, fun key => ?_⟩⟩
    · have hwords := h.free
      rw [hparse, String.toList_ofList] at hwords
      exact hwords
    · rw [hparse, String.toList_ofList]
      exact hwords.mpr h
    · have hvalue := hvalues key
      rw [hrest] at hvalue
      rw [hparse]
      cases key <;> simpa [ParsedQuery.value] using hvalue
  · have hparse : parseGlobalQuery q = ⟨String.ofList (trim q.toList), none, none, none⟩ := by
      simp only [parseGlobalQuery]
      rw [if_neg hc]
    have habsent : ∀ part ∈ tokens q, ':' ∉ part := by
      intro part hpart hcolon
      obtain ⟨gap, rest, hgap, hlaid, htext⟩ := exists_laid isWhitespace (trim q.toList)
      rw [← htokens, htext, words_gap hgap, hlaid.words] at hpart
      obtain ⟨x, hx, rfl⟩ := List.mem_map.mp hpart
      refine hc (List.contains_iff_mem.mpr ?_)
      rw [htext]
      exact List.mem_append_right _ (List.mem_flatMap.mpr ⟨x, hx, List.mem_append_left _ hcolon⟩)
    obtain ⟨hmarks, hvalues⟩ := plain_tokens habsent []
    refine iff_of_true ⟨?_, fun key => ?_⟩ (together_of_eq hmarks)
    · rw [hparse, String.toList_ofList, htokens, freeTokens, hmarks, unmarked_replicate]
      rfl
    · rw [hparse, hvalues]
      cases key <;> rfl

/-- The word behind a filter that stands between words is lost. -/
theorem filter_between_words :
    (parseGlobalQuery "hello entity_id:e1 world").freeText = "hello" ∧
      (parseGlobalQuery "entity_id:e1 hello event:trigger").freeText = "hello event:trigger" ∧
      ¬ Split "hello entity_id:e1 world" (parseGlobalQuery "hello entity_id:e1 world") := by
  have hfree : (parseGlobalQuery "hello entity_id:e1 world").freeText = "hello" := by decide +kernel
  refine ⟨hfree, by decide +kernel, fun h => ?_⟩
  have hwords := h.free
  rw [hfree] at hwords
  exact absurd hwords (by decide +kernel)

end Galadril.Search
