import Galadril.Compilation.Sealing
import Galadril.Lib.Text
import Galadril.Lib.Markers

namespace Galadril.Compilation.Rendering

open Json Lib Lib.Checked Lib.Characters Lib.Markers Templates

/-- Escapes each scalar once so inserted values cannot be interpreted as
macros. -/
def escapeScalar (c : Char) : List Char :=
  match c with
  | '\\' => "\\textbackslash\x7b\x7d".toList
  | '\x7b' => "\\\x7b".toList
  | '\x7d' => "\\\x7d".toList
  | '%' => "\\%".toList
  | '&' => "\\&".toList
  | '#' => "\\#".toList
  | '_' => "\\_".toList
  | '$' => "\\$".toList
  | '^' => "\\textasciicircum\x7b\x7d".toList
  | '~' => "\\textasciitilde\x7b\x7d".toList
  | c => if isControl c && c != '\n' && c != '\t' then [] else [c]

def escapeText (value : String) : List Char := value.toList.flatMap escapeScalar

structure Document where
  vars : Members
  source : Option String

structure Rendered where
  entrypoint : List UInt8
  assets : List Asset
  deriving DecidableEq

def asI64 : Value → Option Int
  | .number (.int n) => if -9223372036854775808 ≤ n ∧ n ≤ 9223372036854775807 then some n else none
  | _ => none

def Variable.render (v : Variable) (value : Value) : Except String (List Char) :=
  match v.kind with
  | .text => do
      let text ← context value.asStr "Text variable required"
      ensure (text.utf8ByteSize ≤ 32768) "Text variable exceeds limit"
      return escapeText text
  | .integer => do
      let n ← context (asI64 value) "Integer variable required"
      return (toString n).toList
  | .boolean => do
      let b ← context value.asBool "Boolean variable required"
      return (if b then "true" else "false").toList
  | .choice => do
      let text ← context value.asStr "Choice variable required"
      ensure (v.choices.any (· == text)) "Unknown choice"
      return escapeText text

def encode (text : List Char) : List UInt8 := text.flatMap String.utf8EncodeChar

def fromUtf8 (bytes : List UInt8) : Option (List Char) := (ByteArray.utf8Decode? bytes.toByteArray).map Array.toList

def marker : List Char := "<<galadril:".toList

def close : List Char := ">>".toList

abbrev Values := List (String × List Char)

def fill (values : Values) : Nat → List Char → List Char → Except String (List Char)
  | 0, _, _ => .error "Rendered source exceeds limit"
  | fuel + 1, result, remainder =>
      match cut marker remainder with
      | none => do
          let result := result ++ remainder
          ensure ((encode result).length ≤ maxProjectBytes) "Rendered source exceeds limit"
          return result
      | some (before, suffix) => do
          let (name, rest) ← context (cut close suffix) "Unclosed variable placeholder"
          let value ← context (values.lookup (String.ofList name)) "Unknown template placeholder"
          let result := result ++ before ++ value
          ensure ((encode result).length ≤ maxProjectBytes) "Rendered source exceeds limit"
          fill values fuel result rest

def renderSource (values : Values) (source : List UInt8) : Except String (List UInt8) := do
  let text ← context (fromUtf8 source) "TeX must be UTF-8"
  let result ← fill values (text.length + 1) [] text
  return encode result

def renderedValue (d : Document) (v : String × Variable) : Except String (String × List Char) :=
  match Members.field d.vars v.1 with
  | some value => do
      let text ← Variable.render v.2 value
      return (v.1, text)
  | none => do
      ensure (!v.2.required) "Missing required variable"
      return (v.1, [])

def isTex (path : String) : Bool :=
  (rsplitOnce '.' path.toList).any fun p => ["tex", "cls", "sty"].any fun ext => p.2 == ext.toList

def renderAsset (values : Values) (asset : Asset) : Except String (List UInt8) :=
  if isTex asset.path then renderSource values asset.data else .ok asset.data

def renderAssets (values : Values) : Nat → List Asset → Except String (List Asset)
  | _, [] => .ok []
  | total, asset :: rest => do
      let data ← renderAsset values asset
      let total := total + data.length
      ensure (total ≤ maxProjectBytes) "Rendered project exceeds limit"
      let assets ← renderAssets values total rest
      return ⟨asset.path, data⟩ :: assets

def Template.values (t : Template) (d : Document) : Except String Values := do
  ensure (d.vars.all fun p => (t.vars.lookup p.1).isSome) "Unknown variable"
  t.vars.mapM (renderedValue d)

def sourceOf (d : Document) (original : Asset) : List UInt8 :=
  match d.source with
  | some source => encode source.toList
  | none => original.data

def Template.render (t : Template) (d : Document) : Except String Rendered := do
  t.validate
  let values ← Template.values t d
  let original ← context (t.assets.find? (·.path == t.entrypoint)) "Missing entrypoint"
  ensure ((sourceOf d original).length ≤ maxProjectBytes) "Source exceeds limit"
  let entrypoint ← renderSource values (sourceOf d original)
  let assets ← renderAssets values entrypoint.length (t.assets.filter (·.path != t.entrypoint))
  return ⟨entrypoint, assets⟩

def specials : List Char := ['\\', '\x7b', '\x7d', '%', '&', '#', '_', '$', '^', '~']

def sequences : List (Char × List Char) := specials.map fun c => (c, escapeScalar c)

/-- A text whose special characters all belong to escape sequences, with what it
says. -/
inductive Spells : List Char → List Char → Prop
  | nil : Spells [] []
  | plain {c : Char} {rest value : List Char} : c ∉ specials → Spells rest value → Spells (c :: rest) (c :: value)
  | escaped {p : Char × List Char} {rest value : List Char} :
      p ∈ sequences → Spells rest value → Spells (p.2 ++ rest) (p.1 :: value)

/-- Control characters are left out, except for newline and tab. -/
def kept (c : Char) : Bool := !(isControl c && c != '\n' && c != '\t')

theorem escapeScalar_plain {c : Char} (h : c ∉ specials) : escapeScalar c = [c].filter kept := by
  have hlast : (if isControl c && c != '\n' && c != '\t' then [] else [c]) = [c].filter kept := by
    rw [List.filter_singleton, kept]
    cases isControl c && c != '\n' && c != '\t' <;> rfl
  unfold escapeScalar
  split
  case h_11 => exact hlast
  all_goals exact absurd (by decide) h

theorem kept_special : ∀ c ∈ specials, kept c = true := by
  intro c hc
  fin_cases hc <;> rfl

/-- What is inserted says the value without its control characters. -/
theorem spells_escapeText (value : String) : Spells (escapeText value) (value.toList.filter kept) := by
  rw [escapeText]
  induction value.toList with
  | nil => exact .nil
  | cons c cs ih =>
      rw [List.flatMap_cons]
      by_cases hspecial : c ∈ specials
      · rw [List.filter_cons_of_pos (kept_special c hspecial)]
        exact .escaped (List.mem_map_of_mem (f := fun c => (c, escapeScalar c)) hspecial) ih
      · rw [escapeScalar_plain hspecial]
        by_cases hkept : kept c
        · rw [List.filter_cons_of_pos hkept, List.filter_cons_of_pos hkept]
          exact .plain hspecial ih
        · rw [List.filter_cons_of_neg hkept, List.filter_cons_of_neg hkept]
          exact ih

theorem sequences_backslash : ∀ p ∈ sequences, p.2.head? = some '\\' := by decide +kernel

theorem sequences_apart {p q : Char × List Char} (hp : p ∈ sequences) (hq : q ∈ sequences) (h : p.2 <+: q.2) : p = q := by
  have hall : (sequences.all fun p => sequences.all fun q => !p.2.isPrefixOf q.2 || p == q) = true := by decide +kernel
  have hpq := List.all_eq_true.mp (List.all_eq_true.mp hall p hp) q hq
  rw [List.isPrefixOf_iff_prefix.mpr h, Bool.not_true, Bool.false_or] at hpq
  exact beq_iff_eq.mp hpq

theorem Spells.unique {text value value' : List Char} (h : Spells text value) (h' : Spells text value') : value = value' := by
  have hbackslash : '\\' ∈ specials := by decide
  induction h generalizing value' with
  | nil =>
      generalize htext : ([] : List Char) = text at h'
      cases h' with
      | nil => rfl
      | plain => cases htext
      | escaped hp =>
          have hhead := sequences_backslash _ hp
          simp_all
  | @plain c rest value hc hrest ih =>
      generalize htext : c :: rest = text at h'
      cases h' with
      | nil => cases htext
      | plain hc' hrest' =>
          obtain ⟨rfl, rfl⟩ := List.cons.inj htext
          rw [ih hrest']
      | @escaped p _ _ hp =>
          have hhead := sequences_backslash p hp
          cases hp2 : p.2 with
          | nil => rw [hp2] at hhead; cases hhead
          | cons d ds =>
              rw [hp2] at hhead htext
              obtain rfl := Option.some.inj hhead
              exact absurd ((List.cons.inj htext).1 ▸ hbackslash) hc
  | @escaped p rest value hp hrest ih =>
      generalize htext : p.2 ++ rest = text at h'
      cases h' with
      | nil =>
          have hhead := sequences_backslash p hp
          simp_all
      | @plain c _ _ hc' =>
          have hhead := sequences_backslash p hp
          cases hp2 : p.2 with
          | nil => rw [hp2] at hhead; cases hhead
          | cons d ds =>
              rw [hp2] at hhead htext
              obtain rfl := Option.some.inj hhead
              exact absurd ((List.cons.inj htext).1 ▸ hbackslash) hc'
      | @escaped q rest' value'' hq hrest' =>
          obtain rfl : p = q := by
            rcases List.prefix_or_prefix_of_prefix (htext ▸ List.prefix_append p.2 rest)
              (List.prefix_append q.2 rest') with hpq | hqp
            · exact sequences_apart hp hq hpq
            · exact (sequences_apart hq hp hqp).symm
          obtain rfl := List.append_cancel_left htext
          rw [ih hrest']

structure Segments where
  pieces : List (List Char × List Char)
  last : List Char

def Segments.text (s : Segments) : List Char := s.pieces.flatMap (fun p => p.1 ++ marker ++ p.2 ++ close) ++ s.last

/-- Every piece ends with the first placeholder that is left, and none is left
after the last piece. -/
structure Segments.Reads (s : Segments) (text : List Char) : Prop where
  text : s.text = text
  literals : ∀ p ∈ s.pieces, Leads marker p.1 ∧ Leads close p.2
  done : ¬ marker <:+: s.last

theorem Segments.Reads.unique {s s' : Segments} {text : List Char} (h : s.Reads text) (h' : s'.Reads text) : s = s' := by
  obtain ⟨pieces, last⟩ := s
  obtain ⟨pieces', last'⟩ := s'
  obtain ⟨rfl, hliterals, hdone⟩ := h
  obtain ⟨htext, hliterals', hdone'⟩ := h'
  symm at htext
  have hmarker : marker ≠ [] := by decide
  have hclose : close ≠ [] := by decide
  simp only [Segments.text] at htext hdone hdone' hliterals hliterals'
  induction pieces generalizing pieces' with
  | nil =>
      cases pieces' with
      | nil => rw [List.append_cancel_left htext]
      | cons p' pieces' =>
          refine absurd ⟨p'.1, p'.2 ++ close ++ (pieces'.flatMap (fun p => p.1 ++ marker ++ p.2 ++ close) ++ last'), ?_⟩ hdone
          simpa [List.append_assoc] using htext.symm
  | cons p pieces ih =>
      cases pieces' with
      | nil =>
          refine absurd ⟨p.1, p.2 ++ close ++ (pieces.flatMap (fun p => p.1 ++ marker ++ p.2 ++ close) ++ last), ?_⟩ hdone'
          simpa [List.append_assoc] using htext
      | cons p' pieces' =>
          obtain ⟨⟨hp, hname⟩, hrest⟩ := List.forall_mem_cons.mp hliterals
          obtain ⟨⟨hp', hname'⟩, hrest'⟩ := List.forall_mem_cons.mp hliterals'
          rw [List.flatMap_cons, List.flatMap_cons] at htext
          obtain ⟨hbefore, hafter⟩ := @leads_unique _ marker p.1 p'.1
            (p.2 ++ close ++ (pieces.flatMap (fun p => p.1 ++ marker ++ p.2 ++ close) ++ last))
            (p'.2 ++ close ++ (pieces'.flatMap (fun p => p.1 ++ marker ++ p.2 ++ close) ++ last'))
            (by simpa [List.append_assoc] using htext) hmarker hp hp'
          obtain ⟨hnames, htail⟩ := leads_unique hafter hclose hname hname'
          have hsegments := ih pieces' hrest htail hrest'
          simp only [Segments.mk.injEq] at hsegments ⊢
          exact ⟨by rw [hsegments.1, Prod.ext hbefore hnames], hsegments.2⟩

variable {values : Values}

def Segments.filled (s : Segments) (values : Values) : List Char :=
  s.pieces.flatMap (fun p => p.1 ++ (values.lookup (String.ofList p.2)).getD []) ++ s.last

def Segments.Named (s : Segments) (values : Values) : Prop := ∀ p ∈ s.pieces, (values.lookup (String.ofList p.2)).isSome

theorem encode_append (a b : List Char) : encode (a ++ b) = encode a ++ encode b := List.flatMap_append

theorem reads_cons {p : List Char × List Char} {s : Segments} {text : List Char} (hp : Leads marker p.1 ∧ Leads close p.2)
    (h : s.Reads text) : Segments.Reads ⟨p :: s.pieces, s.last⟩ (p.1 ++ marker ++ (p.2 ++ close ++ text)) where
  text := by simp [← h.text, Segments.text, List.append_assoc]
  literals := List.forall_mem_cons.mpr ⟨hp, h.literals⟩
  done := h.done

/-- The loop answers with what its input says, with the values in the place of
the placeholders. -/
theorem fill_eq_ok {fuel : Nat} {result remainder out : List Char} (hfuel : remainder.length < fuel) :
    fill values fuel result remainder = .ok out ↔ ∃ s : Segments, s.Reads remainder ∧ s.Named values ∧
      out = result ++ s.filled values ∧ (encode out).length ≤ maxProjectBytes := by
  have hmarker : marker ≠ [] := by decide
  have hclose : close ≠ [] := by decide
  induction fuel generalizing result remainder with
  | zero => cases hfuel
  | succ fuel ih =>
      rw [fill]
      cases hcut : cut marker remainder with
      | none =>
          have hdone := (cut_eq_none hmarker).mp hcut
          have hreads : Segments.Reads ⟨[], remainder⟩ remainder := ⟨rfl, by simp, hdone⟩
          simp only [bind_eq_ok, ensure_eq_ok, decide_eq_true_eq, pure_eq_ok]
          constructor
          · rintro ⟨_, hsize, rfl⟩
            exact ⟨⟨[], remainder⟩, hreads, by simp [Segments.Named], rfl, hsize⟩
          · rintro ⟨s, hs, -, rfl, hsize⟩
            obtain rfl := hs.unique hreads
            exact ⟨(), hsize, rfl⟩
      | some p =>
          obtain ⟨before, suffix⟩ := p
          obtain ⟨hremainder, hbefore⟩ := (cut_eq_some hmarker).mp hcut
          simp only [bind_eq_ok, context_eq_ok, ensure_eq_ok, decide_eq_true_eq, Prod.exists]
          constructor
          · rintro ⟨name, rest, hname, value, hvalue, _, -, hrest⟩
            obtain ⟨hsuffix, hnamed⟩ := (cut_eq_some hclose).mp hname
            have hshort : rest.length < fuel := by
              have hlength := congrArg List.length hremainder
              rw [hsuffix] at hlength
              simp only [List.length_append] at hlength
              have hpos := List.length_pos_iff.mpr hmarker
              omega
            obtain ⟨s, hs, hall, rfl, hsize⟩ := (ih hshort).mp hrest
            refine ⟨⟨(before, name) :: s.pieces, s.last⟩, ?_, ?_, ?_, hsize⟩
            · rw [hremainder, hsuffix]
              exact reads_cons ⟨hbefore, hnamed⟩ hs
            · exact List.forall_mem_cons.mpr ⟨by rw [hvalue]; rfl, hall⟩
            · simp [Segments.filled, hvalue, List.append_assoc]
          · rintro ⟨⟨pieces, last⟩, hs, hall, rfl, hsize⟩
            cases pieces with
            | nil => exact absurd ⟨before, suffix, by rw [← hremainder, ← hs.text]; rfl⟩ hs.done
            | cons p pieces =>
                obtain ⟨⟨hp, hclosed⟩, hliterals⟩ := List.forall_mem_cons.mp hs.literals
                obtain ⟨hvalue, hall⟩ := List.forall_mem_cons.mp hall
                obtain ⟨value, hvalue⟩ := Option.isSome_iff_exists.mp hvalue
                have hrest : Segments.Reads ⟨pieces, last⟩ (Segments.text ⟨pieces, last⟩) := ⟨rfl, hliterals, hs.done⟩
                have htext : before ++ marker ++ suffix = p.1 ++ marker ++ (p.2 ++ close ++ Segments.text ⟨pieces, last⟩) := by
                  rw [← hremainder, ← hs.text]
                  simp [Segments.text, List.append_assoc]
                obtain ⟨rfl, rfl⟩ := leads_unique htext hmarker hbefore hp
                have hshort : (Segments.text ⟨pieces, last⟩).length < fuel := by
                  have hlength := congrArg List.length hremainder
                  simp only [List.length_append] at hlength
                  have hpos := List.length_pos_iff.mpr hmarker
                  omega
                have hfilled : result ++ Segments.filled ⟨p :: pieces, last⟩ values =
                    result ++ p.1 ++ value ++ Segments.filled ⟨pieces, last⟩ values := by
                  simp [Segments.filled, hvalue, List.append_assoc]
                have hbounded := hsize
                rw [hfilled, encode_append, List.length_append] at hbounded
                refine ⟨p.2, Segments.text ⟨pieces, last⟩, (cut_eq_some hclose).mpr ⟨rfl, hclosed⟩, value, hvalue, (), ?_,
                  (ih hshort).mpr ⟨⟨pieces, last⟩, hrest, hall, hfilled, hsize⟩⟩
                omega

end Galadril.Compilation.Rendering
