import Galadril.Compilation.Rendering
import Galadril.Json.Sizes

namespace Galadril.Compilation.Rendering

open Json Lib Lib.Checked Lib.Characters Lib.Markers Templates

def maxFrame : Nat := maxProjectBytes * 5

def Rendered.toJson (r : Rendered) : Value :=
  .object [("entrypoint", .array (r.entrypoint.map fun b => .number (.int b.toNat))),
    ("assets", .array (r.assets.map Asset.toJson))]

def workerFiles : List String → Nat → List Asset → Except String (List String)
  | paths, _, [] => .ok paths
  | paths, total, asset :: rest => do
      validatePath asset.path
      let total := total + asset.data.length
      ensure (total ≤ maxProjectBytes && !paths.contains asset.path) "Invalid worker assets"
      workerFiles (asset.path :: paths) total rest

def workerProject (r : Rendered) : Except String (List String) := do
  ensure (r.assets.length ≤ 63 && r.entrypoint.length ≤ maxProjectBytes) "Invalid worker project"
  workerFiles [] r.entrypoint.length r.assets

variable {t : Template} {d : Document} {values : Values}

/-- The value of a variable in the form in which it is inserted. A text says
what the document gives for it, as far as its characters are kept. -/
structure Inserted (keep : Char → Bool) (d : Document) (name : String) (v : Variable) (text : List Char) : Prop where
  rendered : ∀ value, Members.field d.vars name = some value → Variable.render v value = .ok text
  absent : Members.field d.vars name = none → text = [] ∧ v.required = false
  spelled : v.kind = .text ∨ v.kind = .choice → ∀ value, Members.field d.vars name = some value →
    ∃ s, value = .string s ∧ Spells text (s.toList.filter keep) ∧ ∀ other, Spells text other → other = s.toList.filter keep

theorem render_spells {v : Variable} {value : Value} {text : List Char} (hkind : v.kind = .text ∨ v.kind = .choice)
    (h : Variable.render v value = .ok text) : ∃ s, value = .string s ∧ text = escapeText s := by
  have hstr : ∃ s, value.asStr = some s ∧ text = escapeText s := by
    rcases hkind with hkind | hkind
    · simp only [Variable.render, hkind, bind_eq_ok, context_eq_ok, pure_eq_ok] at h
      obtain ⟨s, hs, _, -, rfl⟩ := h
      exact ⟨s, hs, rfl⟩
    · simp only [Variable.render, hkind, bind_eq_ok, context_eq_ok, pure_eq_ok] at h
      obtain ⟨s, hs, _, -, rfl⟩ := h
      exact ⟨s, hs, rfl⟩
  obtain ⟨s, hs, rfl⟩ := hstr
  cases value <;> cases hs
  exact ⟨s, rfl, rfl⟩

theorem renderedValue_inserted {name other : String} {v : Variable} {text : List Char}
    (h : renderedValue d (name, v) = .ok (other, text)) : other = name ∧ Inserted kept d name v text := by
  rw [renderedValue] at h
  split at h
  next value hvalue =>
    simp only [bind_eq_ok, pure_eq_ok, Prod.mk.injEq] at h
    obtain ⟨_, hrender, rfl, rfl⟩ := h
    refine ⟨rfl, fun w hw => ?_, fun hnone => ?_, fun hkind w hw => ?_⟩
    · rw [hvalue] at hw
      cases hw
      exact hrender
    · rw [hvalue] at hnone
      cases hnone
    · rw [hvalue] at hw
      cases hw
      obtain ⟨s, rfl, rfl⟩ := render_spells hkind hrender
      exact ⟨s, rfl, spells_escapeText s, fun other hother => hother.unique (spells_escapeText s)⟩
  next hnone =>
    simp only [bind_eq_ok, ensure_eq_ok, pure_eq_ok, Bool.not_eq_true', Prod.mk.injEq] at h
    obtain ⟨_, hrequired, rfl, rfl⟩ := h
    exact ⟨rfl, fun w hw => by simp [hnone] at hw, fun _ => ⟨rfl, hrequired⟩, fun _ w hw => by simp [hnone] at hw⟩

theorem values_inserted (h : Template.values t d = .ok values) (name : String) :
    (∀ v, t.vars.lookup name = some v → ∃ text, values.lookup name = some text ∧ Inserted kept d name v text) ∧
      (t.vars.lookup name = none → values.lookup name = none) := by
  have hall : List.Forall₂ (fun v p => renderedValue d v = .ok p) t.vars values := by
    simp only [Template.values, bind_eq_ok] at h
    obtain ⟨_, -, hmap⟩ := h
    exact mapM_eq_ok.mp hmap
  clear h
  generalize t.vars = vars at hall ⊢
  induction hall with
  | nil => exact ⟨fun v hv => (by cases hv), fun _ => rfl⟩
  | @cons x y xs ys hx _ ih =>
      obtain ⟨other, v⟩ := x
      obtain ⟨other', text⟩ := y
      obtain ⟨rfl, hinserted⟩ := renderedValue_inserted hx
      rw [List.lookup_cons, List.lookup_cons]
      by_cases hname : name = other'
      · subst hname
        simp only [beq_self_eq_true]
        refine ⟨fun w hw => ?_, fun hw => by cases hw⟩
        obtain rfl := Option.some.inj hw
        exact ⟨text, rfl, hinserted⟩
      · simp only [beq_eq_false_iff_ne.mpr hname]
        exact ih

section Projects

variable {t : Template} {d : Document} {r : Rendered} {values : Values}

/-- A rendered TeX file is its source with the values in the place of the
placeholders of the source, and of no others. -/
def Substituted (values : Values) (source out : List UInt8) : Prop :=
  ∃ text s, fromUtf8 source = some text ∧ Segments.Reads s text ∧ (∀ s', Segments.Reads s' text → s' = s) ∧ s.Named values ∧
    out = encode (s.filled values)

theorem renderSource_substituted {source out : List UInt8} (h : renderSource values source = .ok out) :
    Substituted values source out ∧ out.length ≤ maxProjectBytes := by
  simp only [renderSource, bind_eq_ok, context_eq_ok, pure_eq_ok] at h
  obtain ⟨text, htext, result, hfill, rfl⟩ := h
  obtain ⟨s, hs, hnamed, rfl, hsize⟩ := (fill_eq_ok (Nat.lt_succ_self _)).mp hfill
  exact ⟨⟨text, s, htext, hs, fun s' hs' => hs'.unique hs, hnamed, rfl⟩, hsize⟩

def Carried (values : Values) (a b : Asset) : Prop :=
  b.path = a.path ∧ if isTex a.path then Substituted values a.data b.data else b.data = a.data

theorem renderAssets_carried {total : Nat} {assets rendered : List Asset} (h : renderAssets values total assets = .ok rendered) :
    List.Forall₂ (Carried values) assets rendered ∧
      (assets ≠ [] → total + (rendered.map fun a => a.data.length).sum ≤ maxProjectBytes) := by
  induction assets generalizing total rendered with
  | nil =>
      obtain rfl := Except.ok.inj h
      exact ⟨.nil, by simp⟩
  | cons a assets ih =>
      simp only [renderAssets, bind_eq_ok, ensure_eq_ok, decide_eq_true_eq, pure_eq_ok] at h
      obtain ⟨data, hdata, _, hsize, rest, hrest, rfl⟩ := h
      obtain ⟨hall, hsum⟩ := ih hrest
      refine ⟨.cons ⟨rfl, ?_⟩ hall, fun _ => ?_⟩
      · rw [renderAsset] at hdata
        split at hdata
        next htex =>
          rw [if_pos htex]
          exact (renderSource_substituted hdata).1
        next htex =>
          rw [if_neg htex]
          exact (Except.ok.inj hdata).symm
      · by_cases hnil : assets = []
        · subst hnil
          cases hall
          simpa using hsize
        · rw [List.map_cons, List.sum_cons, ← Nat.add_assoc]
          exact hsum hnil

theorem carried_paths {assets rendered : List Asset} (h : List.Forall₂ (Carried values) assets rendered) :
    rendered.map Asset.path = assets.map Asset.path := by
  induction h with
  | nil => rfl
  | cons hab _ ih => rw [List.map_cons, List.map_cons, hab.1, ih]

/-- The worker accepts assets with valid and distinct paths that are small
enough together. -/
theorem workerFiles_eq_ok {paths : List String} {total : Nat} {assets : List Asset}
    (hpaths : ∀ a ∈ assets, validatePath a.path = .ok ())
    (hdistinct : (assets.map Asset.path).Nodup) (hnew : ∀ a ∈ assets, a.path ∉ paths)
    (hsum : total + (assets.map fun a => a.data.length).sum ≤ maxProjectBytes) :
    workerFiles paths total assets = .ok ((assets.map Asset.path).reverse ++ paths) := by
  induction assets generalizing paths total with
  | nil => rfl
  | cons a assets ih =>
      obtain ⟨hpath, hpaths⟩ := List.forall_mem_cons.mp hpaths
      obtain ⟨hfresh, hnew⟩ := List.forall_mem_cons.mp hnew
      rw [List.map_cons, List.nodup_cons] at hdistinct
      rw [List.map_cons, List.sum_cons, ← Nat.add_assoc] at hsum
      have hsmall : total + a.data.length ≤ maxProjectBytes := by omega
      have hcheck : (decide (total + a.data.length ≤ maxProjectBytes) && !paths.contains a.path) = true := by
        simp [hsmall, hfresh]
      simp only [workerFiles, hpath, ok_bind, hcheck, ensure_true]
      rw [ih hpaths hdistinct.2 ?_ hsum]
      · simp
      · intro b hb hmem
        rcases List.mem_cons.mp hmem with hba | hmem
        · exact hdistinct.1 (hba ▸ List.mem_map_of_mem hb)
        · exact hnew b hb hmem

end Projects

theorem size_bytes (data : List UInt8) : (Value.array (data.map fun b => .number (.int b.toNat))).size ≤ 4 * data.length + 2 := by
  have hbyte : ∀ b : UInt8, (Value.number (.int b.toNat)).size ≤ 3 := by decide +kernel
  have hopen : Value.written ['['] = 1 := rfl
  have hclose : Value.written [']'] = 1 := rfl
  have hsum : ((data.map fun b => Value.number (.int b.toNat)).map fun v => v.size + 1).sum ≤ 4 * data.length := by
    induction data with
    | nil => simp
    | cons b data ih =>
        have hb := hbyte b
        simp only [List.map_cons, List.sum_cons, List.length_cons]
        omega
  rw [Value.size_array, hopen, hclose]
  omega

theorem size_text (s : String) : (Value.string s).size ≤ 24 * s.utf8ByteSize + 2 := by
  have hbytes : ∀ cs : List Char, Value.written cs ≤ 4 * cs.length := by
    intro cs
    induction cs with
    | nil => simp [Value.written]
    | cons c cs ih =>
        have hc : Value.written [c] ≤ 4 := by
          rw [Value.written, List.flatMap_singleton, String.length_utf8EncodeChar]
          exact Char.utf8Size_le_four c
        rw [Value.written_cons, List.length_cons]
        omega
  have hlength : ∀ c, (escapeChar c).length ≤ 6 := by
    intro c
    unfold escapeChar
    split
    case h_8 => split <;> simp
    all_goals simp
  have hchar : ∀ c, Value.written (escapeChar c) ≤ 24 * c.utf8Size := by
    intro c
    have hwritten := hbytes (escapeChar c)
    have hc := hlength c
    have hpos := Char.utf8Size_pos c
    omega
  rw [Value.size_string, ← String.utf8Len_toList]
  induction s.toList with
  | nil => simp [Value.written]
  | cons c cs ih =>
      have hc := hchar c
      rw [List.flatMap_cons, Value.written_append, String.utf8Len_cons]
      omega

variable {r : Rendered}

/-- Every byte takes at most four, and the paths are short. -/
theorem size_frame (hpaths : ∀ a ∈ r.assets, a.path.utf8ByteSize ≤ 192) (hfew : r.assets.length ≤ 63)
    (hsum : r.entrypoint.length + (r.assets.map fun a => a.data.length).sum ≤ maxProjectBytes) : r.toJson.size ≤ maxFrame := by
  have hasset : ∀ a ∈ r.assets, a.toJson.size ≤ 4 * a.data.length + 4700 := by
    intro a ha
    have hpath : Value.written (quoted "path") = 6 := rfl
    have hdata : Value.written (quoted "data") = 6 := rfl
    have htext := size_text a.path
    have hbytes := size_bytes a.data
    have hshort := hpaths a ha
    rw [Asset.toJson, Value.size_object]
    simp only [List.map_cons, List.map_nil, List.sum_cons, List.sum_nil, hpath, hdata]
    omega
  have hassets : (r.assets.map fun a => a.toJson.size + 1).sum ≤ 4 * (r.assets.map fun a => a.data.length).sum +
    4701 * r.assets.length := by
    clear hsum hfew hpaths
    generalize r.assets = assets at hasset ⊢
    induction assets with
    | nil => simp
    | cons a assets ih =>
        obtain ⟨ha, hrest⟩ := List.forall_mem_cons.mp hasset
        have hsum := ih hrest
        simp only [List.map_cons, List.sum_cons, List.length_cons]
        omega
  have hentrypoint : Value.written (quoted "entrypoint") = 12 := rfl
  have hkey : Value.written (quoted "assets") = 8 := rfl
  have hopen : Value.written ['['] = 1 := rfl
  have hclose : Value.written [']'] = 1 := rfl
  have hbytes := size_bytes r.entrypoint
  have harray : (Value.array (r.assets.map Asset.toJson)).size ≤ (r.assets.map fun a => a.toJson.size + 1).sum + 2 := by
    rw [Value.size_array, hopen, hclose, List.map_map]
    simp only [Function.comp_def]
    omega
  rw [Rendered.toJson, Value.size_object]
  simp only [List.map_cons, List.map_nil, List.sum_cons, List.sum_nil, hentrypoint, hkey, maxFrame, maxProjectBytes] at hsum ⊢
  omega

structure Faithful (keep : Char → Bool) (t : Template) (d : Document) (r : Rendered) : Prop where
  files : ∃ values original, original ∈ t.assets ∧ original.path = t.entrypoint ∧
    Substituted values (sourceOf d original) r.entrypoint ∧
    List.Forall₂ (Carried values) (t.assets.filter (·.path != t.entrypoint)) r.assets ∧
    ∀ name, (∀ v, t.vars.lookup name = some v → ∃ text, values.lookup name = some text ∧ Inserted keep d name v text) ∧
      (t.vars.lookup name = none → values.lookup name = none)
  accepted : Accepts (workerProject r)
  framed : r.toJson.toVec.length ≤ maxFrame

/-- Rendering is single-pass, inserts every value so that it says what was given
up to control characters other than newline and tab, and its projects pass the
worker. -/
theorem render_faithful (t : Template) (d : Document) (r : Rendered) (h : Template.render t d = .ok r) : Faithful kept t d r := by
  simp only [Template.render, bind_eq_ok, context_eq_ok, pure_eq_ok] at h
  obtain ⟨_, hvalid, values, hvalues, original, horiginal, _, -, entrypoint, hentrypoint, assets, hassets, rfl⟩ := h
  have hvalid := validate_iff.mp hvalid
  obtain ⟨hsubstituted, hsize⟩ := renderSource_substituted hentrypoint
  obtain ⟨hcarried, hsum⟩ := renderAssets_carried hassets
  have hpath : original.path = t.entrypoint := by simpa using List.find?_some horiginal
  have hsub : (assets.map Asset.path).Sublist (t.assets.map Asset.path) := by
    rw [carried_paths hcarried]
    exact List.filter_sublist.map _
  have hvalidPath : ∀ a ∈ assets, validatePath a.path = .ok () := by
    intro a ha
    obtain ⟨b, hb, hba⟩ := List.mem_map.mp (hsub.subset (List.mem_map_of_mem ha))
    exact hba ▸ hvalid.paths b hb
  have htotal : entrypoint.length + (assets.map fun a => a.data.length).sum ≤ maxProjectBytes := by
    by_cases hnil : t.assets.filter (·.path != t.entrypoint) = []
    · rw [hnil] at hcarried
      cases hcarried
      simpa using hsize
    · exact hsum hnil
  have hfew : assets.length ≤ 63 := by
    have hlength : assets.length = (t.assets.filter (·.path != t.entrypoint)).length := hcarried.length_eq.symm
    have hless : (t.assets.filter (·.path != t.entrypoint)).length < t.assets.length := by
      refine List.length_filter_lt_length_iff_exists.mpr ⟨original, List.mem_of_find?_eq_some horiginal, ?_⟩
      simp [hpath]
    have hassetCount := hvalid.fewAssets
    omega
  refine ⟨⟨values, original, List.mem_of_find?_eq_some horiginal, hpath, hsubstituted, hcarried, values_inserted hvalues⟩, ?_, ?_⟩
  · have hfiles := @workerFiles_eq_ok [] _ _ hvalidPath (hsub.nodup hvalid.distinct) (by simp) htotal
    exact ⟨_, by rw [workerProject, decide_eq_true hfew, decide_eq_true hsize, Bool.and_self, ensure_true, ok_bind, hfiles]⟩
  · refine size_frame (fun a ha => ?_) hfew htotal
    have hok := hvalidPath a ha
    simp only [validatePath, bind_eq_ok, ensure_eq_ok, Bool.and_eq_true, decide_eq_true_eq] at hok
    obtain ⟨_, ⟨⟨-, hshort⟩, -⟩, -⟩ := hok
    exact hshort

/-- A project with one variable, whose text holds a special character. -/
def letter : Template where
  id := "00000000000000000000000000000000"
  version := ""
  name := "n"
  description := ""
  scope := .tenant
  owner := "a"
  project := none
  plugin := none
  entrypoint := "main.tex"
  assets := [⟨"main.tex", encode "<<galadril:x>>".toList⟩]
  vars := [("x", ⟨.text, true, []⟩)]

theorem render_faithful_letter : Template.render letter ⟨[("x", .string "%")], none⟩ = .ok ⟨encode "\\%".toList, []⟩ ∧
    Faithful kept letter ⟨[("x", .string "%")], none⟩ ⟨encode "\\%".toList, []⟩ := by
  have hrender : Template.render letter ⟨[("x", .string "%")], none⟩ = .ok ⟨encode "\\%".toList, []⟩ := by decide +kernel
  exact ⟨hrender, render_faithful letter _ _ hrender⟩

/-- A newline is a control character and is kept. -/
theorem newline_kept : ¬ ∀ (t : Template) (d : Document) (r : Rendered), Template.render t d = .ok r →
    Faithful (fun c => !isControl c) t d r := by
  intro h
  have hrender : Template.render letter ⟨[("x", .string "\n")], none⟩ = .ok ⟨encode "\n".toList, []⟩ := by decide +kernel
  obtain ⟨values, -, -, -, -, -, hvalues⟩ := (h _ _ _ hrender).files
  obtain ⟨text, -, hinserted⟩ := (hvalues "x").1 ⟨.text, true, []⟩ rfl
  have htext : text = "\n".toList := by
    have hrendered := hinserted.rendered (.string "\n") rfl
    have hvalue : Variable.render ⟨.text, true, []⟩ (.string "\n") = .ok "\n".toList := by decide +kernel
    rw [hvalue] at hrendered
    exact (Except.ok.inj hrendered).symm
  obtain ⟨s, hs, hspells, -⟩ := hinserted.spelled (.inl rfl) (.string "\n") rfl
  obtain rfl := Value.string.inj hs
  have hescaped : text = escapeText "\n" := htext.trans (by decide +kernel)
  have hsame := (spells_escapeText "\n").unique (hescaped ▸ hspells)
  revert hsame
  decide

end Galadril.Compilation.Rendering
