import Galadril.Documents.Leases
import Galadril.Lib.Sha256

namespace Galadril.Documents

open Lib.Checked

variable {ν : Type}

structure ParsedUnit where
  ordinal : Int
  text : String
  start : Int
  stop : Int
  page : Option Int

structure Parsed where
  parserRevision : String
  units : List ParsedUnit
  warnings : List String

structure ExtractedUnit where
  id : String
  facts : List Fact

structure Extracted where
  passages : List ExtractedUnit
  warnings : List String

structure Embedded (ν : Type) where
  profileId : String
  vectors : List ν

/-- What a run meets: the index at each of its writes with the time, the source,
and what the agent answers, if it answers. -/
structure World (ν : Type) where
  engine : Engine ν
  index : Nat → Index ν
  now : Nat → Int
  content : Except String (List UInt8)
  parse : Option Parsed
  extract : Nat → Option Extracted
  embed : Nat → Nat → Option (Embedded ν)

/-- What the calls of a run were answered. -/
inductive Answer
  | extracted (warnings : List String)
  | unextracted
  | embedded
  | unembedded
  deriving DecidableEq

/-- The warnings so far, the profile, whether embedding was given up, the last
percentage that was reported, the number of writes and the answers. -/
structure Progress where
  warnings : List String
  profile : Option String
  lexicalOnly : Bool
  reported : Nat
  writes : Nat
  answers : List Answer

def leBytes (width : Nat) (n : Int) : List UInt8 :=
  (List.range width).map fun i => UInt8.ofNat (((n % 2 ^ (8 * width)).toNat >>> (8 * i)) % 256)

def bytesOf (text : String) : List UInt8 := text.toList.flatMap String.utf8EncodeChar

def unitId (source checksum : String) (page start : Int) (text : String) : String :=
  Lib.Sha256.sha256 ([bytesOf source, bytesOf checksum, leBytes 4 page, leBytes 8 start, bytesOf text].flatMap fun part =>
    leBytes 8 part.length ++ part)

def unitOf (source checksum : String) (u : ParsedUnit) : Unit where
  id := unitId source checksum (u.page.getD 0) u.start u.text
  ordinal := u.ordinal
  text := u.text
  start := u.start
  stop := u.stop
  page := u.page
  facts := []

variable (w : World ν) (job : IndexJob)

def write (p : Progress) (operation : Operation ν) : Except String Progress := do
  let _ ← perform w.engine (w.index p.writes) (w.now p.writes) job operation
  return { p with writes := p.writes + 1 }

/-- Integer estimates bound progress writes independently of chunk count. -/
def report (p : Progress) (stage : IndexStage) (percent : Nat) : Except String Progress :=
  if p.reported < percent then do
    let p ← write w job p (.progress stage percent)
    return { p with reported := percent }
  else .ok p

def note (warnings : List String) (warning : String) : List String :=
  if warnings.contains warning then warnings else warnings ++ [warning]

def attach : List Unit → List String → List ExtractedUnit → Except String (List Unit)
  | units, _, [] => .ok units
  | units, seen, item :: rest => do
      ensure (!seen.contains item.id) "Duplicate extraction evidence"
      ensure (units.any (·.id == item.id)) "Unknown extraction evidence"
      attach (units.map fun u => if u.id = item.id then u.withFacts item.facts else u) (item.id :: seen) rest

def endsWith (ending text : String) : Bool := ending.toList.isSuffixOf text.toList

def extraction (batch : Nat) (units : List Unit) (p : Progress) : Except String (Progress × List Unit × Bool) :=
  match w.extract batch with
  | some extracted => do
      ensure (extracted.passages.length ≤ units.length) "Invalid extraction count"
      ensure (extracted.warnings.length ≤ 8) "Extraction warnings exceed limit"
      let complete := extracted.passages.length == units.length &&
        !extracted.warnings.any fun warning => endsWith "_unavailable" warning || endsWith "_unconfigured" warning
      let units ← attach units [] extracted.passages
      return ({ p with
        warnings := extracted.warnings.foldl note p.warnings
        answers := p.answers ++ [.extracted extracted.warnings] }, units, complete)
  | none => .ok ({ p with
      warnings := note p.warnings "extraction_unavailable"
      answers := p.answers ++ [.unextracted] }, units, false)

def textsOf (units : List Unit) : List (String × String × Int) :=
  units.flatMap fun u => (u.text, u.id, -1) :: u.facts.zipIdx.map fun (fact, ordinal) =>
    (fact.subject ++ " " ++ fact.predicate ++ " " ++ fact.object, u.id, (ordinal : Int))

def hexProfile (profile : String) : Bool :=
  profile.utf8ByteSize == 64 && profile.toList.all fun c => c.isDigit || ('a' ≤ c && c ≤ 'f') || ('A' ≤ c && c ≤ 'F')

def embeddings (batch chunk expected : Nat) : Option (Embedded ν) :=
  (w.embed batch chunk).filter fun e => hexProfile e.profileId && e.vectors.length == expected &&
    e.vectors.all fun v => 1 ≤ w.engine.dimension v && w.engine.dimension v ≤ 4096 && w.engine.soundVector v &&
      e.vectors.all fun v' => w.engine.dimension v == w.engine.dimension v'

def embedChunks (batch : Nat) : Nat → List (List (String × String × Int)) → Progress → List (Feature ν) →
    Except String (Progress × List (Feature ν))
  | _, [], p, features => .ok (p, features)
  | chunk, texts :: rest, p, features =>
      match embeddings w batch chunk texts.length with
      | some embedded => do
          ensure (p.profile.all (· == embedded.profileId)) "Embedding profile changed during indexing"
          let added := (texts.zip embedded.vectors).map fun (text, embedding) => ⟨text.2.1, text.2.2, embedding⟩
          embedChunks batch (chunk + 1) rest
            { p with profile := some embedded.profileId, answers := p.answers ++ [.embedded] } (features ++ added)
      | none => .ok ({ p with
          lexicalOnly := true
          warnings := p.warnings ++ ["embeddings_unavailable"]
          answers := p.answers ++ [.unembedded] }, features)

def embedding (total ordinal batch : Nat) (units : List Unit) (p : Progress) : Except String (Progress × List (Feature ν)) :=
  if p.lexicalOnly then .ok (p, [])
  else do
    let p ← report w job p .embedding (15 + (80 * ordinal + 40) / total)
    embedChunks w batch 0 ((textsOf units).toChunks 32) p []

def enrich (source : String) (total resumed batch : Nat) (units : List Unit) (p : Progress) : Except String Progress := do
  let p ← report w job p .extracting (15 + 80 * (resumed + batch) / total)
  let (p, units, complete) ← extraction w batch units p
  let (p, features) ← embedding w job total (resumed + batch) batch units p
  let p ← write w job p (.stage source units features p.profile)
  if complete && !p.lexicalOnly then write w job p (.complete units) else return p

def enrichAll (source : String) (total resumed : Nat) : Nat → List Unit → Progress → Except String Progress
  | _, [], p => .ok p
  | batch, u :: rest, p => do
      let p ← enrich w job source total resumed batch [u] p
      enrichAll source total resumed (batch + 1) rest p

def stageAll (source : String) : List (List Unit) → Progress → Except String Progress
  | [], p => .ok p
  | units :: rest, p => do
      let p ← write w job p (.stage source units [] none)
      stageAll source rest p

/-- The units of a document and the warnings of the parser, unless an earlier
run left units. -/
def reading (source : String) (p : Progress) : Except String (Progress × List Unit × List String) :=
  match job.units with
  | some units => .ok (p, units, [])
  | none => do
      let p ← write w job p (.progress .reading 2)
      let _ ← w.content
      let p ← write w job p (.progress .parsing 10)
      let parsed ← context w.parse "Unavailable parser"
      ensure (parsed.units.length ≤ 2048 && parsed.parserRevision.utf8ByteSize ≤ 128 && parsed.warnings.length ≤ 8)
        "Invalid parsed evidence"
      return (p, parsed.units.map (unitOf source job.checksum), parsed.warnings)

/-- An image is read before anything else, also for units of an earlier run. -/
def imageContent (image : Bool) : Except String (List UInt8) := if image then w.content else .ok []

/-- Publish bounded lexical evidence before cold model loading can delay
enrichment. -/
def available (warnings : List String) (pending : List Unit) (p : Progress) : Except String Progress :=
  if pending.isEmpty then .ok p else write w job p (.checkpoint (warnings.take 7 ++ ["enrichment_pending"]))

def preparing (source : String) (image : Bool) : Except String (Progress × List Unit × Nat) := do
  let _ ← imageContent w image
  let (p, units, warnings) ← reading w job source ⟨[], job.profile, false, 10, 0, []⟩
  let p := { p with warnings := warnings }
  let pending := units.filter fun u => !job.completed.contains u.id
  let p ← stageAll w job source (pending.toChunks 32) p
  let p ← available w job warnings pending p
  return (p, pending, max units.length 1)

def indexJob (source : String) (image : Bool) : Except String (Progress × Index ν) := do
  let (p, pending, total) ← preparing w job source image
  let p ← enrichAll w job source total (total - pending.length) 0 pending p
  let p ← write w job p (.progress .publishing 95)
  let s ← publish (w.index p.writes) (w.now p.writes) job p.profile (p.warnings.take 8)
  return (p, s)

def reportsOf : Answer → List String
  | .extracted warnings => warnings
  | .unextracted => ["extraction_unavailable"]
  | .embedded => []
  | .unembedded => ["embeddings_unavailable"]

def absorb (warnings : List String) : Answer → List String
  | .extracted new => new.foldl note warnings
  | .unextracted => note warnings "extraction_unavailable"
  | .embedded => warnings
  | .unembedded => warnings ++ ["embeddings_unavailable"]

def urgent (warning : String) : Bool :=
  warning == "embeddings_unavailable" || warning == "extraction_unavailable" || warning == "graph_extraction_unavailable" ||
    warning == "graph_extraction_unauthorized"

def Early (parsed : List String) (reports : List String) : Prop :=
  (∃ w ∈ parsed, urgent w) ∨
    ∃ before w after, reports = before ++ w :: after ∧ urgent w ∧ (before.foldl note parsed).length < 8

theorem note_keeps (acc : List String) (w : String) : acc <+: note acc w := by
  rw [note]
  split
  · exact List.prefix_rfl
  · exact List.prefix_append _ _

theorem foldl_note_keeps (acc reports : List String) : acc <+: reports.foldl note acc := by
  induction reports generalizing acc with
  | nil => exact List.prefix_rfl
  | cons w reports ih => exact (note_keeps acc w).trans (ih _)

theorem absorb_keeps (acc : List String) (answer : Answer) : acc <+: absorb acc answer := by
  cases answer with
  | extracted new => exact foldl_note_keeps acc new
  | unextracted => exact note_keeps acc _
  | embedded => exact List.prefix_rfl
  | unembedded => exact List.prefix_append _ _

theorem foldl_absorb_keeps (acc : List String) (answers : List Answer) : acc <+: answers.foldl absorb acc := by
  induction answers generalizing acc with
  | nil => exact List.prefix_rfl
  | cons a answers ih => exact (absorb_keeps acc a).trans (ih _)

theorem take_of_keeps {acc more : List String} {n : Nat} (h : acc <+: more) (hlength : n ≤ acc.length) :
    more.take n = acc.take n := by
  obtain ⟨rest, rfl⟩ := h
  exact List.take_append_of_le_length hlength

theorem foldl_note_early {acc reports : List String} (hacc : ∀ w ∈ acc, urgent w = false) :
    (∃ w ∈ (reports.foldl note acc).take 8, urgent w) ↔
      ∃ before w after, reports = before ++ w :: after ∧ urgent w ∧ (before.foldl note acc).length < 8 := by
  induction reports generalizing acc with
  | nil =>
      simp only [List.foldl_nil]
      constructor
      · rintro ⟨w, hw, hurgent⟩
        simp [hacc w (List.mem_of_mem_take hw)] at hurgent
      · rintro ⟨before, w, after, h, -⟩
        cases before <;> cases h
  | cons w reports ih =>
      by_cases hurgent : urgent w
      · have hnew : note acc w = acc ++ [w] := by
          rw [note, if_neg]
          intro hmem
          simp [hacc w (by simpa using hmem)] at hurgent
        constructor
        · rintro ⟨v, hv, hvurgent⟩
          refine ⟨[], w, reports, rfl, hurgent, ?_⟩
          by_contra hlong
          have htake : ((w :: reports).foldl note acc).take 8 = acc.take 8 :=
            take_of_keeps (foldl_note_keeps acc _) (Nat.not_lt.mp hlong)
          rw [htake] at hv
          simp [hacc v (List.mem_of_mem_take hv)] at hvurgent
        · rintro ⟨before, v, after, -, -, hshort⟩
          have hlength : acc.length < 8 := (foldl_note_keeps acc before).length_le.trans_lt hshort
          refine ⟨w, ?_, hurgent⟩
          obtain ⟨rest, hrest⟩ := foldl_note_keeps (note acc w) reports
          rw [List.foldl_cons, ← hrest, hnew, List.append_assoc, List.take_append, List.singleton_append]
          refine List.mem_append_right _ ?_
          obtain ⟨k, hk⟩ : ∃ k, 8 - acc.length = k + 1 := ⟨7 - acc.length, by omega⟩
          rw [hk, List.take_succ_cons]
          exact List.mem_cons_self
      · have hnote : ∀ v ∈ note acc w, urgent v = false := by
          intro v hv
          rw [note] at hv
          split at hv
          next => exact hacc v hv
          next =>
            rcases List.mem_append.mp hv with hv | hv
            · exact hacc v hv
            · exact List.mem_singleton.mp hv ▸ Bool.eq_false_iff.mpr hurgent
        rw [List.foldl_cons, ih hnote]
        constructor
        · rintro ⟨before, v, after, rfl, hv, hshort⟩
          exact ⟨w :: before, v, after, rfl, hv, hshort⟩
        · rintro ⟨before, v, after, hsplit, hv, hshort⟩
          cases before with
          | nil =>
              obtain rfl := (List.cons.inj hsplit).1
              exact absurd hv hurgent
          | cons u before =>
              obtain ⟨rfl, rfl⟩ := List.cons.inj hsplit
              exact ⟨before, v, after, rfl, hv, hshort⟩

/-- Once something urgent was noted, later warnings do not change whether it is
among the first ones. -/
theorem take_urgent {acc more : List String} (h : acc <+: more) (hurgent : ∃ w ∈ acc, urgent w) :
    (∃ w ∈ more.take 8, urgent w) ↔ ∃ w ∈ acc.take 8, urgent w := by
  rcases Nat.lt_or_ge acc.length 8 with hshort | hlong
  · have hall : acc.take 8 = acc := List.take_of_length_le hshort.le
    rw [hall]
    refine ⟨fun _ => hurgent, fun ⟨w, hw, hu⟩ => ⟨w, ?_, hu⟩⟩
    have hprefix : acc <+: more.take 8 := List.prefix_take_iff.mpr ⟨h, hshort.le⟩
    exact hprefix.subset hw
  · rw [take_of_keeps h hlong]

theorem absorb_reports {acc : List String} (hacc : ¬ ∃ w ∈ acc, urgent w) (answer : Answer) :
    absorb acc answer = (reportsOf answer).foldl note acc := by
  cases answer with
  | extracted new => rfl
  | unextracted => rfl
  | embedded => rfl
  | unembedded =>
      have hnew : acc.contains "embeddings_unavailable" = false := by
        rw [List.contains_eq_mem, decide_eq_false_iff_not]
        exact fun hmem => hacc ⟨_, hmem, by decide⟩
      rw [reportsOf, List.foldl_cons, List.foldl_nil, note, hnew]
      rfl

theorem foldl_absorb_urgent (acc : List String) (answers : List Answer) :
    (∃ w ∈ (answers.foldl absorb acc).take 8, urgent w) ↔ ∃ w ∈ ((answers.flatMap reportsOf).foldl note acc).take 8, urgent w := by
  induction answers generalizing acc with
  | nil => rfl
  | cons a answers ih =>
      by_cases hacc : ∃ w ∈ acc, urgent w
      · rw [take_urgent (foldl_absorb_keeps acc _) hacc, take_urgent (foldl_note_keeps acc _) hacc]
      · rw [List.foldl_cons, List.flatMap_cons, List.foldl_append, absorb_reports hacc, ih]

theorem early_iff {parsed : List String} (hparsed : parsed.length ≤ 8) (answers : List Answer) :
    (∃ w ∈ (answers.foldl absorb parsed).take 8, urgent w) ↔ Early parsed (answers.flatMap reportsOf) := by
  by_cases hurgent : ∃ w ∈ parsed, urgent w
  · rw [take_urgent (foldl_absorb_keeps parsed answers) hurgent, List.take_of_length_le hparsed]
    exact ⟨fun h => .inl h, fun _ => hurgent⟩
  · have hnone : ∀ w ∈ parsed, urgent w = false := fun w hw => Bool.eq_false_iff.mpr fun hu => hurgent ⟨w, hw, hu⟩
    rw [foldl_absorb_urgent, foldl_note_early hnone]
    exact ⟨fun h => .inr h, fun h => h.resolve_left hurgent⟩

section Runs

variable {ν : Type} {w : World ν} {job : IndexJob} {source : String} {parsed : List String} {p p' : Progress}

def Tracks (parsed : List String) (p : Progress) : Prop := p.warnings = p.answers.foldl absorb parsed

theorem write_tracks {operation : Operation ν} (h : write w job p operation = .ok p') (hp : Tracks parsed p) :
    Tracks parsed p' := by
  simp only [write, bind_eq_ok, pure_eq_ok] at h
  obtain ⟨_, -, rfl⟩ := h
  exact hp

theorem report_tracks {stage : IndexStage} {percent : Nat} (h : report w job p stage percent = .ok p') (hp : Tracks parsed p) :
    Tracks parsed p' := by
  rw [report] at h
  split at h
  · simp only [bind_eq_ok, pure_eq_ok] at h
    obtain ⟨q, hq, rfl⟩ := h
    have hq' : Tracks parsed q := write_tracks hq hp
    exact hq'
  · exact Except.ok.inj h ▸ hp

theorem extraction_tracks {batch : Nat} {units : List Unit} {found : List Unit × Bool}
    (h : extraction w batch units p = .ok (p', found)) (hp : Tracks parsed p) : Tracks parsed p' := by
  rw [extraction] at h
  split at h
  · simp only [bind_eq_ok, pure_eq_ok, Prod.mk.injEq] at h
    obtain ⟨_, -, _, -, _, -, rfl, -⟩ := h
    rw [Tracks, List.foldl_append, ← hp]
    rfl
  · obtain ⟨rfl, -⟩ := Prod.mk.inj (Except.ok.inj h)
    rw [Tracks, List.foldl_append, ← hp]
    rfl

theorem embedChunks_tracks {batch chunk : Nat} {texts : List (List (String × String × Int))} {features features' : List (Feature ν)}
    (h : embedChunks w batch chunk texts p features = .ok (p', features')) (hp : Tracks parsed p) : Tracks parsed p' := by
  induction texts generalizing chunk p features with
  | nil => exact (Prod.mk.inj (Except.ok.inj h)).1 ▸ hp
  | cons chunkTexts texts ih =>
      rw [embedChunks] at h
      split at h
      · simp only [bind_eq_ok] at h
        obtain ⟨_, -, hrest⟩ := h
        refine ih hrest ?_
        rw [Tracks, List.foldl_append, ← hp]
        rfl
      · obtain ⟨rfl, -⟩ := Prod.mk.inj (Except.ok.inj h)
        rw [Tracks, List.foldl_append, ← hp]
        rfl

theorem embedding_tracks {total ordinal batch : Nat} {units : List Unit} {features : List (Feature ν)}
    (h : embedding w job total ordinal batch units p = .ok (p', features)) (hp : Tracks parsed p) : Tracks parsed p' := by
  rw [embedding] at h
  split at h
  · exact (Prod.mk.inj (Except.ok.inj h)).1 ▸ hp
  · simp only [bind_eq_ok] at h
    obtain ⟨q, hq, hchunks⟩ := h
    exact embedChunks_tracks hchunks (report_tracks hq hp)

theorem enrich_tracks {total resumed batch : Nat} {units : List Unit}
    (h : enrich w job source total resumed batch units p = .ok p') (hp : Tracks parsed p) : Tracks parsed p' := by
  simp only [enrich, bind_eq_ok, Prod.exists] at h
  obtain ⟨p₁, h₁, p₂, units', complete, h₂, p₃, features, h₃, p₄, h₄, hlast⟩ := h
  have hp₄ := write_tracks h₄ (embedding_tracks h₃ (extraction_tracks h₂ (report_tracks h₁ hp)))
  split at hlast
  · exact write_tracks hlast hp₄
  · exact Except.ok.inj hlast ▸ hp₄

theorem enrichAll_tracks {total resumed batch : Nat} {units : List Unit}
    (h : enrichAll w job source total resumed batch units p = .ok p') (hp : Tracks parsed p) : Tracks parsed p' := by
  induction units generalizing batch p with
  | nil => exact Except.ok.inj h ▸ hp
  | cons u units ih =>
      simp only [enrichAll, bind_eq_ok] at h
      obtain ⟨q, hq, hrest⟩ := h
      exact ih hrest (enrich_tracks hq hp)

theorem stageAll_answers {batches : List (List Unit)} (h : stageAll w job source batches p = .ok p') :
    p'.warnings = p.warnings ∧ p'.answers = p.answers := by
  induction batches generalizing p with
  | nil => exact Except.ok.inj h ▸ ⟨rfl, rfl⟩
  | cons units batches ih =>
      simp only [stageAll, write, bind_eq_ok, pure_eq_ok] at h
      obtain ⟨_, ⟨_, -, rfl⟩, hrest⟩ := h
      obtain ⟨hwarnings, hanswers⟩ := ih hrest
      exact ⟨hwarnings, hanswers⟩

def parserWarnings (w : World ν) (job : IndexJob) : List String :=
  match job.units with
  | some _ => []
  | none => ((w.parse.map Parsed.warnings).getD [])

theorem reading_warnings {units : List Unit} {warnings : List String} (h : reading w job source p = .ok (p', units, warnings)) :
    warnings = parserWarnings w job ∧ warnings.length ≤ 8 ∧ p'.answers = p.answers := by
  rw [reading] at h
  rw [parserWarnings]
  split at h
  next hunits =>
    obtain ⟨rfl, -, rfl⟩ := Except.ok.inj h
    exact ⟨rfl, by simp, rfl⟩
  next hunits =>
    simp only [write, bind_eq_ok, context_eq_ok, ensure_eq_ok, pure_eq_ok, Bool.and_eq_true, decide_eq_true_eq, Prod.mk.injEq] at h
    obtain ⟨_, ⟨_, -, rfl⟩, _, -, _, ⟨_, -, rfl⟩, parsed, hparsed, _, ⟨-, hlength⟩, rfl, -, rfl⟩ := h
    rw [hparsed]
    exact ⟨rfl, hlength, rfl⟩

theorem preparing_tracks {image : Bool} {pending : List Unit} {total : Nat}
    (h : preparing w job source image = .ok (p, pending, total)) :
    Tracks (parserWarnings w job) p ∧ (parserWarnings w job).length ≤ 8 := by
  simp only [preparing, bind_eq_ok, pure_eq_ok, Prod.exists, Prod.mk.injEq] at h
  obtain ⟨_, -, p₁, units, warnings, hreading, p₂, hstaged, p₃, hlast, rfl, -, -⟩ := h
  obtain ⟨rfl, hlength, hanswers⟩ := reading_warnings hreading
  obtain ⟨hwarnings, hanswers'⟩ := stageAll_answers hstaged
  have htracks : Tracks (parserWarnings w job) p₂ := by
    rw [Tracks, hwarnings, hanswers', hanswers]
    rfl
  refine ⟨?_, hlength⟩
  rw [available] at hlast
  split at hlast
  · exact Except.ok.inj hlast ▸ htracks
  · exact write_tracks hlast htracks

end Runs

section Retries

variable {ν : Type} {s s' : Index ν} {now : Int} {job : IndexJob} {profile : Option String} {warnings : List String}

def Stays (s s' : Index ν) : Prop :=
  ∃ row row', s.job = some row ∧ s'.job = some row' ∧ row'.workRevision = row.workRevision ∧ row'.lease = none

theorem publish_stays (h : publish s now job profile warnings = .ok s') :
    if warnings.any urgent then Stays s s' else s'.job = none := by
  simp only [publish, activateRevision, bind_eq_ok, ensure_eq_ok, pure_eq_ok] at h
  obtain ⟨active, ⟨_, hheld, rfl⟩, h⟩ := h
  obtain ⟨row, hrow, hlease⟩ : ∃ row, s.job = some row ∧ row.lease = some job.lease := by
    cases hrow : s.job with
    | none => simp [held, hrow] at hheld
    | some row =>
        simp only [held, hrow, Option.any_some, Bool.and_eq_true, beq_iff_eq] at hheld
        exact ⟨row, rfl, hheld.1.1⟩
  have hurgent : warnings.any urgent = (warnings.contains "graph_extraction_unauthorized" || transient warnings) := by
    rw [Bool.eq_iff_iff, Bool.or_eq_true, transient, List.any_eq_true, List.any_eq_true, List.contains_iff_mem]
    simp only [urgent, Bool.or_eq_true, beq_iff_eq]
    constructor
    · rintro ⟨w, hw, hurgent | hurgent⟩
      · exact .inr ⟨w, hw, hurgent⟩
      · exact .inl (hurgent ▸ hw)
    · rintro (hw | ⟨w, hw, hurgent⟩)
      · exact ⟨_, hw, .inr rfl⟩
      · exact ⟨w, hw, .inl hurgent⟩
  rw [hurgent]
  split at h
  next hunauthorized =>
    rw [hunauthorized, Bool.true_or, if_pos rfl]
    obtain rfl := Except.ok.inj h
    exact ⟨row, { row.released with attempts := 8 }, hrow, by simp [updateJob, deleteUnits, hrow, hlease], rfl, rfl⟩
  next hauthorized =>
    rw [Bool.eq_false_iff.mpr hauthorized, Bool.false_or]
    split at h
    next htransient =>
      rw [if_pos htransient]
      obtain rfl := Except.ok.inj h
      exact ⟨row, row.deferred now, hrow, by simp [updateJob, deleteUnits, hrow, hlease], rfl, rfl⟩
    next htransient =>
      rw [if_neg htransient]
      obtain rfl := Except.ok.inj h
      simp [deleteUnits, hrow, hlease]

/-- A call that was answered as unavailable, as the indexer itself tells. -/
def unavailable : Answer → Bool
  | .extracted warnings => warnings.any (endsWith "_unavailable")
  | .unextracted => true
  | .embedded => false
  | .unembedded => true

/-- A document whose enrichment failed is kept for another attempt if and only if
an urgent warning is among the first eight that are noted. -/
theorem index_job_retried (w : World ν) (job : IndexJob) (source : String) (image : Bool) (p : Progress) (s : Index ν)
    (h : indexJob w job source image = .ok (p, s)) :
    ((p.answers.any unavailable → Stays (w.index p.writes) s) ↔
      (p.answers.any unavailable → Early (parserWarnings w job) (p.answers.flatMap reportsOf))) ∧
      (s.job = none ∨ Stays (w.index p.writes) s) := by
  simp only [indexJob, bind_eq_ok, pure_eq_ok, Prod.exists, Prod.mk.injEq] at h
  obtain ⟨p₁, pending, total, hprepared, p₂, henriched, p₃, hwritten, s', hpublished, rfl, rfl⟩ := h
  obtain ⟨htracks, hlength⟩ := preparing_tracks hprepared
  have htracks := write_tracks hwritten (enrichAll_tracks henriched htracks)
  have hstays := publish_stays hpublished
  have hearly := early_iff hlength p₃.answers
  rw [← htracks, ← List.any_eq_true] at hearly
  split at hstays
  next hurgent => exact ⟨⟨fun _ _ => hearly.mp hurgent, fun _ _ => hstays⟩, .inr hstays⟩
  next hurgent =>
    have hgone : ¬ Stays (w.index p₃.writes) s' := by
      rintro ⟨row, row', -, hrow', -⟩
      rw [hstays] at hrow'
      cases hrow'
    exact ⟨⟨fun hkept hfailed => absurd (hkept hfailed) hgone, fun hkept hfailed => absurd (hearly.mpr (hkept hfailed)) hurgent⟩,
      .inl hstays⟩

/-- A document of one passage, while the agent answers nothing but the parse. -/
def offline (warnings : List String) : World PUnit where
  engine := plainEngine
  index _ := ⟨some ⟨"sum", true, some 1000, 1, none⟩, some ⟨"sum", 1, 0, some "l", 1000, some "revision", .queued, 0⟩, [], []⟩
  now _ := 0
  content := .ok []
  parse := some ⟨"p", [⟨0, "text", 0, 4, none⟩], warnings⟩
  extract _ := none
  embed _ _ := none

def offlineRun (warnings : List String) : Except String (Progress × Index PUnit) :=
  indexJob (offline warnings) (worker "l") "00000000000000000000000000000000" false

theorem index_job_retried_quiet : ∃ p s, offlineRun [] = .ok (p, s) ∧ Stays ((offline []).index p.writes) s := by
  have hrun : (offlineRun []).toOption.map (fun r => r.1.answers) = some [.unextracted, .unembedded] := by decide +kernel
  cases h : offlineRun [] with
  | error e => simp [h, Except.toOption] at hrun
  | ok r =>
      have hanswers : r.1.answers = [.unextracted, .unembedded] := by simpa [h, Except.toOption] using hrun
      refine ⟨r.1, r.2, rfl, (index_job_retried _ _ _ _ r.1 r.2 h).1.mpr (fun _ => ?_) (by rw [hanswers]; decide)⟩
      rw [hanswers]
      exact .inr ⟨[], _, _, rfl, by decide, by decide⟩

/-- Eight warnings of the parser leave no place for the failure of the agent. -/
theorem noisy_document_dropped : ¬ ∀ (w : World PUnit) (job : IndexJob) (source : String) (image : Bool) (p : Progress)
    (s : Index PUnit), indexJob w job source image = .ok (p, s) → p.answers.any unavailable → Stays (w.index p.writes) s := by
  intro hall
  have hrun : (offlineRun ["a", "b", "c", "d", "e", "f", "g", "h"]).toOption.map (fun r => (r.1.answers, r.2.job)) =
      some ([.unextracted, .unembedded], none) := by decide +kernel
  cases h : offlineRun ["a", "b", "c", "d", "e", "f", "g", "h"] with
  | error e => simp [h, Except.toOption] at hrun
  | ok r =>
      simp only [h, Except.toOption, Option.map_some, Option.some.injEq, Prod.mk.injEq] at hrun
      obtain ⟨row, row', -, hrow', -⟩ := hall _ _ _ _ r.1 r.2 h (by rw [hrun.1]; decide)
      rw [hrun.2] at hrow'
      cases hrow'

end Retries

end Galadril.Documents
