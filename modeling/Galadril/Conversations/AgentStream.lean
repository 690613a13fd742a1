import Galadril.Lib.Checked
import Galadril.Lib.Framing

namespace Galadril.Conversations.AgentStream

open Lib Lib.Checked Lib.Framing

inductive RuntimeChunk
  | content (content : String)
  | activity (content : String)
  | tool (content : String)
  | completed
  | failed

/-- The readers of events and of activities. A string is never longer than the
event that it is read from. -/
structure Reader where
  fromSlice : List UInt8 → Option RuntimeChunk
  activity : String → Except String Unit
  content_le : ∀ frame content, fromSlice frame = some (.content content) → content.utf8ByteSize ≤ frame.length

def toolNames : List String :=
  ["context", "web", "search", "graph", "causal", "library", "read_file", "document_templates", "compile_document",
    "document_job", "document_search", "evidence", "date_interval", "run_python", "mcp"]

/-- Rejects unrecognized tool names before persisting model-visible progress. -/
def validateToolProgress (content : String) : Except String Unit := ensure (toolNames.contains content) "Invalid tool progress"

inductive Reaction
  | emit (content : String)
  | skip
  | stop (verdict : Except String Unit)

def checked : Except String Unit → Reaction
  | .ok _ => .skip
  | .error e => .stop (.error e)

variable (r : Reader)

def readFrame (frame : List UInt8) : Reaction :=
  match r.fromSlice frame with
  | none => .stop (.error "Invalid Scribe event")
  | some (.content content) => .emit content
  | some (.activity content) => checked (r.activity content)
  | some (.tool content) => checked (validateToolProgress content)
  | some .completed => .stop (.ok ())
  | some .failed => .stop (.error "Scribe generation failed")

structure Decoder where
  buffer : List UInt8
  fragments : List String
  verdict : Option (Except String Unit)

def maxEvent : Nat := 65536

def overlong : Except String Unit := .error "Scribe event exceeds limit"

def decodeByte (d : Decoder) (byte : UInt8) : Decoder :=
  if byte = 10 then
    match readFrame r d.buffer with
    | .emit content => { d with buffer := [], fragments := d.fragments ++ [content] }
    | .skip => { d with buffer := [] }
    | .stop verdict => { d with buffer := [], verdict := some verdict }
  else if maxEvent ≤ d.buffer.length then { d with verdict := some overlong }
  else { d with buffer := d.buffer ++ [byte] }

def decodePart (d : Decoder) : List UInt8 → Decoder
  | [] => d
  | byte :: part =>
      let d := decodeByte r d byte
      if d.verdict.isSome then d else decodePart d part

def decodeParts (d : Decoder) : List (Except String (List UInt8)) → Decoder
  | [] => d
  | .error e :: _ => { d with verdict := some (.error e) }
  | .ok part :: parts =>
      let d := decodePart r d part
      if d.verdict.isSome then d else decodeParts d parts

def incomplete : Except String Unit := .error "Scribe stream ended without completion"

/-- Bounds individual frames while retaining the transport's zero-copy chunks.
The fragments in their order and how the stream ends. -/
def decodeStream (parts : List (Except String (List UInt8))) : List String × Except String Unit :=
  let d := decodeParts r ⟨[], [], none⟩ parts
  (d.fragments, d.verdict.getD incomplete)

section Frames

variable (r : Reader)

def decodeFrames : List (List UInt8) → List UInt8 → List String × Except String Unit
  | [], tail => ([], if maxEvent < tail.length then overlong else incomplete)
  | frame :: frames, tail =>
      if maxEvent < frame.length then ([], overlong)
      else
        match readFrame r frame with
        | .emit content => (content :: (decodeFrames frames tail).1, (decodeFrames frames tail).2)
        | .skip => decodeFrames frames tail
        | .stop verdict => ([], verdict)

def decodeWhole (input : List UInt8) : List String × Except String Unit :=
  decodeFrames r (cut 10 input).1 (cut 10 input).2

variable {r}

theorem decodeWhole_overlong {input : List UInt8} (h : maxEvent < (leading (cut 10 input)).length) :
    decodeWhole r input = ([], overlong) := by
  rw [decodeWhole]
  rw [leading] at h
  cases hframes : (cut 10 input).1 with
  | nil =>
      rw [hframes] at h
      exact congrArg (Prod.mk []) (if_pos h)
  | cons frame frames =>
      rw [hframes] at h
      rw [decodeFrames, if_pos (by simpa using h)]

theorem decodeWhole_sep {buffer : List UInt8} (hbuffer : 10 ∉ buffer) (hshort : buffer.length ≤ maxEvent) (rest : List UInt8) :
    decodeWhole r (buffer ++ 10 :: rest) =
      match readFrame r buffer with
      | .emit content => (content :: (decodeWhole r rest).1, (decodeWhole r rest).2)
      | .skip => decodeWhole r rest
      | .stop verdict => ([], verdict) := by
  rw [decodeWhole, cut_append_sep hbuffer, decodeFrames, if_neg (Nat.not_lt.mpr hshort)]
  rfl

structure Open (d : Decoder) : Prop where
  running : d.verdict = none
  unframed : 10 ∉ d.buffer
  short : d.buffer.length ≤ maxEvent

variable (r)

def Follows (d d' : Decoder) (input : List UInt8) : Prop :=
  ∃ emitted, d'.fragments = d.fragments ++ emitted ∧
    match d'.verdict with
    | none => Open d' ∧ ∀ later, decodeWhole r (d.buffer ++ (input ++ later)) =
        (emitted ++ (decodeWhole r (d'.buffer ++ later)).1, (decodeWhole r (d'.buffer ++ later)).2)
    | some verdict => ∀ later, decodeWhole r (d.buffer ++ (input ++ later)) = (emitted, verdict)

variable {r} {d : Decoder}

theorem follows_decodeByte (h : Open d) (byte : UInt8) : Follows r d (decodeByte r d byte) [byte] := by
  rw [decodeByte]
  split
  · next hsep =>
    subst hsep
    have hwhole := decodeWhole_sep (r := r) h.unframed h.short
    cases hframe : readFrame r d.buffer with
    | emit content =>
        simp only [hframe] at hwhole
        refine ⟨[content], rfl, ?_⟩
        simp only [h.running]
        exact ⟨⟨rfl, List.not_mem_nil, Nat.zero_le _⟩, hwhole⟩
    | skip =>
        simp only [hframe] at hwhole
        refine ⟨[], (List.append_nil _).symm, ?_⟩
        simp only [h.running]
        exact ⟨⟨rfl, List.not_mem_nil, Nat.zero_le _⟩, hwhole⟩
    | stop verdict =>
        simp only [hframe] at hwhole
        exact ⟨[], (List.append_nil _).symm, hwhole⟩
  · next hne =>
    split
    · next hlong =>
      refine ⟨[], (List.append_nil _).symm, fun later => decodeWhole_overlong ?_⟩
      rw [leading_append h.unframed, List.singleton_append, leading_cons hne, List.length_append, List.length_cons]
      omega
    · next hshort =>
      refine ⟨[], (List.append_nil _).symm, ?_⟩
      simp only [h.running]
      refine ⟨⟨rfl, ?_, ?_⟩, fun later => ?_⟩
      · rw [List.mem_append, List.mem_singleton, not_or]
        exact ⟨h.unframed, Ne.symm hne⟩
      · rw [List.length_append, List.length_singleton]
        omega
      · rw [List.append_assoc, List.nil_append]

theorem Follows.refl (h : Open d) : Follows r d d [] := by
  refine ⟨[], (List.append_nil _).symm, ?_⟩
  simp only [h.running]
  exact ⟨h, fun later => rfl⟩

theorem Follows.trans {d₁ d₂ : Decoder} {input later : List UInt8} (h : Follows r d d₁ input) (hopen : d₁.verdict = none)
    (h' : Follows r d₁ d₂ later) : Follows r d d₂ (input ++ later) := by
  obtain ⟨emitted, hemitted, hmeaning⟩ := h
  obtain ⟨emitted', hemitted', hmeaning'⟩ := h'
  simp only [hopen] at hmeaning
  refine ⟨emitted ++ emitted', by rw [hemitted', hemitted, List.append_assoc], ?_⟩
  cases hverdict : d₂.verdict with
  | none =>
      simp only [hverdict] at hmeaning' ⊢
      refine ⟨hmeaning'.1, fun rest => ?_⟩
      rw [List.append_assoc, hmeaning.2, hmeaning'.2, List.append_assoc]
  | some verdict =>
      simp only [hverdict] at hmeaning' ⊢
      intro rest
      rw [List.append_assoc, hmeaning.2, hmeaning']

/-- A decoder that has stopped does not look at the rest. -/
theorem Follows.stop {d₁ : Decoder} {input : List UInt8} (h : Follows r d d₁ input) (hstopped : d₁.verdict.isSome)
    (later : List UInt8) : Follows r d d₁ (input ++ later) := by
  obtain ⟨verdict, hverdict⟩ := Option.isSome_iff_exists.mp hstopped
  obtain ⟨emitted, hemitted, hmeaning⟩ := h
  refine ⟨emitted, hemitted, ?_⟩
  simp only [hverdict] at hmeaning ⊢
  intro rest
  rw [List.append_assoc, hmeaning]

theorem Follows.opened {d₁ : Decoder} {input : List UInt8} (h : Follows r d d₁ input) (hopen : d₁.verdict = none) : Open d₁ := by
  obtain ⟨_, -, hmeaning⟩ := h
  simp only [hopen] at hmeaning
  exact hmeaning.1

theorem follows_decodePart (part : List UInt8) (h : Open d) : Follows r d (decodePart r d part) part := by
  induction part generalizing d with
  | nil => exact .refl h
  | cons byte part ih =>
      have hbyte := follows_decodeByte (r := r) h byte
      rw [decodePart]
      cases hverdict : (decodeByte r d byte).verdict with
      | none =>
          simp only [Option.isSome_none, Bool.false_eq_true, if_false]
          exact hbyte.trans hverdict (ih (hbyte.opened hverdict))
      | some verdict =>
          simp only [Option.isSome_some, if_true]
          exact hbyte.stop (by rw [hverdict]; rfl) part

theorem follows_decodeParts (parts : List (List UInt8)) (h : Open d) :
    Follows r d (decodeParts r d (parts.map .ok)) parts.flatten := by
  induction parts generalizing d with
  | nil => exact .refl h
  | cons part parts ih =>
      have hpart := follows_decodePart (r := r) part h
      rw [List.map_cons, decodeParts, List.flatten_cons]
      cases hverdict : (decodePart r d part).verdict with
      | none =>
          simp only [Option.isSome_none, Bool.false_eq_true, if_false]
          exact hpart.trans hverdict (ih (hpart.opened hverdict))
      | some verdict =>
          simp only [Option.isSome_some, if_true]
          exact hpart.stop (by rw [hverdict]; rfl) parts.flatten

theorem decodeStream_eq (parts : List (List UInt8)) : decodeStream r (parts.map .ok) = decodeWhole r parts.flatten := by
  obtain ⟨emitted, hemitted, hmeaning⟩ := follows_decodeParts (r := r) (d := ⟨[], [], none⟩) parts
    ⟨rfl, List.not_mem_nil, Nat.zero_le _⟩
  simp only [decodeStream]
  cases hverdict : (decodeParts r ⟨[], [], none⟩ (parts.map .ok)).verdict with
  | none =>
      simp only [hverdict] at hmeaning
      obtain ⟨hopen, hmeaning⟩ := hmeaning
      have hrest : decodeWhole r (decodeParts r ⟨[], [], none⟩ (parts.map .ok)).buffer = ([], incomplete) := by
        rw [decodeWhole, cut_unframed hopen.unframed, decodeFrames, if_neg (Nat.not_lt.mpr hopen.short)]
      have hwhole := hmeaning []
      rw [List.append_nil, List.append_nil, List.nil_append, hrest] at hwhole
      rw [hwhole, hemitted, List.nil_append, List.append_nil]
      rfl
  | some verdict =>
      simp only [hverdict] at hmeaning
      have hwhole := hmeaning []
      rw [List.append_nil, List.nil_append] at hwhole
      rw [hwhole, hemitted, List.nil_append]
      rfl

theorem fragment_le (frames : List (List UInt8)) (tail : List UInt8) :
    ∀ f ∈ (decodeFrames r frames tail).1, f.utf8ByteSize ≤ maxEvent := by
  induction frames with
  | nil => exact fun f hf => absurd hf List.not_mem_nil
  | cons frame frames ih =>
      intro f hf
      rw [decodeFrames] at hf
      split at hf
      · cases hf
      · next hshort =>
        cases hframe : readFrame r frame with
        | emit content =>
            simp only [hframe] at hf
            rcases List.mem_cons.mp hf with rfl | hf
            · have hread : r.fromSlice frame = some (.content f) := by
                rw [readFrame] at hframe
                split at hframe
                · cases hframe
                · next hread =>
                  cases hframe
                  exact hread
                · cases hc : r.activity _ <;> rw [hc] at hframe <;> cases hframe
                · cases hc : validateToolProgress _ <;> rw [hc] at hframe <;> cases hframe
                · cases hframe
                · cases hframe
              exact (r.content_le frame f hread).trans (Nat.not_lt.mp hshort)
            · exact ih f hf
        | skip =>
            simp only [hframe] at hf
            exact ih f hf
        | stop verdict =>
            simp only [hframe] at hf
            cases hf

end Frames

end Galadril.Conversations.AgentStream
