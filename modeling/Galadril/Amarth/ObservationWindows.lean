import Galadril.Lib.Grouping

namespace Galadril.Amarth

open Lib Lib.Grouping

variable (α : Type)

/-- A heterogeneous observation of a node. Times are in microseconds. -/
structure Observation where
  graphNodeId : String
  observedAt : Int
  observationType : String
  scalarValues : List (String × α)
  embeddings : List (String × List α)
  populated : ∀ entry ∈ embeddings, entry.2 ≠ []

structure GraphRelationshipObservation where
  relationshipType : String
  observedAt : Int

structure ObservationWindow where
  start : Int
  stop : Int
  bucket : Int
  observations : List (Observation α)
  relationships : List GraphRelationshipObservation
  stop_after : start < stop
  bucket_pos : 0 < bucket
  observed_inside : ∀ o ∈ observations, start ≤ o.observedAt ∧ o.observedAt ≤ stop
  related_inside : ∀ r ∈ relationships, start ≤ r.observedAt ∧ r.observedAt ≤ stop

structure Numerics where
  mean : List α → α
  count : Nat → α
  interpolate : List (Option α) → List (Option α)
  principal : Nat → List (List α) → Nat → List α

inductive Column
  | stamps (times : List Int)
  | scalars (cells : List (Option α))
  | vectors (cells : List (Option (List α)))

structure PreparedObservationWindow where
  frame : List (String × Column α)
  vectorColumns : List String
  featureNodeIds : List (String × List String)
  samplingInterval : Int

section Preparation

variable {α : Type}

def sortedSet (texts : List String) : List String := texts.dedup.mergeSort

def featureColumn (observationType name : String) : String := observationType ++ "." ++ name

namespace ObservationWindow

variable (w : ObservationWindow α)

def bucketIndex (observedAt : Int) : Nat := ((observedAt - w.start) / w.bucket).toNat

def bucketCount : Nat := ((w.stop - w.start) / w.bucket).toNat + 1

def scalarReadings : List ((String × String × Nat) × α) :=
  w.observations.flatMap fun o => o.scalarValues.map fun entry =>
    ((o.observationType, entry.1, w.bucketIndex o.observedAt), entry.2)

def vectorReadings : List ((String × String × Nat) × List α) :=
  w.observations.flatMap fun o => o.embeddings.map fun entry => ((o.observationType, entry.1, w.bucketIndex o.observedAt), entry.2)

def columnKey (key : String × String × Nat) : String × Nat := (featureColumn key.1 key.2.1, key.2.2)

def scalarAccumulators : List ((String × Nat) × List α) :=
  accumulate (w.scalarReadings.map fun reading => (columnKey reading.1, reading.2))

def vectorAccumulators : List ((String × Nat) × List (List α)) :=
  accumulate (w.vectorReadings.map fun reading => (columnKey reading.1, reading.2))

def featureNodes : List (String × List String) := accumulate (w.observations.map fun o => (o.observationType, o.graphNodeId))

def rows : List Nat := List.range w.bucketCount

variable (N : Numerics α)

def scalarColumn (column : String) : Column α :=
  .scalars (w.rows.map fun row => (Dictionary.get (column, row) w.scalarAccumulators).map N.mean)

def meanVector (vectors : List (List α)) : List α :=
  (List.range (vectors.headD []).length).map fun i => N.mean (vectors.filterMap fun vector => vector[i]?)

def vectorColumn (column : String) : Column α :=
  .vectors (w.rows.map fun row => (Dictionary.get (column, row) w.vectorAccumulators).map (meanVector N))

def vectorColumns : List String := sortedSet (w.vectorAccumulators.map fun entry => entry.1.1)

def dimensions (column : String) : List Nat :=
  (w.vectorAccumulators.filter fun entry => entry.1.1 = column).flatMap fun entry => entry.2.map List.length

variable (upper : String → String)

def relationshipColumn (relationshipType : String) : String := "relationship." ++ upper relationshipType

def relationshipData (column : String) : Column α :=
  .scalars (w.rows.map fun row => some (N.count
    (w.relationships.countP fun r => relationshipColumn upper r.relationshipType = column ∧ w.bucketIndex r.observedAt = row)))

def frame : List (String × Column α) :=
  tabulate (w.relationships.map fun r => relationshipColumn upper r.relationshipType) (w.relationshipData N upper)
    (tabulate w.vectorColumns (w.vectorColumn N)
      (tabulate (w.scalarAccumulators.map fun entry => entry.1.1) (w.scalarColumn N)
        [("timestamp", .stamps (w.rows.map fun (row : Nat) => w.start + w.bucket * (row : Int)))]))

def prepareObservationWindow : Except String (PreparedObservationWindow α) :=
  match w.vectorColumns.find? fun column => (w.dimensions column).dedup.length ≠ 1 with
  | some column => .error ("embedding '" ++ column ++ "' changed dimensions")
  | none => .ok ⟨w.frame N upper, w.vectorColumns, w.featureNodes.map fun entry => (entry.1, sortedSet entry.2), w.bucket⟩

end ObservationWindow

end Preparation

section Features

variable {α : Type}

def forwardFill {β : Type} : Option β → List (Option β) → List (Option β)
  | _, [] => []
  | last, none :: cells => last :: forwardFill last cells
  | _, some v :: cells => some v :: forwardFill (some v) cells

def fill {β : Type} (cells : List (Option β)) : List (Option β) := (forwardFill none (forwardFill none cells).reverse).reverse

namespace Column

def isBlank : Column α → Bool
  | .stamps times => times.isEmpty
  | .scalars cells => cells.all Option.isNone
  | .vectors cells => cells.all Option.isNone

def imputed (N : Numerics α) : Column α → Column α
  | .stamps times => .stamps times
  | .scalars cells => .scalars (N.interpolate cells)
  | .vectors cells => .vectors (fill cells)

end Column

variable (N : Numerics α)

def preprocessData (frame : List (String × Column α)) : List (String × Column α) :=
  (frame.filter fun entry => !entry.2.isBlank).map fun entry => (entry.1, entry.2.imputed N)

def componentColumn (column : String) (component : Nat) : String := column ++ ".pc" ++ Nat.repr component

def componentCount (dimension rows : Nat) : Nat := min (min dimension (max 1 (rows / 10))) 16

def componentData (dimension : Nat) (matrix : List (List α)) (component : Nat) : Column α :=
  let retained := componentCount dimension matrix.length
  .scalars ((if retained < dimension then N.principal retained matrix component
    else matrix.filterMap fun vector => vector[component]?).map some)

def projectColumn (column : String) (frame : List (String × Column α)) (cells : List (Option (List α))) :
    Except String (List (String × Column α)) :=
  match cells.findSome? id with
  | none => .ok (Dictionary.drop column frame)
  | some first =>
      if cells.all fun cell => cell.map List.length = some first.length then
        .ok (assignAll (componentColumn column) (componentData N first.length (cells.filterMap id))
          (List.range (componentCount first.length cells.length)) (Dictionary.drop column frame))
      else .error ("embedding '" ++ column ++ "' has inconsistent dimensions")

/-- A column of embeddings becomes columns of its components. A column of anything
else has no vector and is dropped. -/
def expandColumn (frame : List (String × Column α)) (column : String) : Except String (List (String × Column α)) :=
  match Dictionary.get column frame with
  | none => .ok frame
  | some (.vectors cells) => projectColumn N column frame cells
  | some (.scalars _) | some (.stamps _) => .ok (Dictionary.drop column frame)

def expandEmbeddings (frame : List (String × Column α)) (embeddingColumns : List String) :
    Except String (List (String × Column α)) :=
  embeddingColumns.foldlM (expandColumn N) frame

def features (prepared : PreparedObservationWindow α) : Except String (List (String × Column α)) :=
  expandEmbeddings N (preprocessData N prepared.frame) prepared.vectorColumns

end Features

structure CausalLink where
  sourceFeature : String
  targetFeature : String
  lagSteps : Int
  timeLag : Int
  sourceNodeIds : List String
  targetNodeIds : List String

def featureFamily (feature : String) : String := String.ofList (feature.toList.takeWhile fun c => c != '.')

def buildCausalLinks (edges : List (String × String × Int)) (samplingInterval : Int)
    (featureNodeIds : List (String × List String)) :
    List CausalLink :=
  edges.map fun edge => {
    sourceFeature := edge.1
    targetFeature := edge.2.1
    lagSteps := edge.2.2
    timeLag := edge.2.2 * samplingInterval
    sourceNodeIds := (Dictionary.get (featureFamily edge.1) featureNodeIds).getD []
    targetNodeIds := (Dictionary.get (featureFamily edge.2.1) featureNodeIds).getD [] }

section Sources

variable {α : Type}

inductive Source
  | scalar (observationType name : String)
  | component (observationType name : String) (index : Nat)
  | relationship (relationshipType : String)
deriving DecidableEq

def Source.column (upper : String → String) : Source → String
  | .scalar observationType name => featureColumn observationType name
  | .component observationType name index => componentColumn (featureColumn observationType name) index
  | .relationship relationshipType => ObservationWindow.relationshipColumn upper relationshipType

namespace ObservationWindow

variable (w : ObservationWindow α)

def HasScalar (observationType name : String) : Prop := ∃ row, (observationType, name, row) ∈ w.scalarReadings.map Prod.fst

def HasVector (observationType name : String) : Prop := ∃ row, (observationType, name, row) ∈ w.vectorReadings.map Prod.fst

def dimension (observationType name : String) : Nat :=
  ((w.vectorReadings.find? fun reading => reading.1.1 = observationType ∧ reading.1.2.1 = name).map fun reading =>
    reading.2.length).getD 0

def Has : Source → Prop
  | .scalar observationType name => w.HasScalar observationType name
  | .component observationType name index =>
      w.HasVector observationType name ∧ index < componentCount (w.dimension observationType name) w.bucketCount
  | .relationship relationshipType => ∃ r ∈ w.relationships, r.relationshipType = relationshipType

def cells {β γ : Type} (combine : List β → γ) (values : Nat → List β) : List (Option γ) :=
  w.rows.map fun row => if (values row).isEmpty then none else some (combine (values row))

variable (N : Numerics α)

def own : Source → Column α
  | .scalar observationType name =>
      .scalars (N.interpolate (w.cells N.mean fun row => valuesAt (observationType, name, row) w.scalarReadings))
  | .component observationType name index =>
      componentData N (w.dimension observationType name)
        ((fill (w.cells (meanVector N) fun row => valuesAt (observationType, name, row) w.vectorReadings)).filterMap id) index
  | .relationship relationshipType =>
      .scalars (N.interpolate (w.rows.map fun row => some (N.count
        (w.relationships.countP fun r => r.relationshipType = relationshipType ∧ w.bucketIndex r.observedAt = row))))

variable (upper : String → String)

/-- Every column but the timestamps stems from one source, which alone made it. -/
structure Evident (frame : List (String × Column α)) : Prop where
  named : ∀ entry ∈ frame, entry.1 = "timestamp" ∨ ∃ s, w.Has s ∧ s.column upper = entry.1
  single : ∀ s s', w.Has s → w.Has s' → s.column upper = s'.column upper → s = s'
  own : ∀ s, w.Has s → Dictionary.get (s.column upper) frame = some (w.own N s)

/-- The texts of sources and of embeddings differ from each other. -/
structure Distinct : Prop where
  single : ∀ s s', w.Has s → w.Has s' → s.column upper = s'.column upper → s = s'
  unprojected : ∀ observationType name, w.HasVector observationType name →
    ∀ s, w.Has s → s.column upper ≠ featureColumn observationType name

def nodesOf (observationType : String) : List String :=
  sortedSet ((w.observations.filter fun o => o.observationType = observationType).map fun o => o.graphNodeId)

def Observed (feature observationType : String) : Prop :=
  ∃ s, w.Has s ∧ s.column upper = feature ∧
    ((∃ name, s = .scalar observationType name) ∨ ∃ name index, s = .component observationType name index)

def Traced (featureNodeIds : List (String × List String)) : Prop :=
  ∀ edges, ∀ link ∈ buildCausalLinks edges w.bucket featureNodeIds, ∀ sourceType targetType,
    w.Observed upper link.sourceFeature sourceType → w.Observed upper link.targetFeature targetType →
      link.sourceNodeIds = w.nodesOf sourceType ∧ link.targetNodeIds = w.nodesOf targetType

def FamiliesKept : Prop :=
  ∀ observationType name, w.HasScalar observationType name ∨ w.HasVector observationType name →
    w.nodesOf (featureFamily observationType) = w.nodesOf observationType

end ObservationWindow

end Sources

section Accumulation

variable {α : Type} {w : ObservationWindow α}

namespace ObservationWindow

theorem accumulated {β γ : Type} {readings : List ((String × String × Nat) × β)} {observationType name : String}
    (h : ∀ key ∈ readings.map Prod.fst, featureColumn key.1 key.2.1 = featureColumn observationType name →
      key.1 = observationType ∧ key.2.1 = name) (combine : List β → γ) (row : Nat) :
    (Dictionary.get (featureColumn observationType name, row)
        (accumulate (readings.map fun reading => (columnKey reading.1, reading.2)))).map combine =
      if (valuesAt (observationType, name, row) readings).isEmpty then none
      else some (combine (valuesAt (observationType, name, row) readings)) := by
  have hvalues := @valuesAt_rename _ _ _ _ _ columnKey (observationType, name, row) readings ?_
  · rw [show (featureColumn observationType name, row) = columnKey (observationType, name, row) from rfl, get_accumulate, ← hvalues]
    by_cases hmem : columnKey (observationType, name, row) ∈
        (readings.map fun reading => (columnKey reading.1, reading.2)).map Prod.fst
    · have hne := valuesAt_ne_nil.mpr hmem
      rw [if_pos hmem, if_neg (by simpa using hne), Option.map_some]
    · have hnil := Classical.not_not.mp fun hne => hmem (valuesAt_ne_nil.mp hne)
      rw [if_neg hmem, hnil]
      rfl
  · rintro ⟨t, n, r⟩ hkey heq
    obtain ⟨hcolumn, hrow⟩ := Prod.mk.inj heq
    obtain ⟨ht, hn⟩ := h _ hkey hcolumn
    simp only at ht hn hrow
    rw [ht, hn, hrow]

theorem mem_accumulated {β : Type} {readings : List ((String × String × Nat) × β)} {column : String} :
    (column ∈ (accumulate (readings.map fun reading => (columnKey reading.1, reading.2))).map fun entry => entry.1.1) ↔
      ∃ observationType name, featureColumn observationType name = column ∧
        ∃ row, (observationType, name, row) ∈ readings.map Prod.fst := by
  have hkeys : ∀ key : String × Nat, key ∈
    (accumulate (readings.map fun reading => (columnKey reading.1, reading.2))).map Prod.fst ↔
      ∃ k ∈ readings.map Prod.fst, columnKey k = key := by
    intro key
    rw [mem_keys_accumulate]
    simp [List.mem_map]
  constructor
  · intro h
    obtain ⟨entry, hentry, rfl⟩ := List.mem_map.mp h
    obtain ⟨⟨t, n, r⟩, hk, heq⟩ := (hkeys entry.1).mp (List.mem_map.mpr ⟨entry, hentry, rfl⟩)
    exact ⟨t, n, by rw [← heq]; rfl, r, hk⟩
  · rintro ⟨t, n, rfl, r, hk⟩
    obtain ⟨entry, hentry, heq⟩ := List.mem_map.mp ((hkeys (columnKey (t, n, r))).mpr ⟨_, hk, rfl⟩)
    exact List.mem_map.mpr ⟨entry, hentry, by rw [heq]; rfl⟩

theorem bucketIndex_lt {observedAt : Int} (h : observedAt ≤ w.stop) : w.bucketIndex observedAt < w.bucketCount := by
  have hle : (observedAt - w.start) / w.bucket ≤ (w.stop - w.start) / w.bucket := Int.ediv_le_ediv w.bucket_pos (by omega)
  rw [bucketIndex, bucketCount]
  omega

theorem row_lt_of_scalar {observationType name : String} {row : Nat}
    (h : (observationType, name, row) ∈ w.scalarReadings.map Prod.fst) : row < w.bucketCount := by
  obtain ⟨reading, hreading, heq⟩ := List.mem_map.mp h
  obtain ⟨o, ho, hmem⟩ := List.mem_flatMap.mp hreading
  obtain ⟨entry, -, rfl⟩ := List.mem_map.mp hmem
  obtain ⟨-, -, rfl⟩ := heq
  exact bucketIndex_lt (w.observed_inside o ho).2

theorem row_lt_of_vector {observationType name : String} {row : Nat}
    (h : (observationType, name, row) ∈ w.vectorReadings.map Prod.fst) : row < w.bucketCount := by
  obtain ⟨reading, hreading, heq⟩ := List.mem_map.mp h
  obtain ⟨o, ho, hmem⟩ := List.mem_flatMap.mp hreading
  obtain ⟨entry, -, rfl⟩ := List.mem_map.mp hmem
  obtain ⟨-, -, rfl⟩ := heq
  exact bucketIndex_lt (w.observed_inside o ho).2

theorem mem_rows {row : Nat} : row ∈ w.rows ↔ row < w.bucketCount := List.mem_range

variable (w) in
theorem zero_mem_rows : 0 ∈ w.rows := mem_rows.mpr (Nat.succ_pos _)

theorem mem_vectorColumns {column : String} :
    column ∈ w.vectorColumns ↔ ∃ observationType name, featureColumn observationType name = column ∧
      w.HasVector observationType name := by
  rw [vectorColumns, sortedSet, List.mem_mergeSort, List.mem_dedup]
  exact mem_accumulated

theorem mem_scalarColumns {column : String} :
    (column ∈ w.scalarAccumulators.map fun entry => entry.1.1) ↔
      ∃ observationType name, featureColumn observationType name = column ∧ w.HasScalar observationType name := mem_accumulated

theorem mem_relationshipColumns {upper : String → String} {column : String} :
    (column ∈ w.relationships.map fun r => relationshipColumn upper r.relationshipType) ↔
      ∃ relationshipType, w.Has (.relationship relationshipType) ∧ relationshipColumn upper relationshipType = column := by
  constructor
  · intro h
    obtain ⟨r, hr, rfl⟩ := List.mem_map.mp h
    exact ⟨r.relationshipType, ⟨r, hr, rfl⟩, rfl⟩
  · rintro ⟨-, ⟨r, hr, rfl⟩, rfl⟩
    exact List.mem_map.mpr ⟨r, hr, rfl⟩

end ObservationWindow

end Accumulation

section Frames

variable {α : Type} {w : ObservationWindow α} {N : Numerics α} {upper : String → String}

namespace ObservationWindow

theorem not_blank_scalars {cells : List (Option α)} {cell : Option α} (hmem : cell ∈ cells) (hsome : cell.isSome = true) :
    (Column.scalars cells).isBlank = false := by
  rw [Column.isBlank, List.all_eq_false]
  exact ⟨cell, hmem, by rw [← Option.not_isSome, hsome]; simp⟩

theorem not_blank_vectors {cells : List (Option (List α))} {cell : Option (List α)} (hmem : cell ∈ cells)
    (hsome : cell.isSome = true) :
    (Column.vectors cells).isBlank = false := by
  rw [Column.isBlank, List.all_eq_false]
  exact ⟨cell, hmem, by rw [← Option.not_isSome, hsome]; simp⟩

theorem get_accumulated_isSome {β : Type} {readings : List ((String × String × Nat) × β)}
    {observationType name : String} {row : Nat}
    (h : (observationType, name, row) ∈ readings.map Prod.fst) :
    (Dictionary.get (featureColumn observationType name, row)
      (accumulate (readings.map fun reading => (columnKey reading.1, reading.2)))).isSome = true := by
  obtain ⟨reading, hreading, heq⟩ := List.mem_map.mp h
  rw [get_isSome_iff, mem_keys_accumulate, List.map_map]
  exact List.mem_map.mpr ⟨reading, hreading, by simp [heq, columnKey]⟩

theorem frame_not_blank {entry : String × Column α} (h : entry ∈ w.frame N upper) : entry.2.isBlank = false := by
  rcases mem_tabulate h with ⟨-, hvalue⟩ | h
  · rw [hvalue]
    exact not_blank_scalars (List.mem_map.mpr ⟨0, w.zero_mem_rows, rfl⟩) rfl
  rcases mem_tabulate h with ⟨hkey, hvalue⟩ | h
  · obtain ⟨t, n, hcolumn, row, hrow⟩ := mem_vectorColumns.mp hkey
    rw [hvalue, ← hcolumn]
    refine not_blank_vectors (List.mem_map.mpr ⟨row, mem_rows.mpr (row_lt_of_vector hrow), rfl⟩) ?_
    rw [Option.isSome_map]
    exact get_accumulated_isSome hrow
  rcases mem_tabulate h with ⟨hkey, hvalue⟩ | h
  · obtain ⟨t, n, hcolumn, row, hrow⟩ := mem_scalarColumns.mp hkey
    rw [hvalue, ← hcolumn]
    refine not_blank_scalars (List.mem_map.mpr ⟨row, mem_rows.mpr (row_lt_of_scalar hrow), rfl⟩) ?_
    rw [Option.isSome_map]
    exact get_accumulated_isSome hrow
  · rw [List.mem_singleton.mp h, Column.isBlank, List.isEmpty_eq_false_iff]
    exact List.ne_nil_of_mem (List.mem_map.mpr ⟨0, w.zero_mem_rows, rfl⟩)

theorem preprocessData_frame : preprocessData N (w.frame N upper) = (w.frame N upper).map fun entry =>
    (entry.1, entry.2.imputed N) := by
  rw [preprocessData, List.filter_eq_self.mpr fun entry hentry => by rw [frame_not_blank hentry]; rfl]

theorem get_frame (column : String) :
    Dictionary.get column (preprocessData N (w.frame N upper)) = Option.map (Column.imputed N)
      (if column ∈ w.relationships.map fun r =>
        relationshipColumn upper r.relationshipType then some (w.relationshipData N upper column)
      else if column ∈ w.vectorColumns then some (w.vectorColumn N column)
      else if column ∈ w.scalarAccumulators.map fun entry => entry.1.1 then some (w.scalarColumn N column)
      else Dictionary.get column [("timestamp", .stamps (w.rows.map fun (row : Nat) => w.start + w.bucket * (row : Int)))]) := by
  rw [preprocessData_frame, get_map, frame, get_tabulate, get_tabulate, get_tabulate]

end ObservationWindow

end Frames

theorem forwardFill_length {β : Type} (last : Option β) (cells : List (Option β)) :
    (forwardFill last cells).length = cells.length := by
  induction cells generalizing last with
  | nil => rfl
  | cons cell cells ih =>
      cases cell with
      | none => rw [forwardFill, List.length_cons, List.length_cons, ih]
      | some v => rw [forwardFill, List.length_cons, List.length_cons, ih]

theorem mem_forwardFill {β : Type} {v : β} {last : Option β} {cells : List (Option β)} (h : some v ∈ forwardFill last cells) :
    some v = last ∨ some v ∈ cells := by
  induction cells generalizing last with
  | nil => cases h
  | cons cell cells ih =>
      cases cell with
      | none =>
          rcases List.mem_cons.mp h with h | h
          · exact .inl h
          · exact (ih h).imp id (List.mem_cons_of_mem _)
      | some u =>
          rcases List.mem_cons.mp h with h | h
          · exact .inr (h ▸ List.mem_cons_self)
          · rcases ih h with h | h
            · exact .inr (h ▸ List.mem_cons_self)
            · exact .inr (List.mem_cons_of_mem _ h)

theorem forwardFill_keeps {β : Type} {v : β} {last : Option β} {cells : List (Option β)} (h : some v ∈ cells) :
    some v ∈ forwardFill last cells := by
  induction cells generalizing last with
  | nil => cases h
  | cons cell cells ih =>
      cases cell with
      | none => exact List.mem_cons_of_mem _ (ih ((List.mem_cons.mp h).resolve_left (by simp)))
      | some u =>
          rcases List.mem_cons.mp h with h | h
          · exact h ▸ List.mem_cons_self
          · exact List.mem_cons_of_mem _ (ih h)

theorem fill_length {β : Type} (cells : List (Option β)) : (fill cells).length = cells.length := by
  rw [fill, List.length_reverse, forwardFill_length, List.length_reverse, forwardFill_length]

/-- Filling takes its values from the cells, and keeps them. -/
theorem mem_fill {β : Type} {v : β} {cells : List (Option β)} : some v ∈ fill cells ↔ some v ∈ cells := by
  rw [fill, List.mem_reverse]
  constructor
  · intro h
    have hmem := (mem_forwardFill h).resolve_left (by simp)
    exact (mem_forwardFill (List.mem_reverse.mp hmem)).resolve_left (by simp)
  · intro h
    exact forwardFill_keeps (List.mem_reverse.mpr (forwardFill_keeps h))

section Contents

variable {α : Type} {w : ObservationWindow α} {N : Numerics α} {upper : String → String}

namespace ObservationWindow

def Uniform (w : ObservationWindow α) : Prop := ∀ column ∈ w.vectorColumns, (w.dimensions column).dedup.length = 1

theorem prepare_eq_ok {prepared : PreparedObservationWindow α} (h : w.prepareObservationWindow N upper = .ok prepared) :
    w.Uniform ∧ prepared = ⟨w.frame N upper, w.vectorColumns, w.featureNodes.map fun entry =>
      (entry.1, sortedSet entry.2), w.bucket⟩ := by
  rw [prepareObservationWindow] at h
  split at h
  · cases h
  · next hnone =>
    refine ⟨fun column hcolumn => ?_, (Except.ok.inj h).symm⟩
    have := List.find?_eq_none.mp hnone column hcolumn
    simpa using this

theorem mem_dimensions {reading : (String × String × Nat) × List α} (h : reading ∈ w.vectorReadings) :
    reading.2.length ∈ w.dimensions (featureColumn reading.1.1 reading.1.2.1) := by
  have hrenamed : (columnKey reading.1, reading.2) ∈ w.vectorReadings.map fun reading => (columnKey reading.1, reading.2) :=
    List.mem_map.mpr ⟨reading, h, rfl⟩
  have hget := get_accumulate (columnKey reading.1) (w.vectorReadings.map fun reading => (columnKey reading.1, reading.2))
  rw [if_pos (List.mem_map.mpr ⟨_, hrenamed, rfl⟩)] at hget
  rw [dimensions, List.mem_flatMap]
  refine ⟨_, List.mem_filter.mpr ⟨Dictionary.mem_of_get hget, by simp [columnKey]⟩, List.mem_map.mpr ⟨reading.2, ?_, rfl⟩⟩
  exact List.mem_map.mpr ⟨_, List.mem_filter.mpr ⟨hrenamed, by simp⟩, rfl⟩

theorem eq_of_dedup_length_one {β : Type} [DecidableEq β] {values : List β} (h : values.dedup.length = 1) {a b : β}
    (ha : a ∈ values)
    (hb : b ∈ values) : a = b := by
  obtain ⟨c, hc⟩ := List.length_eq_one_iff.mp h
  have ha' := List.mem_dedup.mpr ha
  have hb' := List.mem_dedup.mpr hb
  rw [hc, List.mem_singleton] at ha' hb'
  rw [ha', hb']

theorem Uniform.length_eq (h : w.Uniform) {reading reading' : (String × String × Nat) × List α}
    (hreading : reading ∈ w.vectorReadings)
    (hreading' : reading' ∈ w.vectorReadings)
    (hcolumn : featureColumn reading.1.1 reading.1.2.1 = featureColumn reading'.1.1 reading'.1.2.1) :
    reading.2.length = reading'.2.length := by
  have hmem : featureColumn reading.1.1 reading.1.2.1 ∈ w.vectorColumns :=
    mem_vectorColumns.mpr ⟨_, _, rfl, reading.1.2.2, List.mem_map.mpr ⟨reading, hreading, rfl⟩⟩
  exact eq_of_dedup_length_one (h _ hmem) (mem_dimensions hreading) (hcolumn ▸ mem_dimensions hreading')

theorem reading_ne_nil {reading : (String × String × Nat) × List α} (h : reading ∈ w.vectorReadings) : reading.2 ≠ [] := by
  obtain ⟨o, -, hmem⟩ := List.mem_flatMap.mp h
  obtain ⟨entry, hentry, rfl⟩ := List.mem_map.mp hmem
  exact o.populated entry hentry

theorem Uniform.dimension_eq (h : w.Uniform) {observationType name : String} {row : Nat} {vector : List α}
    (hmem : ((observationType, name, row), vector) ∈ w.vectorReadings) : w.dimension observationType name = vector.length := by
  rw [dimension]
  generalize hfind : w.vectorReadings.find? _ = found
  cases found with
  | none =>
      have := List.find?_eq_none.mp hfind _ hmem
      simp at this
  | some reading =>
      have hkey := List.find?_some hfind
      simp only [decide_eq_true_eq] at hkey
      exact h.length_eq (List.mem_of_find?_eq_some hfind) hmem (by rw [hkey.1, hkey.2])

theorem Uniform.dimension_pos (h : w.Uniform) {observationType name : String} (hvector : w.HasVector observationType name) :
    0 < w.dimension observationType name := by
  obtain ⟨row, hrow⟩ := hvector
  obtain ⟨reading, hreading, heq⟩ := List.mem_map.mp hrow
  obtain ⟨key, vector⟩ := reading
  obtain rfl : key = (observationType, name, row) := heq
  rw [h.dimension_eq hreading]
  exact List.length_pos_iff.mpr (reading_ne_nil hreading)

theorem Uniform.has_first (h : w.Uniform) {observationType name : String} (hvector : w.HasVector observationType name) :
    w.Has (.component observationType name 0) := by
  refine ⟨hvector, ?_⟩
  have hpos := h.dimension_pos hvector
  rw [componentCount]
  omega

theorem meanVector_length (N : Numerics α) {vectors : List (List α)} {d : Nat} (hne : vectors ≠ [])
    (h : ∀ vector ∈ vectors, vector.length = d) : (meanVector N vectors).length = d := by
  cases vectors with
  | nil => exact absurd rfl hne
  | cons vector vectors => rw [meanVector, List.length_map, List.length_range, List.headD_cons, h vector List.mem_cons_self]

theorem mem_valuesAt {κ β : Type} [DecidableEq κ] {k : κ} {v : β} {entries : List (κ × β)} :
    v ∈ valuesAt k entries ↔ (k, v) ∈ entries := by
  rw [valuesAt, List.mem_map]
  constructor
  · rintro ⟨⟨j, u⟩, hmem, rfl⟩
    obtain ⟨hentry, hkey⟩ := List.mem_filter.mp hmem
    obtain rfl : j = k := by simpa using hkey
    exact hentry
  · intro h
    exact ⟨(k, v), List.mem_filter.mpr ⟨h, by simp⟩, rfl⟩

def vectorCells (w : ObservationWindow α) (N : Numerics α) (observationType name : String) : List (Option (List α)) :=
  fill (w.cells (meanVector N) fun row => valuesAt (observationType, name, row) w.vectorReadings)

theorem vectorCells_length (observationType name : String) : (w.vectorCells N observationType name).length = w.bucketCount := by
  rw [vectorCells, fill_length, cells, List.length_map, rows, List.length_range]

theorem Uniform.vectorCells_dimension (h : w.Uniform) {observationType name : String} {vector : List α}
    (hmem : some vector ∈ w.vectorCells N observationType name) : vector.length = w.dimension observationType name := by
  obtain ⟨row, -, hrow⟩ := List.mem_map.mp (mem_fill.mp hmem)
  split at hrow
  · cases hrow
  · next hne =>
    obtain rfl := Option.some.inj hrow
    refine meanVector_length N (by simpa using hne) fun v hv => ?_
    exact (h.dimension_eq (mem_valuesAt.mp hv)).symm

theorem vectorCells_some {observationType name : String} (hvector : w.HasVector observationType name) :
    ∃ vector, some vector ∈ w.vectorCells N observationType name := by
  obtain ⟨row, hrow⟩ := hvector
  have hne := valuesAt_ne_nil.mpr hrow
  refine ⟨meanVector N (valuesAt (observationType, name, row) w.vectorReadings), mem_fill.mpr ?_⟩
  exact List.mem_map.mpr ⟨row, mem_rows.mpr (row_lt_of_vector hrow), if_neg (by simpa using hne)⟩

section Own

variable (hdistinct : w.Distinct upper) (huniform : w.Uniform)

include hdistinct in
theorem frame_scalar {observationType name : String} (h : w.HasScalar observationType name) :
    Dictionary.get (featureColumn observationType name) (preprocessData N (w.frame N upper)) =
      some (w.own N (.scalar observationType name)) := by
  have hnotRelated : featureColumn observationType name ∉ w.relationships.map fun r =>
    relationshipColumn upper r.relationshipType := by
    intro hmem
    obtain ⟨r, hr, hcolumn⟩ := mem_relationshipColumns.mp hmem
    cases hdistinct.single (.relationship r) (.scalar observationType name) hr h hcolumn
  have hnotVector : featureColumn observationType name ∉ w.vectorColumns := by
    intro hmem
    obtain ⟨t, n, hcolumn, hvector⟩ := mem_vectorColumns.mp hmem
    exact hdistinct.unprojected t n hvector (.scalar observationType name) h hcolumn.symm
  have hkeys : ∀ key ∈ w.scalarReadings.map Prod.fst, featureColumn key.1 key.2.1 = featureColumn observationType name →
      key.1 = observationType ∧ key.2.1 = name := by
    rintro ⟨t, n, row⟩ hkey hcolumn
    cases hdistinct.single (.scalar t n) (.scalar observationType name) ⟨row, hkey⟩ h hcolumn
    exact ⟨rfl, rfl⟩
  rw [get_frame, if_neg hnotRelated, if_neg hnotVector, if_pos (mem_scalarColumns.mpr ⟨_, _, rfl, h⟩),
    Option.map_some, scalarColumn,
    Column.imputed, ObservationWindow.own, cells]
  simp only [scalarAccumulators, accumulated hkeys]

include hdistinct in
theorem frame_relationship {relationshipType : String} (h : w.Has (.relationship relationshipType)) :
    Dictionary.get (relationshipColumn upper relationshipType) (preprocessData N (w.frame N upper)) =
      some (w.own N (.relationship relationshipType)) := by
  rw [get_frame, if_pos (mem_relationshipColumns.mpr ⟨_, h, rfl⟩), Option.map_some, relationshipData, Column.imputed,
    ObservationWindow.own]
  have hsame : ∀ row, (w.relationships.countP fun r =>
        relationshipColumn upper r.relationshipType = relationshipColumn upper relationshipType ∧
          w.bucketIndex r.observedAt = row) =
      w.relationships.countP fun r => r.relationshipType = relationshipType ∧ w.bucketIndex r.observedAt = row := by
    intro row
    refine List.countP_congr fun r hr => ?_
    have hiff : relationshipColumn upper r.relationshipType = relationshipColumn upper relationshipType ↔
        r.relationshipType = relationshipType := by
      refine ⟨fun hcolumn => ?_, fun heq => by rw [heq]⟩
      cases hdistinct.single (.relationship r.relationshipType) (.relationship relationshipType) ⟨r, hr, rfl⟩ h hcolumn
      rfl
    simp only [hiff]
  simp only [hsame]

include hdistinct huniform in
theorem vector_single {observationType name observationType' name' : String} (h : w.HasVector observationType name)
    (h' : w.HasVector observationType' name')
    (hcolumn : featureColumn observationType name = featureColumn observationType' name') :
    observationType = observationType' ∧ name = name' := by
  have heq := hdistinct.single (.component observationType name 0) (.component observationType' name' 0) (huniform.has_first h)
    (huniform.has_first h') (by rw [Source.column, Source.column, hcolumn])
  cases heq
  exact ⟨rfl, rfl⟩

include hdistinct huniform in
theorem frame_vector {observationType name : String} (h : w.HasVector observationType name) :
    Dictionary.get (featureColumn observationType name) (preprocessData N (w.frame N upper)) =
      some (.vectors (w.vectorCells N observationType name)) := by
  have hnotRelated : featureColumn observationType name ∉ w.relationships.map fun r =>
    relationshipColumn upper r.relationshipType := by
    intro hmem
    obtain ⟨r, hr, hcolumn⟩ := mem_relationshipColumns.mp hmem
    exact hdistinct.unprojected observationType name h (.relationship r) hr hcolumn
  have hkeys : ∀ key ∈ w.vectorReadings.map Prod.fst, featureColumn key.1 key.2.1 = featureColumn observationType name →
      key.1 = observationType ∧ key.2.1 = name := by
    rintro ⟨t, n, row⟩ hkey hcolumn
    exact vector_single hdistinct huniform ⟨row, hkey⟩ h hcolumn
  rw [get_frame, if_neg hnotRelated, if_pos (mem_vectorColumns.mpr ⟨_, _, rfl, h⟩), Option.map_some, vectorColumn, Column.imputed,
    vectorCells, cells]
  simp only [vectorAccumulators, accumulated hkeys]

end Own

theorem componentColumn_injective (column : String) : Function.Injective (componentColumn column) := by
  intro i j h
  have hlists := congrArg String.toList h
  simp only [componentColumn, String.toList_append] at hlists
  exact Nat.repr_inj.mp (String.toList_inj.mp (List.append_cancel_left hlists))

theorem componentColumn_ne (column : String) (component : Nat) : componentColumn column component ≠ column := by
  intro h
  have hlength := congrArg String.length h
  simp only [componentColumn, String.length_append] at hlength
  have hpoint : ".pc".length = 3 := rfl
  omega

theorem projectColumn_eq_ok {column : String} {frame frame' : List (String × Column α)} {cells : List (Option (List α))}
    {first : List α} (hfirst : cells.findSome? id = some first) (h : projectColumn N column frame cells = .ok frame') :
    frame' = assignAll (componentColumn column) (componentData N first.length (cells.filterMap id))
      (List.range (componentCount first.length cells.length)) (Dictionary.drop column frame) := by
  rw [projectColumn, hfirst] at h
  dsimp only at h
  split at h
  · exact (Except.ok.inj h).symm
  · cases h

section Expansion

variable (hdistinct : w.Distinct upper) (huniform : w.Uniform)

structure Expanding (w : ObservationWindow α) (N : Numerics α) (upper : String → String) (todo : List String)
    (frame : List (String × Column α)) : Prop where
  sourced : ∀ s, w.Has s → (∀ t n i, s = .component t n i → featureColumn t n ∉ todo) →
    Dictionary.get (s.column upper) frame = some (w.own N s)
  waiting : ∀ t n, w.HasVector t n → featureColumn t n ∈ todo →
    Dictionary.get (featureColumn t n) frame = some (.vectors (w.vectorCells N t n))
  named : ∀ entry ∈ frame, entry.1 = "timestamp" ∨ (∃ s, w.Has s ∧ s.column upper = entry.1) ∨ entry.1 ∈ todo

include hdistinct huniform in
theorem expanding_start : Expanding w N upper w.vectorColumns (preprocessData N (w.frame N upper)) := by
  refine ⟨fun s hs hdone => ?_, fun t n hvector _ => frame_vector hdistinct huniform hvector, fun entry hentry => ?_⟩
  · cases s with
    | scalar t n => exact frame_scalar hdistinct hs
    | component t n i => exact absurd (mem_vectorColumns.mpr ⟨t, n, rfl, hs.1⟩) (hdone t n i rfl)
    | relationship r => exact frame_relationship hdistinct hs
  · rw [preprocessData_frame] at hentry
    obtain ⟨old, hold, rfl⟩ := List.mem_map.mp hentry
    rcases mem_tabulate hold with ⟨hkey, -⟩ | hold
    · obtain ⟨r, hr, hcolumn⟩ := mem_relationshipColumns.mp hkey
      exact .inr (.inl ⟨.relationship r, hr, hcolumn⟩)
    rcases mem_tabulate hold with ⟨hkey, -⟩ | hold
    · exact .inr (.inr hkey)
    rcases mem_tabulate hold with ⟨hkey, -⟩ | hold
    · obtain ⟨t, n, hcolumn, hscalar⟩ := mem_scalarColumns.mp hkey
      exact .inr (.inl ⟨.scalar t n, hscalar, hcolumn⟩)
    · exact .inl (by rw [List.mem_singleton.mp hold])

include hdistinct huniform in
theorem Expanding.step {t n : String} (hvector : w.HasVector t n) {rest : List String} {frame frame' : List (String × Column α)}
    (hnew : featureColumn t n ∉ rest) (h : Expanding w N upper (featureColumn t n :: rest) frame)
    (hok : expandColumn N frame (featureColumn t n) = .ok frame') : Expanding w N upper rest frame' := by
  rw [expandColumn, h.waiting t n hvector List.mem_cons_self] at hok
  dsimp only at hok
  -- The filled column has a vector, and all its vectors have the embedding's dimension.
  obtain ⟨first, hfirst⟩ : ∃ first, (w.vectorCells N t n).findSome? id = some first := by
    obtain ⟨vector, hmem⟩ := @vectorCells_some α w N t n hvector
    cases hfind : (w.vectorCells N t n).findSome? id with
    | none => exact absurd (List.findSome?_eq_none_iff.mp hfind _ hmem) (by simp)
    | some first => exact ⟨first, rfl⟩
  have hdimension : first.length = w.dimension t n := by
    obtain ⟨cell, hcell, heq⟩ := List.exists_of_findSome?_eq_some hfirst
    obtain rfl : cell = some first := heq
    exact huniform.vectorCells_dimension hcell
  have hframe := projectColumn_eq_ok hfirst hok
  rw [hdimension, vectorCells_length] at hframe
  have hcomponent : ∀ i ∈ List.range (componentCount (w.dimension t n) w.bucketCount), w.Has (.component t n i) :=
    fun i hi => ⟨hvector, List.mem_range.mp hi⟩
  have hkept : ∀ column, (∀ i ∈ List.range (componentCount (w.dimension t n) w.bucketCount),
      componentColumn (featureColumn t n) i ≠ column) → column ≠ featureColumn t n →
      Dictionary.get column frame' = Dictionary.get column frame := by
    intro column hnames hne
    rw [hframe, get_assignAll_of_ne hnames, Dictionary.get_drop, if_neg hne]
  constructor
  · intro s hs hdone
    by_cases hown : ∃ i, s = .component t n i
    · obtain ⟨i, rfl⟩ := hown
      rw [hframe, Source.column, get_assignAll (componentColumn_injective _) (List.mem_range.mpr hs.2)]
      rfl
    · rw [hkept]
      · refine h.sourced s hs fun t' n' i heq hmem => ?_
        rcases List.mem_cons.mp hmem with hcolumn | hrest
        · subst heq
          obtain ⟨rfl, rfl⟩ := vector_single hdistinct huniform hs.1 hvector hcolumn
          exact hown ⟨i, rfl⟩
        · exact hdone t' n' i heq hrest
      · intro i hi hcolumn
        exact hown ⟨i, (hdistinct.single (.component t n i) s (hcomponent i hi) hs hcolumn).symm⟩
      · exact hdistinct.unprojected t n hvector s hs
  · intro t' n' hvector' hmem
    rw [hkept]
    · exact h.waiting t' n' hvector' (List.mem_cons_of_mem _ hmem)
    · intro i hi
      exact hdistinct.unprojected t' n' hvector' (.component t n i) (hcomponent i hi)
    · rintro heq
      exact hnew (heq ▸ hmem)
  · intro entry hentry
    rw [hframe] at hentry
    rcases mem_assignAll hentry with ⟨i, hi, rfl⟩ | hold
    · exact .inr (.inl ⟨.component t n i, hcomponent i hi, rfl⟩)
    · obtain ⟨hold, hne⟩ := mem_drop.mp hold
      refine (h.named entry hold).imp id (Or.imp id fun hmem => ?_)
      exact (List.mem_cons.mp hmem).resolve_left hne

include hdistinct huniform in
theorem Expanding.finish {todo : List String} {frame frame' : List (String × Column α)} (hnodup : todo.Nodup)
    (hvectors : ∀ column ∈ todo, column ∈ w.vectorColumns) (h : Expanding w N upper todo frame)
    (hok : expandEmbeddings N frame todo = .ok frame') : Expanding w N upper [] frame' := by
  induction todo generalizing frame with
  | nil =>
      cases hok
      exact h
  | cons column rest ih =>
      rw [expandEmbeddings, List.foldlM_cons] at hok
      cases hstep : expandColumn N frame column with
      | error e =>
          rw [hstep] at hok
          cases hok
      | ok next =>
          rw [hstep] at hok
          obtain ⟨hnew, hrest⟩ := List.nodup_cons.mp hnodup
          obtain ⟨t, n, rfl, hvector⟩ := mem_vectorColumns.mp (hvectors column List.mem_cons_self)
          exact ih hrest (fun c hc => hvectors c (List.mem_cons_of_mem _ hc)) (h.step hdistinct huniform hvector hnew hstep) hok

end Expansion

theorem sortedSet_nodup (texts : List String) : (sortedSet texts).Nodup :=
  (List.mergeSort_perm _ _).nodup_iff.mpr (List.nodup_dedup texts)

theorem sortedSet_pairwise (texts : List String) : (sortedSet texts).Pairwise (· ≤ ·) :=
  List.pairwise_mergeSort' (· ≤ ·) texts.dedup

theorem le_componentColumn (column : String) (component : Nat) : column ≤ componentColumn column component := by
  rw [componentColumn, String.append_assoc, ← not_lt, String.lt_iff_toList_lt, String.toList_append]
  exact List.not_lt.mpr List.le_append_left

theorem expandColumn_removed {column other : String} {frame frame' : List (String × Column α)}
    (hnames : ∀ component, componentColumn column component ≠ other)
    (h : expandColumn N frame column = .ok frame') (hremoved : other = column ∨ Dictionary.get other frame = none) :
    Dictionary.get other frame' = none := by
  have hdropped : Dictionary.get other (Dictionary.drop column frame) = none := by
    rw [Dictionary.get_drop]
    split
    · rfl
    · next hne => exact hremoved.resolve_left hne
  rw [expandColumn] at h
  split at h
  · next hget =>
    obtain rfl := Except.ok.inj h
    rcases hremoved with rfl | hnone
    · exact hget
    · exact hnone
  · next cells _ =>
    cases hfirst : cells.findSome? id with
    | none =>
        rw [projectColumn, hfirst] at h
        obtain rfl := Except.ok.inj h
        exact hdropped
    | some first =>
        rw [projectColumn_eq_ok hfirst h, get_assignAll_of_ne fun i _ => hnames i]
        exact hdropped
  · obtain rfl := Except.ok.inj h
    exact hdropped
  · obtain rfl := Except.ok.inj h
    exact hdropped

/-- Columns of embeddings are projected in their order, so a column that was
projected stays away. -/
theorem expandEmbeddings_removed {todo : List String} {other : String} {frame frame' : List (String × Column α)}
    (hsorted : todo.Pairwise (· ≤ ·)) (hok : expandEmbeddings N frame todo = .ok frame')
    (hremoved : other ∈ todo ∨ (Dictionary.get other frame = none ∧ ∀ column ∈ todo, other ≤ column)) :
    Dictionary.get other frame' = none := by
  induction todo generalizing frame with
  | nil =>
      obtain rfl := Except.ok.inj hok
      exact (hremoved.resolve_left List.not_mem_nil).1
  | cons column rest ih =>
      rw [expandEmbeddings, List.foldlM_cons] at hok
      obtain ⟨hleast, hrest⟩ := List.pairwise_cons.mp hsorted
      cases hstep : expandColumn N frame column with
      | error e =>
          rw [hstep] at hok
          cases hok
      | ok next =>
          rw [hstep] at hok
          refine ih hrest hok ?_
          by_cases hmem : other ∈ rest
          · exact .inl hmem
          have hle : other ≤ column := by
            rcases hremoved with hmem' | ⟨-, hle⟩
            · exact ((List.mem_cons.mp hmem').resolve_right hmem).le
            · exact hle column List.mem_cons_self
          have hnames : ∀ component, componentColumn column component ≠ other := by
            rintro component rfl
            exact componentColumn_ne column component (le_antisymm hle (le_componentColumn column component))
          refine .inr ⟨expandColumn_removed hnames hstep ?_, fun c hc => hle.trans (hleast c hc)⟩
          rcases hremoved with hmem' | ⟨hnone, -⟩
          · exact .inl ((List.mem_cons.mp hmem').resolve_right hmem)
          · exact .inr hnone

section Evidence

variable {prepared : PreparedObservationWindow α} {frame : List (String × Column α)}

/-- The columns of features stem from one source each just when the texts of
sources and embeddings are distinct. -/
theorem evident_iff (hprepared : w.prepareObservationWindow N upper = .ok prepared) (hfeatures : features N prepared = .ok frame) :
    w.Evident N upper frame ↔ w.Distinct upper := by
  obtain ⟨huniform, rfl⟩ := prepare_eq_ok hprepared
  constructor
  · intro h
    refine ⟨h.single, fun t n hvector s hs hcolumn => ?_⟩
    have hown := h.own s hs
    rw [hcolumn, expandEmbeddings_removed (sortedSet_pairwise _) hfeatures
      (.inl (mem_vectorColumns.mpr ⟨t, n, rfl, hvector⟩))] at hown
    cases hown
  · intro h
    have hfinished := (expanding_start h huniform).finish h huniform (sortedSet_nodup _) (fun _ hc => hc) hfeatures
    refine ⟨fun entry hentry => ?_, h.single, fun s hs => hfinished.sourced s hs fun _ _ _ _ => List.not_mem_nil⟩
    exact (hfinished.named entry hentry).imp id fun hmem => hmem.resolve_right List.not_mem_nil

theorem get_featureNodes (observationType : String) :
    (Dictionary.get observationType (w.featureNodes.map fun entry => (entry.1, sortedSet entry.2))).getD
    [] = w.nodesOf observationType := by
  have hvalues : valuesAt observationType (w.observations.map fun o => (o.observationType, o.graphNodeId)) =
      (w.observations.filter fun o => o.observationType = observationType).map fun o => o.graphNodeId := by
    simp [valuesAt, List.filter_map, Function.comp_def]
  rw [get_map, featureNodes, get_accumulate, nodesOf, ← hvalues]
  split
  · rfl
  · next hnot =>
    rw [Classical.not_not.mp fun hne => hnot (valuesAt_ne_nil.mp hne)]
    simp [sortedSet]

theorem featureFamily_append (observationType rest : String) :
    featureFamily (observationType ++ "." ++ rest) = featureFamily observationType := by
  have htake : ∀ cs : List Char, (cs ++ '.' :: rest.toList).takeWhile (fun c => c != '.') = cs.takeWhile fun c => c != '.' := by
    intro cs
    induction cs with
    | nil => rfl
    | cons c cs ih =>
        rw [List.cons_append, List.takeWhile_cons, List.takeWhile_cons, ih]
  have hlist : (observationType ++ "." ++ rest).toList = observationType.toList ++ '.' :: rest.toList := by
    simp [String.toList_append]
  rw [featureFamily, featureFamily, hlist, htake]

theorem featureFamily_feature {s : Source} {observationType : String}
    (hs : (∃ name, s = .scalar observationType name) ∨ ∃ name index, s = .component observationType name index) :
    featureFamily (s.column upper) = featureFamily observationType := by
  rcases hs with ⟨name, rfl⟩ | ⟨name, index, rfl⟩
  · exact featureFamily_append observationType name
  · rw [Source.column, componentColumn, featureColumn, String.append_assoc, String.append_assoc]
    exact featureFamily_append observationType (name ++ (".pc" ++ Nat.repr index))

/-- Links have the nodes of the types of their features just when types that
begin alike have the same nodes. -/
theorem traced_iff (huniform : w.Uniform) :
    w.Traced upper (w.featureNodes.map fun entry => (entry.1, sortedSet entry.2)) ↔ w.FamiliesKept := by
  constructor
  · intro h observationType name hsource
    have hobserved : ∃ feature, w.Observed upper feature observationType := by
      rcases hsource with hscalar | hvector
      · exact ⟨_, .scalar observationType name, hscalar, rfl, .inl ⟨name, rfl⟩⟩
      · exact ⟨_, .component observationType name 0, huniform.has_first hvector, rfl, .inr ⟨name, 0, rfl⟩⟩
    obtain ⟨feature, hfeature⟩ := hobserved
    have hlink : (Dictionary.get (featureFamily feature) (w.featureNodes.map fun entry => (entry.1, sortedSet entry.2))).getD [] =
        w.nodesOf observationType :=
      (h [(feature, feature, 0)] _ List.mem_cons_self observationType observationType hfeature hfeature).1
    obtain ⟨s, -, rfl, hs⟩ := hfeature
    rw [get_featureNodes, featureFamily_feature hs] at hlink
    exact hlink
  · intro h edges link hlink sourceType targetType hsource htarget
    have hnodes : ∀ {feature observationType}, w.Observed upper feature observationType →
        (Dictionary.get (featureFamily feature) (w.featureNodes.map fun entry => (entry.1, sortedSet entry.2))).getD [] =
          w.nodesOf observationType := by
      rintro _ observationType ⟨s, hhas, rfl, hs⟩
      rw [get_featureNodes, featureFamily_feature hs]
      rcases hs with ⟨name, rfl⟩ | ⟨name, index, rfl⟩
      · exact h observationType name (.inl hhas)
      · exact h observationType name (.inr hhas.1)
    obtain ⟨edge, -, rfl⟩ := List.mem_map.mp hlink
    exact ⟨hnodes hsource, hnodes htarget⟩

end Evidence

end ObservationWindow

end Contents

section Evidence

open ObservationWindow

variable {α : Type}

/-- Causal links name their evidence just as far as the texts of its types and
names keep it apart. -/
theorem evidence_named_iff (w : ObservationWindow α) (N : Numerics α) (upper : String → String)
    (prepared : PreparedObservationWindow α)
    (frame : List (String × Column α)) (hprepared : w.prepareObservationWindow N upper = .ok prepared)
    (hfeatures : features N prepared = .ok frame) :
    (w.Evident N upper frame ↔ w.Distinct upper) ∧ (w.Traced upper prepared.featureNodeIds ↔ w.FamiliesKept) := by
  obtain ⟨huniform, hwindow⟩ := prepare_eq_ok hprepared
  refine ⟨evident_iff hprepared hfeatures, ?_⟩
  rw [hwindow]
  exact traced_iff huniform

def integers : Numerics Int where
  mean values := values.sum / values.length
  count := Int.ofNat
  interpolate := fill
  principal _ _ _ := []

def scored (observationType score embedding : String) : ObservationWindow Int where
  start := 0
  stop := 1000000
  bucket := 2000000
  observations := [⟨"n1", 0, observationType, [(score, 3)], [(embedding, [5])], by simp⟩]
  relationships := []
  stop_after := by decide
  bucket_pos := by decide
  observed_inside := by simp
  related_inside := by simp

theorem scored_columns (observationType score embedding : String) :
    (scored observationType score embedding).vectorColumns = [featureColumn observationType embedding] := by
  simp [vectorColumns, vectorAccumulators, vectorReadings, scored, accumulate, columnKey, sortedSet, Dictionary.assign]

theorem scored_prepared (observationType score embedding : String) :
    (scored observationType score embedding).prepareObservationWindow integers id =
      .ok ⟨(scored observationType score embedding).frame integers id, [featureColumn observationType embedding],
        [(observationType, ["n1"])], 2000000⟩ := by
  have hdimensions : (scored observationType score embedding).dimensions (featureColumn observationType embedding) = [1] := by
    simp [dimensions, vectorAccumulators, vectorReadings, scored, accumulate, columnKey, Dictionary.assign, Dictionary.get]
  have hnodes : (scored observationType score embedding).featureNodes = [(observationType, ["n1"])] := by
    simp [featureNodes, scored, accumulate, Dictionary.assign, Dictionary.get]
  simp [prepareObservationWindow, scored_columns, hdimensions, hnodes, sortedSet]
  rfl

theorem scored_features (observationType score embedding : String) (nodes : List (String × List String)) :
    ∃ frame, features integers ⟨(scored observationType score embedding).frame integers id,
      [featureColumn observationType embedding],
        nodes, 2000000⟩ = .ok frame := by
  have hget : Dictionary.get (featureColumn observationType embedding)
      (preprocessData integers ((scored observationType score embedding).frame integers id)) = some (.vectors [some [5]]) := by
    rw [get_frame, scored_columns]
    simp [scored, vectorColumn, Column.imputed, rows, bucketCount, bucketIndex, vectorAccumulators, vectorReadings, accumulate,
      columnKey, Dictionary.assign, Dictionary.get]
    rfl
  simp [features, expandEmbeddings, expandColumn, hget, projectColumn]

theorem evidence_named_camera :
    let w := scored "camera" "brightness" "pose"
    ∃ prepared frame, w.prepareObservationWindow integers id = .ok prepared ∧ features integers prepared = .ok frame ∧
      (w.Evident integers id frame ↔ w.Distinct id) ∧ (w.Traced id prepared.featureNodeIds ↔ w.FamiliesKept) := by
  have hprepared := scored_prepared "camera" "brightness" "pose"
  obtain ⟨frame, hfeatures⟩ := scored_features "camera" "brightness" "pose" [("camera", ["n1"])]
  exact ⟨_, frame, hprepared, hfeatures, evidence_named_iff _ _ _ _ _ hprepared hfeatures⟩

/-- An embedding is called as a score, and its type is not the family. -/
theorem evidence_misnamed :
    let w := scored "person.face" "score" "score"
    ∃ prepared frame, w.prepareObservationWindow integers id = .ok prepared ∧ features integers prepared = .ok frame ∧
      ¬w.Evident integers id frame ∧ ¬w.Traced id prepared.featureNodeIds := by
  intro w
  have hprepared := scored_prepared "person.face" "score" "score"
  obtain ⟨frame, hfeatures⟩ := scored_features "person.face" "score" "score" [("person.face", ["n1"])]
  have hscalar : w.HasScalar "person.face" "score" := ⟨0, by decide⟩
  have hvector : w.HasVector "person.face" "score" := ⟨0, by decide⟩
  refine ⟨_, frame, hprepared, hfeatures, ?_, ?_⟩
  · rw [evident_iff hprepared hfeatures]
    intro hdistinct
    exact hdistinct.unprojected _ _ hvector (.scalar "person.face" "score") hscalar rfl
  · obtain ⟨huniform, hwindow⟩ := prepare_eq_ok hprepared
    rw [hwindow, traced_iff huniform]
    intro hkept
    have hnodes := hkept "person.face" "score" (.inl hscalar)
    have hfamily : featureFamily "person.face" = "person" := by decide
    rw [hfamily] at hnodes
    simp [nodesOf, sortedSet, scored] at hnodes

end Evidence

end Galadril.Amarth
