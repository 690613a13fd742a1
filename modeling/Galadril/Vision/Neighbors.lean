import Galadril.Lib.Checked
import Galadril.Lib.Levels
import Galadril.Lib.Text

namespace Galadril.Vision

open Lib Lib.Checked Lib.Levels Lib.Text

inductive GraphNodeKind
  | entity
  | event
  | state
  | latentIdentity
  | inference
  | decision
  | causalVariable
  | metric
  deriving DecidableEq

def GraphNodeKind.value : GraphNodeKind → String
  | .entity => "Entity"
  | .event => "Event"
  | .state => "State"
  | .latentIdentity => "LatentIdentity"
  | .inference => "Inference"
  | .decision => "Decision"
  | .causalVariable => "CausalVariable"
  | .metric => "Metric"

def sameKinds : List (GraphNodeKind × GraphNodeKind) :=
  [.event, .state, .inference, .decision, .latentIdentity].map fun kind => (kind, kind)

open GraphNodeKind in
def relationEndpoints : List (String × List (GraphNodeKind × GraphNodeKind)) :=
  [("TRIGGERS", [(state, event)]),
   ("LEADS_TO", [(event, state)]),
   ("EVOLUTION", [(state, state)]),
   ("CONTAIN", [(event, event)]),
   ("OCCUR", [(event, entity)]),
   ("INFLUENCE", [(event, entity)]),
   ("HAS_INFERENCE", [(event, inference)]),
   ("CONSIDERED_CANDIDATE", [(inference, entity), (inference, latentIdentity)]),
   ("HAS_DECISION", [(inference, decision)]),
   ("SELECTED_TARGET", [(decision, entity), (decision, latentIdentity)]),
   ("PROMOTED_AS", [(latentIdentity, entity)]),
   ("MERGED_WITH", [(latentIdentity, latentIdentity)]),
   ("STATE_OF", [(state, entity)]),
   ("CAUSES", [(causalVariable, causalVariable)]),
   ("METRIC_INFLUENCE", [(metric, metric)]),
   ("APPEARS_IN", [(entity, event)]),
   ("PARTICIPATED_IN", [(entity, event)]),
   ("DERIVED_FROM", [(entity, event)]),
   ("OBSERVED", [(entity, event)]),
   ("MENTIONS", [(event, entity)]),
   ("DESCRIBES", [(event, entity)]),
   ("SUPERSEDES", sameKinds),
   ("REVOKES", sameKinds)]

def permittedRelations (values : List String) : Except String (List String) := do
  ensure (values.all fun value => (relationEndpoints.lookup value).isSome) "graph_contract: unsupported structural graph relation"
  return values.dedup

def tenantCharacter (c : Char) : Bool := c.isAlphanum || c == '_' || c == '.' || c == ':' || c == '-'

def tenantPattern : List Char → Bool
  | [] => false
  | c :: rest => c.isAlphanum && rest.all tenantCharacter && rest.length ≤ 127

def bareTenant (tenantId : String) : String :=
  match stripStart "tenant:".toList tenantId.toList with
  | none => tenantId
  | some rest => PythonText.strip (String.ofList rest)

def normalizeTenantId (value : String) : Except String String := do
  let tenantId := bareTenant (PythonText.strip value)
  ensure (tenantId ≠ "") "tenant_id is required"
  ensure (tenantId.length ≤ 128) "tenant_id exceeds maximum length"
  ensure (tenantPattern tenantId.toList) "tenant_id contains unsupported characters"
  return tenantId

structure Vertex where
  id : String
  tenantId : String
  label : String
  deriving DecidableEq

structure Edge where
  source : Vertex
  target : Vertex
  label : String
  tenantId : String
  deriving DecidableEq

def Edge.contract (e : Edge) : Bool :=
  relationEndpoints.any fun relation => e.label == relation.1 &&
    relation.2.any fun pair => e.source.label == pair.1.value && e.target.label == pair.2.value

def Edge.permitted (tenantId : String) (relations : List String) (e : Edge) : Bool :=
  e.source.tenantId == tenantId && e.target.tenantId == tenantId && e.tenantId == tenantId &&
    relations.contains e.label && e.contract

def Edge.joins (e : Edge) (a b : String) : Prop := e.source.id = a ∧ e.target.id = b ∨ e.source.id = b ∧ e.target.id = a

instance (e : Edge) (a b : String) : Decidable (e.joins a b) := inferInstanceAs (Decidable (_ ∨ _))

def neighborhood (edges : List Edge) (tenantId : String) (relations : List String) : SimpleGraph String where
  Adj a b := a ≠ b ∧ ∃ e ∈ edges, e.permitted tenantId relations ∧ e.joins a b
  symm := ⟨fun _ _ ⟨hne, e, hmem, hpermitted, hjoins⟩ => ⟨hne.symm, e, hmem, hpermitted, hjoins.symm⟩⟩
  loopless := ⟨fun _ h => h.1 rfl⟩

def Matches (edges : List Edge) (tenantId : String) (relations frontier visited : List String) (id : String) : Prop :=
  (∃ a ∈ frontier, ∃ e ∈ edges, e.permitted tenantId relations ∧ e.joins a id) ∧ id ∉ visited

/-- Distinct matches, as many as the limit or else all of them, in any order,
each as the text of its value. -/
def Answers (agtype : String → String) (edges : List Edge) (tenantId : String) (relations frontier visited : List String)
    (limit : Nat) (rows : List (Option String)) : Prop :=
  ∃ ids : List String, ids.Nodup ∧ (∀ id ∈ ids, Matches edges tenantId relations frontier visited id) ∧ ids.length ≤ limit ∧
    (ids.length = limit ∨ ∀ id, Matches edges tenantId relations frontier visited id → id ∈ ids) ∧
    rows = ids.map fun id => some (agtype id)

structure Search where
  visited : List String
  frontier : List String
  out : List String

def quotationMark : Char := Char.ofNat 34

def unquoted (text : String) : String := String.ofList (trimBy (· = quotationMark) text.toList)

/-- The rows of one level: what is new goes to the next frontier, and to the
result from the least depth on, until the level is full. -/
def collect (maxVertices : Nat) (listed : Bool) : List (Option String) → Search → Search
  | [], s => s
  | none :: rows, s => collect maxVertices listed rows s
  | some text :: rows, s =>
      let nodeId := unquoted text
      if nodeId = "" ∨ nodeId ∈ s.visited then collect maxVertices listed rows s
      else
        let s' : Search := ⟨s.visited ++ [nodeId], s.frontier ++ [nodeId], if listed then s.out ++ [nodeId] else s.out⟩
        if maxVertices ≤ s'.frontier.length then s' else collect maxVertices listed rows s'

variable (answer : Nat → List String → List String → List (Option String))

def hops (kMin maxVertices : Nat) : Nat → Nat → Search → Search
  | 0, _, s => s
  | remaining + 1, depth, s =>
      if s.frontier = [] ∨ maxVertices ≤ s.out.length then s
      else hops kMin maxVertices remaining (depth + 1)
        (collect maxVertices (kMin ≤ depth) (answer depth s.frontier s.visited) { s with frontier := [] })

/-- The answer of the database to the query at a depth, with its frontier and
what was seen, is a parameter. -/
def getEntityKHopNeighbors (answer : String → List String → Nat → List String → List String → List (Option String))
    (entityId : String) (kMin kMax maxVertices : Int) (relationshipTypes : List String) (tenantId : String) :
    Except String (List String) :=
  if relationshipTypes = [] then .ok []
  else do
    let permitted ← permittedRelations relationshipTypes
    ensure (1 ≤ kMin ∧ kMin ≤ kMax ∧ 1 ≤ maxVertices) "get_entity_k_hop_neighbors: invalid traversal bounds"
    let tenant ← normalizeTenantId tenantId
    return (hops (answer tenant permitted) kMin.toNat maxVertices.toNat kMax.toNat 1 ⟨[entityId], [entityId], []⟩).out

variable {agtype : String → String}

/-- A vertex whose id comes back from the database as it is. -/
def Plain (agtype : String → String) (id : String) : Prop := id ≠ "" ∧ unquoted (agtype id) = id

/-- New rows that fit into a level are all taken. -/
theorem collect_new {maxVertices : Nat} {listed : Bool} {ids : List String} {s : Search} (hnodup : ids.Nodup)
    (hplain : ∀ id ∈ ids, Plain agtype id) (hnew : ∀ id ∈ ids, id ∉ s.visited)
    (hfits : s.frontier.length + ids.length ≤ maxVertices) :
    collect maxVertices listed (ids.map fun id => some (agtype id)) s =
      ⟨s.visited ++ ids, s.frontier ++ ids, if listed then s.out ++ ids else s.out⟩ := by
  induction ids generalizing s with
  | nil => cases listed <;> simp [collect]
  | cons id ids ih =>
      obtain ⟨hfirst, hnodup⟩ := List.nodup_cons.mp hnodup
      obtain ⟨hid, htext⟩ := hplain id List.mem_cons_self
      have hfresh : ¬ (id = "" ∨ id ∈ s.visited) := not_or.mpr ⟨hid, hnew id List.mem_cons_self⟩
      rw [List.length_cons] at hfits
      rw [List.map_cons, collect, htext, if_neg hfresh]
      simp only [List.length_append, List.length_singleton]
      split
      next hfull =>
        obtain rfl : ids = [] := List.eq_nil_of_length_eq_zero (by omega)
        rfl
      next hroom =>
        rw [ih hnodup (fun other hmem => hplain other (List.mem_cons_of_mem _ hmem)) ?_ ?_]
        · cases listed <;> simp
        · intro other hmem hin
          rcases List.mem_append.mp hin with hin | hin
          · exact hnew other (List.mem_cons_of_mem _ hmem) hin
          · exact hfirst (List.mem_singleton.mp hin ▸ hmem)
        · rw [List.length_append, List.length_singleton]
          omega

theorem hops_stop {answer : Nat → List String → List String → List (Option String)} {kMin maxVertices remaining depth : Nat}
    {s : Search} (h : s.frontier = [] ∨ maxVertices ≤ s.out.length) : hops answer kMin maxVertices remaining depth s = s := by
  cases remaining with
  | zero => rfl
  | succ remaining => rw [hops, if_pos h]

variable {edges : List Edge} {tenant : String} {relations : List String} {start : String}

theorem level_finite (d : Nat) : (level (neighborhood edges tenant relations) start d).Finite := by
  cases d with
  | zero =>
      have hset : level (neighborhood edges tenant relations) start 0 = {start} := Set.ext fun v => mem_level_zero
      rw [hset]
      exact Set.finite_singleton start
  | succ d =>
      refine Set.Finite.subset (List.finite_toSet (edges.flatMap fun e => [e.source.id, e.target.id])) ?_
      intro v hv
      obtain ⟨u, -, -, e, hmem, -, hjoins⟩ := exists_adj_of_level hv
      refine List.mem_flatMap.mpr ⟨e, hmem, ?_⟩
      rcases hjoins with ⟨-, rfl⟩ | ⟨rfl, -⟩ <;> simp

def wanted (G : SimpleGraph String) (start : String) (kMin kMax : Nat) : Set String :=
  {v | (kMin : ℕ∞) ≤ G.edist start v ∧ G.edist start v ≤ kMax}

theorem mem_wanted {G : SimpleGraph String} {kMin kMax : Nat} {v : String} :
    v ∈ wanted G start kMin kMax ↔ ∃ d, kMin ≤ d ∧ d ≤ kMax ∧ v ∈ level G start d := by
  constructor
  · rintro ⟨hmin, hmax⟩
    obtain ⟨d, hd⟩ := ENat.ne_top_iff_exists.mp (ne_top_of_le_ne_top (ENat.natCast_ne_top kMax) hmax)
    rw [← hd] at hmin hmax
    exact ⟨d, by exact_mod_cast hmin, by exact_mod_cast hmax, hd.symm⟩
  · rintro ⟨d, hmin, hmax, hd⟩
    rw [mem_level] at hd
    exact ⟨by rw [hd]; exact_mod_cast hmin, by rw [hd]; exact_mod_cast hmax⟩

theorem wanted_finite (kMin kMax : Nat) : (wanted (neighborhood edges tenant relations) start kMin kMax).Finite := by
  have hlevels : (⋃ d ∈ Set.Icc kMin kMax, level (neighborhood edges tenant relations) start d).Finite :=
    Set.Finite.biUnion (Set.finite_Icc kMin kMax) fun d _ => level_finite d
  refine hlevels.subset ?_
  intro v hv
  obtain ⟨d, hmin, hmax, hd⟩ := mem_wanted.mp hv
  exact Set.mem_biUnion (Set.mem_Icc.mpr ⟨hmin, hmax⟩) hd

structure Correct (G : SimpleGraph String) (start : String) (kMin kMax maxVertices : Nat) (out : List String) : Prop where
  bounded : out.length ≤ maxVertices
  nodup : out.Nodup
  fresh : start ∉ out
  distance : ∀ v ∈ out, v ∈ wanted G start kMin kMax
  complete : (∀ d, 1 ≤ d → d ≤ kMax → (level G start d).ncard ≤ maxVertices) → (wanted G start kMin kMax).ncard ≤ maxVertices →
    ∀ v ∈ wanted G start kMin kMax, v ∈ out

def Spacious (G : SimpleGraph String) (start : String) (kMin maxVertices : Nat) : Prop :=
  ∀ d, 1 ≤ d → d < kMin → (level G start d).ncard ≤ maxVertices

/-- The levels from the least depth on reach the cap exactly before they could
pass it, the first of them apart. -/
def Fitting (G : SimpleGraph String) (start : String) (kMin kMax maxVertices : Nat) : Prop :=
  ∀ d, kMin < d → d ≤ kMax → between G start kMin d < maxVertices →
    between G start kMin d + (level G start d).ncard ≤ maxVertices

/-- The ids of the levels that are walked, those before which the cap is not
met, come back as they are. -/
def PlainLevels (agtype : String → String) (G : SimpleGraph String) (start : String) (kMin kMax maxVertices : Nat) : Prop :=
  ∀ d, 1 ≤ d → d ≤ kMax → between G start kMin d < maxVertices → ∀ v ∈ level G start d, Plain agtype v

structure Exact (G : SimpleGraph String) (start : String) (kMin d : Nat) (s : Search) : Prop where
  visited : ∀ v, v ∈ s.visited ↔ G.edist start v ≤ d
  frontier : ∀ v, v ∈ s.frontier ↔ v ∈ level G start d
  frontierNodup : s.frontier.Nodup
  out : ∀ v, v ∈ s.out ↔ v ∈ wanted G start kMin d
  outNodup : s.out.Nodup
  length : s.out.length = between G start kMin (d + 1)

variable {kMin kMax maxVertices d : Nat} {s : Search}

theorem exact_zero (hmin : 1 ≤ kMin) (G : SimpleGraph String) : Exact G start kMin 0 ⟨[start], [start], []⟩ := by
  refine ⟨fun v => ?_, fun v => ?_, List.nodup_singleton start, fun v => ?_, List.nodup_nil, (between_of_le hmin).symm⟩
  · rw [List.mem_singleton, Nat.cast_zero, nonpos_iff_eq_zero, SimpleGraph.edist_eq_zero_iff]
    exact eq_comm
  · rw [List.mem_singleton, mem_level_zero]
  · refine ⟨fun h => absurd h List.not_mem_nil, fun h => ?_⟩
    obtain ⟨e, he, hle, -⟩ := mem_wanted.mp h
    omega

/-- The query at a depth finds the next level. -/
theorem matches_iff (h : Exact (neighborhood edges tenant relations) start kMin d s) {id : String} :
    Matches edges tenant relations s.frontier s.visited id ↔ id ∈ level (neighborhood edges tenant relations) start (d + 1) := by
  rw [mem_level_succ, Matches, h.visited id]
  refine and_congr_left fun hfar => ?_
  constructor
  · rintro ⟨a, ha, hedge⟩
    have hlevel := (h.frontier a).mp ha
    have hne : a ≠ id := by
      rintro rfl
      exact hfar hlevel.le
    exact ⟨a, hlevel, hne, hedge⟩
  · rintro ⟨a, ha, -, hedge⟩
    exact ⟨a, (h.frontier a).mpr ha, hedge⟩

/-- What the search takes from one query. -/
theorem collect_answer (h : Exact (neighborhood edges tenant relations) start kMin d s)
    (hplain : ∀ v ∈ level (neighborhood edges tenant relations) start (d + 1), Plain agtype v)
    {rows : List (Option String)} (hrows : Answers agtype edges tenant relations s.frontier s.visited maxVertices rows)
    (listed : Bool) :
    ∃ ids : List String, ids.Nodup ∧ (∀ id ∈ ids, id ∈ level (neighborhood edges tenant relations) start (d + 1)) ∧
      (ids.length = maxVertices ∨ ∀ id ∈ level (neighborhood edges tenant relations) start (d + 1), id ∈ ids) ∧
      ids.length ≤ maxVertices ∧
      collect maxVertices listed rows { s with frontier := [] } =
        ⟨s.visited ++ ids, ids, if listed then s.out ++ ids else s.out⟩ := by
  obtain ⟨ids, hnodup, hmatches, hlimit, hall, rfl⟩ := hrows
  have hlevel : ∀ id ∈ ids, id ∈ level (neighborhood edges tenant relations) start (d + 1) :=
    fun id hmem => (matches_iff h).mp (hmatches id hmem)
  refine ⟨ids, hnodup, hlevel, hall.imp_right fun hall id hid => hall id ((matches_iff h).mpr hid), hlimit, ?_⟩
  have hcollect := @collect_new agtype maxVertices listed ids { s with frontier := [] } hnodup
    (fun id hmem => hplain id (hlevel id hmem)) (fun id hmem => (hmatches id hmem).2)
    (by rw [List.length_nil, Nat.zero_add]; exact hlimit)
  exact hcollect

theorem wanted_succ {G : SimpleGraph String} {v : String} :
    v ∈ wanted G start kMin (d + 1) ↔ v ∈ wanted G start kMin d ∨ kMin ≤ d + 1 ∧ v ∈ level G start (d + 1) := by
  rw [mem_wanted, mem_wanted]
  constructor
  · rintro ⟨e, hmin, hmax, he⟩
    rcases Nat.lt_or_ge e (d + 1) with hlt | hge
    · exact .inl ⟨e, hmin, by omega, he⟩
    · obtain rfl : e = d + 1 := by omega
      exact .inr ⟨hmin, he⟩
  · rintro (⟨e, hmin, hmax, he⟩ | ⟨hmin, he⟩)
    · exact ⟨e, hmin, by omega, he⟩
    · exact ⟨d + 1, hmin, le_rfl, he⟩

theorem not_wanted_of_level {G : SimpleGraph String} {v : String} (h : v ∈ level G start (d + 1)) : v ∉ wanted G start kMin d := by
  intro hwanted
  have hle := hwanted.2
  rw [mem_level.mp h] at hle
  have hle' : d + 1 ≤ d := by exact_mod_cast hle
  omega

/-- A level that the query returns whole keeps the search exact. -/
theorem exact_succ (h : Exact (neighborhood edges tenant relations) start kMin d s) {ids : List String} (hnodup : ids.Nodup)
    (hids : ∀ id, id ∈ ids ↔ id ∈ level (neighborhood edges tenant relations) start (d + 1)) :
    Exact (neighborhood edges tenant relations) start kMin (d + 1)
      ⟨s.visited ++ ids, ids, if decide (kMin ≤ d + 1) then s.out ++ ids else s.out⟩ := by
  have hlength : (level (neighborhood edges tenant relations) start (d + 1)).ncard = ids.length := ncard_eq_length hnodup hids
  refine ⟨fun v => ?_, hids, hnodup, fun v => ?_, ?_, ?_⟩
  · rw [List.mem_append, h.visited, hids, mem_level]
    constructor
    · rintro (hle | heq)
      · exact hle.trans (by exact_mod_cast Nat.le_succ d)
      · exact heq.le
    · intro hle
      rcases lt_or_eq_of_le hle with hlt | heq
      · refine .inl ?_
        obtain ⟨e, he⟩ := ENat.ne_top_iff_exists.mp (ne_top_of_lt hlt)
        rw [← he] at hlt ⊢
        have hlt' : e < d + 1 := by exact_mod_cast hlt
        exact_mod_cast Nat.lt_succ_iff.mp hlt'
      · exact .inr heq
  · rw [wanted_succ, ← hids, ← h.out]
    by_cases hlisted : kMin ≤ d + 1 <;> simp [hlisted]
  · by_cases hlisted : kMin ≤ d + 1
    · simp only [hlisted, decide_true, if_true]
      refine List.nodup_append.mpr ⟨h.outNodup, hnodup, ?_⟩
      rintro a ha b hb rfl
      exact not_wanted_of_level ((hids a).mp hb) ((h.out a).mp ha)
    · simpa [hlisted] using h.outNodup
  · by_cases hlisted : kMin ≤ d + 1
    · simp only [hlisted, decide_true, if_true, List.length_append]
      rw [between_succ hlisted, h.length, hlength]
    · simp only [hlisted, decide_false, Bool.false_eq_true, if_false]
      rw [h.length, between_of_le (by omega), between_of_le (by omega)]

/-- A level within the cap is returned whole. -/
theorem mem_ids_iff {ids : List String} (hnodup : ids.Nodup)
    (hlevel : ∀ id ∈ ids, id ∈ level (neighborhood edges tenant relations) start (d + 1))
    (hall : ids.length = maxVertices ∨ ∀ id ∈ level (neighborhood edges tenant relations) start (d + 1), id ∈ ids)
    (hcap : (level (neighborhood edges tenant relations) start (d + 1)).ncard ≤ maxVertices) (id : String) :
    id ∈ ids ↔ id ∈ level (neighborhood edges tenant relations) start (d + 1) := by
  refine ⟨hlevel id, fun hid => ?_⟩
  rcases hall with hfull | hall
  · have hset : {id | id ∈ ids} = level (neighborhood edges tenant relations) start (d + 1) := by
      have hcount : {id | id ∈ ids}.ncard = ids.length := ncard_eq_length hnodup fun _ => Iff.rfl
      refine Set.eq_of_subset_of_ncard_le hlevel ?_ (level_finite (d + 1))
      rw [hcount, hfull]
      exact hcap
    rw [← hset] at hid
    exact hid
  · exact hall id hid

/-- A search that stops exact, at the last depth, at an empty level or at the
cap, is correct. -/
theorem correct_of_exact (h : Exact (neighborhood edges tenant relations) start kMin d s) (hmin : 1 ≤ kMin) (hd : d ≤ kMax)
    (hbounded : s.out.length ≤ maxVertices)
    (hstop : d = kMax ∨ level (neighborhood edges tenant relations) start d = ∅ ∨ s.out.length = maxVertices) :
    Correct (neighborhood edges tenant relations) start kMin kMax maxVertices s.out := by
  have hwanted : ∀ v ∈ s.out, v ∈ wanted (neighborhood edges tenant relations) start kMin kMax := by
    intro v hv
    obtain ⟨e, hkMin, hle, he⟩ := mem_wanted.mp ((h.out v).mp hv)
    exact mem_wanted.mpr ⟨e, hkMin, hle.trans hd, he⟩
  refine ⟨hbounded, h.outNodup, ?_, hwanted, ?_⟩
  · intro hmem
    have hle := (hwanted start hmem).1
    rw [SimpleGraph.edist_self] at hle
    have hle' : kMin ≤ 0 := by exact_mod_cast hle
    omega
  · intro _ hcount v hv
    rcases hstop with rfl | hempty | hfull
    · exact (h.out v).mpr hv
    · obtain ⟨e, hkMin, -, he⟩ := mem_wanted.mp hv
      rcases Nat.lt_or_ge d e with hlt | hge
      · rw [level_empty_of_le hempty hlt.le] at he
        exact absurd he (Set.notMem_empty v)
      · exact (h.out v).mpr (mem_wanted.mpr ⟨e, hkMin, hge, he⟩)
    · have hset : {v | v ∈ s.out} = wanted (neighborhood edges tenant relations) start kMin kMax := by
        have hlength : {v | v ∈ s.out}.ncard = s.out.length := ncard_eq_length h.outNodup fun _ => Iff.rfl
        refine Set.eq_of_subset_of_ncard_le hwanted ?_ (wanted_finite kMin kMax)
        rw [hlength, hfull]
        exact hcount
      rw [← hset] at hv
      exact hv

section Runs

variable {agtype : String → String} {edges : List Edge} {tenant : String} {relations : List String} {start : String}
  {kMin kMax maxVertices : Nat} {answer : Nat → List String → List String → List (Option String)}

/-- The search is correct where no inner level is cut and the levels fit. -/
theorem hops_correct (hmin : 1 ≤ kMin)
    (hplain : PlainLevels agtype (neighborhood edges tenant relations) start kMin kMax maxVertices)
    (hanswer : ∀ depth frontier visited,
      Answers agtype edges tenant relations frontier visited maxVertices (answer depth frontier visited))
    (hspacious : Spacious (neighborhood edges tenant relations) start kMin maxVertices)
    (hfitting : Fitting (neighborhood edges tenant relations) start kMin kMax maxVertices)
    {remaining d : Nat} {s : Search} (h : Exact (neighborhood edges tenant relations) start kMin d s) (hd : d + remaining = kMax)
    (hbounded : s.out.length ≤ maxVertices) :
    Correct (neighborhood edges tenant relations) start kMin kMax maxVertices
    (hops answer kMin maxVertices remaining (d + 1) s).out := by
  induction remaining generalizing d s with
  | zero => exact correct_of_exact h hmin hd.le hbounded (.inl hd)
  | succ remaining ih =>
      rw [hops]
      split
      next hstop =>
        refine correct_of_exact h hmin (by omega) hbounded
          (.inr (hstop.imp (fun hempty => ?_) fun hfull => le_antisymm hbounded hfull))
        apply Set.eq_empty_of_forall_notMem
        intro v hv
        exact List.not_mem_nil (hempty ▸ (h.frontier v).mpr hv)
      next hgo =>
        obtain ⟨-, hroom⟩ := not_or.mp hgo
        rw [h.length, not_le] at hroom
        obtain ⟨ids, hnodup, hlevel, hall, hlimit, hcollect⟩ := collect_answer h (hplain (d + 1) (by omega) (by omega) hroom)
          (hanswer (d + 1) s.frontier s.visited) (kMin ≤ d + 1)
        rw [hcollect]
        by_cases hcap : (level (neighborhood edges tenant relations) start (d + 1)).ncard ≤ maxVertices
        · have hexact := exact_succ h hnodup (mem_ids_iff hnodup hlevel hall hcap)
          refine ih hexact (by omega) ?_
          rw [hexact.length]
          rcases Nat.lt_trichotomy kMin (d + 1) with hlt | heq | hgt
          · rw [between_succ hlt.le]
            exact hfitting (d + 1) hlt (by omega) hroom
          · rw [between_succ heq.le, heq, between_self, Nat.zero_add]
            exact hcap
          · rw [between_of_le hgt]
            exact Nat.zero_le _
        · -- Only the first level that is listed may be cut: the search ends there with a full result.
          have hfirst : kMin = d + 1 := by
            rcases Nat.lt_trichotomy kMin (d + 1) with hlt | heq | hgt
            · have hsum := hfitting (d + 1) hlt (by omega) hroom
              omega
            · exact heq
            · exact absurd (hspacious (d + 1) (by omega) hgt) hcap
          have hfull : ids.length = maxVertices := by
            refine hall.resolve_right fun hall => hcap ?_
            rw [ncard_eq_length hnodup fun id => ⟨hlevel id, hall id⟩]
            exact hlimit
          have hnone : s.out = [] := by
            apply List.eq_nil_of_length_eq_zero
            rw [h.length, hfirst, between_self]
          simp only [hfirst, le_refl, decide_true, if_true, hnone, List.nil_append]
          rw [hops_stop (.inr hfull.ge)]
          refine ⟨hlimit, hnodup, ?_, ?_, ?_⟩
          · intro hmem
            have hstart := hlevel start hmem
            rw [mem_level, SimpleGraph.edist_self] at hstart
            have hzero : 0 = d + 1 := by exact_mod_cast hstart
            omega
          · intro v hv
            exact mem_wanted.mpr ⟨d + 1, le_rfl, by omega, hlevel v hv⟩
          · intro hlevels
            exact absurd (hlevels (d + 1) (by omega) (by omega)) hcap

/-- A level that passes the cap behind others makes the result too long. -/
theorem hops_overrun
    (hplain : PlainLevels agtype (neighborhood edges tenant relations) start kMin kMax maxVertices)
    (hanswer : ∀ depth frontier visited,
      Answers agtype edges tenant relations frontier visited maxVertices (answer depth frontier visited))
    (hspacious : Spacious (neighborhood edges tenant relations) start kMin maxVertices) {past : Nat} (hpast : kMin < past)
    (hlast : past ≤ kMax) (hroom : between (neighborhood edges tenant relations) start kMin past < maxVertices)
    (hover : maxVertices < between (neighborhood edges tenant relations) start kMin past +
      (level (neighborhood edges tenant relations) start past).ncard)
    {remaining d : Nat} {s : Search} (h : Exact (neighborhood edges tenant relations) start kMin d s) (hd : d + remaining = kMax)
    (hbefore : d < past) : maxVertices < (hops answer kMin maxVertices remaining (d + 1) s).out.length := by
  have hinhabited (e : Nat) (he : e ≤ past) : level (neighborhood edges tenant relations) start e ≠ ∅ := by
    intro hempty
    rw [level_empty_of_le hempty he, Set.ncard_empty] at hover
    omega
  induction remaining generalizing d s with
  | zero => omega
  | succ remaining ih =>
      have hmono := @between_mono String (neighborhood edges tenant relations) start kMin (d + 1) past hbefore
      have hgo : ¬ (s.frontier = [] ∨ maxVertices ≤ s.out.length) := by
        rintro (hempty | hfull)
        · refine hinhabited d hbefore.le (Set.eq_empty_of_forall_notMem fun v hv => ?_)
          exact List.not_mem_nil (hempty ▸ (h.frontier v).mpr hv)
        · rw [h.length] at hfull
          omega
      rw [hops, if_neg hgo]
      obtain ⟨ids, hnodup, hlevel, hall, -, hcollect⟩ := collect_answer h
        (hplain (d + 1) (by omega) (by omega) (hmono.trans_lt hroom)) (hanswer (d + 1) s.frontier s.visited) (kMin ≤ d + 1)
      rw [hcollect]
      rcases Nat.lt_or_ge (d + 1) past with hlt | hge
      · have hcap : (level (neighborhood edges tenant relations) start (d + 1)).ncard ≤ maxVertices := by
          rcases Nat.lt_or_ge (d + 1) kMin with hinner | houter
          · exact hspacious (d + 1) (by omega) hinner
          · exact (ncard_le_between houter hlt).trans hroom.le
        exact ih (exact_succ h hnodup (mem_ids_iff hnodup hlevel hall hcap)) (by omega) hlt
      · obtain rfl : past = d + 1 := by omega
        have hlisted : kMin ≤ d + 1 := hpast.le
        simp only [hlisted, decide_true, if_true]
        have hlong : maxVertices < (s.out ++ ids).length := by
          rw [List.length_append, h.length]
          rcases hall with hfull | hall
          · have hsome : 0 < (level (neighborhood edges tenant relations) start kMin).ncard :=
              (Set.ncard_pos (level_finite kMin)).mpr (Set.nonempty_iff_ne_empty.mpr (hinhabited kMin hlisted))
            have hle := @ncard_le_between String (neighborhood edges tenant relations) start kMin (d + 1) kMin le_rfl hpast
            omega
          · rw [ncard_eq_length hnodup fun id => ⟨hlevel id, hall id⟩] at hover
            exact hover
        rw [hops_stop (.inr hlong.le)]
        exact hlong

theorem permitted_dedup (relationshipTypes : List String) (e : Edge) :
    e.permitted tenant relationshipTypes.dedup = e.permitted tenant relationshipTypes := by
  have hcontains : relationshipTypes.dedup.contains e.label = relationshipTypes.contains e.label := by
    rw [Bool.eq_iff_iff, List.contains_iff_mem, List.contains_iff_mem, List.mem_dedup]
  rw [Edge.permitted, Edge.permitted, hcontains]

theorem neighborhood_dedup (edges : List Edge) (tenant : String) (relationshipTypes : List String) :
    neighborhood edges tenant relationshipTypes.dedup = neighborhood edges tenant relationshipTypes := by
  ext a b
  simp only [neighborhood, permitted_dedup]

theorem hops_iff (hmin : 1 ≤ kMin)
    (hplain : PlainLevels agtype (neighborhood edges tenant relations) start kMin kMax maxVertices)
    (hanswer : ∀ depth frontier visited,
      Answers agtype edges tenant relations frontier visited maxVertices (answer depth frontier visited))
    (hspacious : Spacious (neighborhood edges tenant relations) start kMin maxVertices) :
    Correct (neighborhood edges tenant relations) start kMin kMax maxVertices
        (hops answer kMin maxVertices kMax 1 ⟨[start], [start], []⟩).out ↔
      Fitting (neighborhood edges tenant relations) start kMin kMax maxVertices := by
  have hexact := @exact_zero start kMin hmin (neighborhood edges tenant relations)
  constructor
  · intro hcorrect past hpast hlast hroom
    by_contra hover
    rw [not_le] at hover
    have hlong := hops_overrun hplain hanswer hspacious hpast hlast hroom hover hexact (Nat.zero_add kMax) (by omega)
    exact absurd hcorrect.bounded (not_le.mpr hlong)
  · intro hfitting
    exact hops_correct hmin hplain hanswer hspacious hfitting hexact (Nat.zero_add kMax) (Nat.zero_le _)

theorem level_of_no_relations (d : Nat) : level (neighborhood edges tenant []) start (d + 1) = ∅ := by
  apply Set.eq_empty_of_forall_notMem
  intro v hv
  obtain ⟨u, -, -, e, -, hpermitted, -⟩ := exists_adj_of_level hv
  simp [Edge.permitted] at hpermitted

/-- Where every id that is met comes back as it is and no level before the least
depth is cut, the search is correct just when the levels from the least depth on reach
the cap without passing it. -/
theorem neighbors_correct_iff (agtype : String → String) (edges : List Edge)
    (answer : String → List String → Nat → List String → List String → List (Option String))
    (entityId tenantId tenant : String) (kMin kMax maxVertices : Int) (relationshipTypes : List String)
    (hbounds : 1 ≤ kMin ∧ kMin ≤ kMax ∧ 1 ≤ maxVertices)
    (hrelations : ∀ relation ∈ relationshipTypes, (relationEndpoints.lookup relation).isSome)
    (htenant : normalizeTenantId tenantId = .ok tenant)
    (hanswer : ∀ relations depth frontier visited, Answers agtype edges tenant relations frontier visited maxVertices.toNat
      (answer tenant relations depth frontier visited))
    (hplain : PlainLevels agtype (neighborhood edges tenant relationshipTypes) entityId kMin.toNat kMax.toNat
      maxVertices.toNat)
    (hspacious : Spacious (neighborhood edges tenant relationshipTypes) entityId kMin.toNat maxVertices.toNat) :
    ∃ out, getEntityKHopNeighbors answer entityId kMin kMax maxVertices relationshipTypes tenantId = .ok out ∧
      (Correct (neighborhood edges tenant relationshipTypes) entityId kMin.toNat kMax.toNat maxVertices.toNat out ↔
        Fitting (neighborhood edges tenant relationshipTypes) entityId kMin.toNat kMax.toNat maxVertices.toNat) := by
  have hmin : 1 ≤ kMin.toNat := by omega
  by_cases hnone : relationshipTypes = []
  · subst hnone
    refine ⟨[], by simp [getEntityKHopNeighbors], iff_of_true ?_ ?_⟩
    · refine ⟨Nat.zero_le _, List.nodup_nil, List.not_mem_nil, fun v hv => absurd hv List.not_mem_nil, fun _ _ v hv => ?_⟩
      obtain ⟨d, hd, -, hlevel⟩ := mem_wanted.mp hv
      obtain ⟨e, rfl⟩ : ∃ e, d = e + 1 := ⟨d - 1, by omega⟩
      rw [level_of_no_relations] at hlevel
      exact absurd hlevel (Set.notMem_empty v)
    · intro d hd _ hroom
      obtain ⟨e, rfl⟩ : ∃ e, d = e + 1 := ⟨d - 1, by omega⟩
      rw [level_of_no_relations, Set.ncard_empty, Nat.add_zero]
      exact hroom.le
  · refine ⟨(hops (answer tenant relationshipTypes.dedup) kMin.toNat maxVertices.toNat kMax.toNat 1
      ⟨[entityId], [entityId], []⟩).out, ?_, ?_⟩
    · have hall : (relationshipTypes.all fun value => (relationEndpoints.lookup value).isSome) = true :=
        List.all_eq_true.mpr hrelations
      have hvalid : decide (1 ≤ kMin ∧ kMin ≤ kMax ∧ 1 ≤ maxVertices) = true := decide_eq_true hbounds
      simp only [getEntityKHopNeighbors, if_neg hnone, permittedRelations, hall, ensure_true, ok_bind, hvalid, htenant]
      rfl
    · have hiff := @hops_iff agtype edges tenant relationshipTypes.dedup entityId kMin.toNat kMax.toNat maxVertices.toNat
        (answer tenant relationshipTypes.dedup) hmin
        (by rw [neighborhood_dedup]; exact hplain)
        (hanswer relationshipTypes.dedup) (by rw [neighborhood_dedup]; exact hspacious)
      rw [neighborhood_dedup] at hiff
      exact hiff

end Runs

def quoted (id : String) : String := String.ofList (quotationMark :: (id.toList ++ [quotationMark]))

/-- A database that returns the first matches it meets. -/
def fetch (edges : List Edge) (limit : Nat) (tenant : String) (relations : List String) (_ : Nat) (frontier visited : List String) :
    List (Option String) :=
  let found := (edges.filter (Edge.permitted tenant relations)).flatMap fun e =>
    (if e.source.id ∈ frontier then [e.target.id] else []) ++ if e.target.id ∈ frontier then [e.source.id] else []
  ((found.filter (· ∉ visited)).dedup.take limit).map fun id => some (quoted id)

theorem fetch_answers (edges : List Edge) (limit : Nat) (tenant : String) (relations : List String) (depth : Nat)
    (frontier visited : List String) :
    Answers quoted edges tenant relations frontier visited limit (fetch edges limit tenant relations depth frontier visited) := by
  have hfound (id : String) : id ∈ (((edges.filter (Edge.permitted tenant relations)).flatMap fun e =>
      (if e.source.id ∈ frontier then [e.target.id] else []) ++ if e.target.id ∈ frontier then [e.source.id] else []).filter
        (· ∉ visited)).dedup ↔ Matches edges tenant relations frontier visited id := by
    rw [List.mem_dedup, List.mem_filter, List.mem_flatMap, Matches]
    refine and_congr ?_ (by simp)
    constructor
    · rintro ⟨e, hmem, hid⟩
      obtain ⟨hedge, hpermitted⟩ := List.mem_filter.mp hmem
      rcases List.mem_append.mp hid with hid | hid
      · split at hid
        next hsource => exact ⟨_, hsource, e, hedge, hpermitted, .inl ⟨rfl, (List.mem_singleton.mp hid).symm⟩⟩
        next => cases hid
      · split at hid
        next htarget => exact ⟨_, htarget, e, hedge, hpermitted, .inr ⟨(List.mem_singleton.mp hid).symm, rfl⟩⟩
        next => cases hid
    · rintro ⟨a, ha, e, hedge, hpermitted, ⟨rfl, rfl⟩ | ⟨rfl, rfl⟩⟩
      · exact ⟨e, List.mem_filter.mpr ⟨hedge, hpermitted⟩, List.mem_append_left _ (by simp [ha])⟩
      · exact ⟨e, List.mem_filter.mpr ⟨hedge, hpermitted⟩, List.mem_append_right _ (by simp [ha])⟩
  refine ⟨_, (List.nodup_dedup _).sublist (List.take_sublist limit _), ?_, List.length_take_le limit _, ?_, rfl⟩
  · intro id hmem
    exact (hfound id).mp (List.mem_of_mem_take hmem)
  · rcases Nat.le_total limit (((edges.filter (Edge.permitted tenant relations)).flatMap fun e =>
      (if e.source.id ∈ frontier then [e.target.id] else []) ++ if e.target.id ∈ frontier then [e.source.id] else []).filter
        (· ∉ visited)).dedup.length with hle | hge
    · exact .inl (List.length_take_of_le hle)
    · refine .inr fun id hid => ?_
      rw [List.take_of_length_le hge]
      exact (hfound id).mpr hid

def person (id : String) : Vertex := ⟨id, "acme", "State"⟩

def evolved (source target : String) : Edge := ⟨person source, person target, "EVOLUTION", "acme"⟩

def fork : List Edge := [evolved "a" "b", evolved "b" "c", evolved "b" "d"]

theorem fork_plain {v : String} {d : Nat} (hv : v ∈ level (neighborhood fork "acme" ["EVOLUTION"]) "a" (d + 1)) :
    Plain quoted v := by
  have hall : ∀ e ∈ fork, (e.source.id ≠ "" ∧ unquoted (quoted e.source.id) = e.source.id) ∧
      e.target.id ≠ "" ∧ unquoted (quoted e.target.id) = e.target.id := by decide
  obtain ⟨u, -, -, e, hmem, -, hjoins⟩ := exists_adj_of_level hv
  rcases hjoins with ⟨-, rfl⟩ | ⟨rfl, -⟩
  · exact (hall e hmem).2
  · exact (hall e hmem).1

theorem neighbors_correct_fork :
    ∃ out, getEntityKHopNeighbors (fetch fork 1) "a" 1 1 1 ["EVOLUTION"] "acme" = .ok out ∧
      (Correct (neighborhood fork "acme" ["EVOLUTION"]) "a" 1 1 1 out ↔
        Fitting (neighborhood fork "acme" ["EVOLUTION"]) "a" 1 1 1) := by
  refine neighbors_correct_iff quoted fork (fetch fork 1) "a" "acme" "acme" 1 1 1 ["EVOLUTION"] (by decide) (by decide) (by decide)
    (fetch_answers fork 1 "acme") ?_ ?_
  · intro d hfirst _ _ v hv
    obtain ⟨e, rfl⟩ : ∃ e, d = e + 1 := ⟨d - 1, by omega⟩
    exact fork_plain hv
  · intro d hfirst hlast
    exact absurd hfirst (not_le.mpr hlast)

def triangle : List Edge := [evolved "a" "b", evolved "a" "c", evolved "b" "c"]

/-- A second level passes the cap, and a state cut from the first level comes
back at the second. -/
theorem neighbors_incorrect :
    (getEntityKHopNeighbors (fetch fork 2) "a" 1 2 2 ["EVOLUTION"] "acme" = .ok ["b", "c", "d"] ∧
      (∀ relations depth frontier visited, Answers quoted fork "acme" relations frontier visited 2
        (fetch fork 2 "acme" relations depth frontier visited)) ∧
      ¬ Correct (neighborhood fork "acme" ["EVOLUTION"]) "a" 1 2 2 ["b", "c", "d"]) ∧
    getEntityKHopNeighbors (fetch triangle 1) "a" 2 2 1 ["EVOLUTION"] "acme" = .ok ["c"] ∧
      (∀ relations depth frontier visited, Answers quoted triangle "acme" relations frontier visited 1
        (fetch triangle 1 "acme" relations depth frontier visited)) ∧
      ¬ Correct (neighborhood triangle "acme" ["EVOLUTION"]) "a" 2 2 1 ["c"] := by
  refine ⟨⟨by decide, fetch_answers fork 2 "acme", fun h => absurd h.bounded (by decide)⟩,
    by decide, fetch_answers triangle 1 "acme", fun h => ?_⟩
  have hadj : (neighborhood triangle "acme" ["EVOLUTION"]).Adj "a" "c" := by
    refine ⟨by decide, evolved "a" "c", by decide, by decide, .inl ⟨rfl, rfl⟩⟩
  have hfar := (h.distance "c" (List.mem_singleton_self "c")).1
  rw [SimpleGraph.edist_eq_one_iff_adj.mpr hadj] at hfar
  have hfar' : 2 ≤ 1 := by exact_mod_cast hfar
  exact absurd hfar' (by decide)

end Galadril.Vision
