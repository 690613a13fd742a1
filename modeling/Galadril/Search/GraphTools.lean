import Galadril.Conversations.Store
import Galadril.Json.Equality
import Galadril.Json.Text
import Galadril.Lib.Mapping
import Galadril.Search.Pages

namespace Galadril.Search.GraphTools

open Json Lib Lib.Checked Conversations

inductive GraphNodeKind
  | entity
  | event
  | state
  | latentIdentity
  | inference
  | decision
  | causalVariable
  | metric
deriving DecidableEq

def GraphNodeKind.asStr : GraphNodeKind → String
  | .entity => "Entity"
  | .event => "Event"
  | .state => "State"
  | .latentIdentity => "LatentIdentity"
  | .inference => "Inference"
  | .decision => "Decision"
  | .causalVariable => "CausalVariable"
  | .metric => "Metric"

structure OntologyReference where
  tenantId : String
  ontologyId : String
  revisionId : String
  resourceId : String
  resourceKind : String
deriving DecidableEq

structure GraphNode where
  id : String
  kind : GraphNodeKind
  ontologyRef : Option OntologyReference
  properties : Value
deriving DecidableEq

structure GraphEdge where
  fromId : String
  toId : String
  label : String
  properties : Value
deriving DecidableEq

structure GraphSubgraph where
  nodes : List GraphNode
  edges : List GraphEdge
deriving DecidableEq

open GraphNodeKind in
def relationEndpoints : List (String × GraphNodeKind × GraphNodeKind) :=
  [("TRIGGERS", state, event), ("LEADS_TO", event, state), ("EVOLUTION", state, state), ("CONTAIN", event, event),
    ("OCCUR", event, entity), ("INFLUENCE", event, entity), ("HAS_INFERENCE", event, inference),
    ("CONSIDERED_CANDIDATE", inference, entity), ("CONSIDERED_CANDIDATE", inference, latentIdentity),
    ("HAS_DECISION", inference, decision), ("SELECTED_TARGET", decision, entity), ("SELECTED_TARGET", decision, latentIdentity),
    ("PROMOTED_AS", latentIdentity, entity), ("MERGED_WITH", latentIdentity, latentIdentity), ("SUPERSEDES", event, event),
    ("SUPERSEDES", state, state), ("SUPERSEDES", inference, inference), ("SUPERSEDES", decision, decision),
    ("SUPERSEDES", latentIdentity, latentIdentity), ("REVOKES", event, event), ("REVOKES", state, state),
    ("REVOKES", inference, inference), ("REVOKES", decision, decision), ("REVOKES", latentIdentity, latentIdentity),
    ("STATE_OF", state, entity), ("APPEARS_IN", entity, event), ("PARTICIPATED_IN", entity, event), ("DERIVED_FROM", entity, event),
    ("OBSERVED", entity, event), ("MENTIONS", event, entity), ("DESCRIBES", event, entity),
    ("CAUSES", causalVariable, causalVariable), ("METRIC_INFLUENCE", metric, metric)]

structure RelationsStore where
  relationEndpoints : String → Except String (GraphNode × GraphNode)
  kHopNeighbors : String → Nat → Nat → Except String GraphSubgraph

structure EvidenceStore where
  record : List EvidenceSource → List EvidenceSource → Except String (List EvidenceSource)
  record_mem : ∀ earlier sources later, record earlier sources = .ok later → ∀ x ∈ earlier ++ sources, x ∈ later

structure Scope where
  tenantId : String
  conversationId : String
  context : QueryContext
  pengolo : Bool

structure ChatTools where
  beginAudit : Except String Unit
  finishAudit : String → Except String Unit
  verifyUser : Except String Unit
  isAuthorized : String → String → String → QueryContext → Except String Bool
  relations : RelationsStore
  /-- The data of the generation, where the service for generations runs. -/
  generation : Option (Except String (Option Value))
  evidence : EvidenceStore

variable (t : ChatTools) (scope : Scope) (context : QueryContext)

/-- Maps the current AGE node contract to its SpiceDB resource namespace. -/
def mapGraphNodeToResource (n : GraphNode) : Option (String × String) :=
  match n.kind with
  | .entity => some ("entity_state", n.id)
  | .event => some ("event", n.id)
  | .state => ((n.properties.getStr "entity_id").filter (· ≠ "")).map fun id => ("entity_state", id)
  | .latentIdentity | .inference | .decision | .causalVariable | .metric => none

def nodeContext (resourceId : String) : QueryContext :=
  { context with
    entityId := some resourceId
    modality := none
    stateType := none
    gisZone := none }

def eventOf (n : GraphNode) : Option String := (n.properties.getStr "event_id").filter (· ≠ "")

def sourceVisible (n : GraphNode) (ctx : QueryContext) : Except String Bool :=
  if n.kind = .state then
    match eventOf n with
    | some eventId => (t.isAuthorized "view" "event" eventId ctx).mapError fun _ => "Failed to authorize graph state evidence"
    | none => .ok false
  else .ok true

def redacted (administrator : Bool) (n : GraphNode) : GraphNode where
  id := n.id
  kind := n.kind
  ontologyRef := if administrator then n.ontologyRef else none
  properties := if administrator then n.properties else .object []

def filterNode (administrator : Bool) (n : GraphNode) : Except String (Option GraphNode) :=
  match mapGraphNodeToResource n with
  | none => .ok none
  | some (resourceType, resourceId) => do
      let ctx := nodeContext context resourceId
      let ok ← (t.isAuthorized "view" resourceType resourceId ctx).mapError fun _ => "Failed to authorize relation node"
      let visible ← sourceVisible t n ctx
      return if ok && visible then some (redacted administrator n) else none

def filterEdge (administrator : Bool) (nodes : List GraphNode) (e : GraphEdge) : Option GraphEdge :=
  let allowed := nodes.map GraphNode.id
  let events := (nodes.filter fun n => n.kind = .event).map GraphNode.id
  if allowed.contains e.fromId && allowed.contains e.toId && (events.contains e.fromId || events.contains e.toId) then
    some { e with properties := if administrator then e.properties else .object [] }
  else none

def entityRelationsFiltered (entityId : String) (depth limit : Nat) : Except String GraphSubgraph := do
  let administrator ← (t.isAuthorized "manage" "tenant" scope.tenantId context).mapError
    fun _ => "Failed to authorize graph property access"
  let raw ← (t.relations.kHopNeighbors entityId depth (max 1 (min limit 50))).mapError fun _ => "Failed to fetch relations from AGE"
  let nodes ← raw.nodes.mapM (filterNode t context administrator)
  let nodes := nodes.reduceOption
  return ⟨nodes, raw.edges.filterMap (filterEdge administrator nodes)⟩

def checkEndpoint (n : GraphNode) : Except String Unit := do
  let (resourceType, resourceId) ← Checked.context (mapGraphNodeToResource n) "Relation endpoint unavailable"
  let ok ← t.isAuthorized "view" resourceType resourceId context
  ensure ok "Relation endpoint unavailable"

def relationContextRoot (id : String) : Except String String := do
  let (a, b) ← t.relations.relationEndpoints id
  checkEndpoint t context a
  checkEndpoint t context b
  return a.id

inductive ToolRequest
  | graph (entityId : String) (depth : Nat)
  | context (kind id : String)

def source (resourceType resourceId : String) (entityId modality stateType : Option String) : EvidenceSource :=
  ⟨resourceType, resourceId, false, entityId, modality, stateType⟩

/-- Opaque identifiers cannot determine the authorization resource type. -/
def graphSource (node : GraphNode) : Except String EvidenceSource :=
  match node.kind with
  | .entity => .ok (source "entity_state" node.id (some node.id) none none)
  | .event => .ok (source "event" node.id (some node.id) none none)
  | kind => .error ("Unsupported graph evidence kind: " ++ kind.asStr)

/-- Graph properties can encode private dependencies absent from node grants. -/
def graphEvidence (graph : GraphSubgraph) : Value :=
  .object [
    ("nodes", .array (graph.nodes.map fun node => .object [("id", .string node.id), ("kind", .string node.kind.asStr),
      ("label", .string node.kind.asStr), ("properties", .object [])])),
    ("edges", .array (graph.edges.map fun edge => .object [("from_id", .string edge.fromId), ("to_id", .string edge.toId),
      ("label", .string edge.label), ("properties", .object [])]))]

def recordSources (earlier sources : List EvidenceSource) : Except String (List EvidenceSource) :=
  if scope.pengolo && t.generation.isNone then .error "Pengolo unavailable" else t.evidence.record earlier sources

def contextRoot (resource id : String) : Except String String :=
  if resource == "relation" then relationContextRoot t context id
  else do
    let ok ← t.isAuthorized "view" resource id context
    ensure ok "Graph context unavailable"
    return id

def contextResource : String → Except String String
  | "entity" => .ok "entity_state"
  | "event" => .ok "event"
  | "relation" => .ok "relation"
  | _ => .error "Invalid graph context"

def target : ToolRequest → Except String (String × Nat)
  | .graph entityId depth => do
      ensure (!entityId.isEmpty && entityId.utf8ByteSize ≤ 256 && 1 ≤ depth && depth ≤ 2) "Invalid graph bounds"
      return (entityId, depth)
  | .context kind id => do
      ensure scope.pengolo "Graph context requires a Pengolo generation"
      let stored ← Checked.context t.generation "Pengolo unavailable"
      let found ← stored
      let data ← Checked.context found "Generation unavailable"
      ensure (decide (Json.Same ((data.get "input").bind (·.get "graphContext"))
        (some (.object [("kind", .string kind), ("id", .string id)])))) "Graph context changed"
      let resource ← contextResource kind
      let root ← contextRoot t context resource id
      return (root, 2)

def answer (root : String) (graph : GraphSubgraph) : ToolRequest → Value
  | .graph _ _ => graphEvidence graph
  | .context _ _ => .object [("root", .string root), ("neighborhood", graphEvidence graph)]

def mayEdit : Except String Bool :=
  if scope.pengolo then .ok true else t.isAuthorized "edit" "conversation" scope.conversationId context

def admission : Except String Unit := do
  t.verifyUser
  let ok ← mayEdit t scope context
  ensure ok "Authorization denied"

def perform (request : ToolRequest) (earlier : List EvidenceSource) : Except String (Value × List EvidenceSource) := do
  admission t scope context
  let (root, depth) ← target t scope context request
  let graph ← entityRelationsFiltered t scope context root depth 50
  let sources ← graph.nodes.mapM graphSource
  let later ← recordSources t scope earlier sources
  return (answer root graph request, later)

def execute (hourUtc : Int) (request : ToolRequest) (earlier : List EvidenceSource) : List EvidenceSource × Except String Value :=
  match t.beginAudit with
  | .error e => (earlier, .error e)
  | .ok _ =>
      match perform t scope { scope.context with hourUtc := hourUtc } request earlier with
      | .error e => (earlier, t.finishAudit "authorized_tool_failed" >>= fun _ => .error e)
      | .ok (value, later) =>
          (later,
            if 262144 < value.toVec.length then t.finishAudit "tool_output_limit" >>= fun _ => .error "Tool output exceeds limit"
            else t.finishAudit "succeeded" >>= fun _ => .ok value)

section Visibility

variable (t : ChatTools) (scope : Scope) (context : QueryContext)

structure Visible (n : GraphNode) (resource : String × String) : Prop where
  mapped : mapGraphNodeToResource n = some resource
  granted : t.isAuthorized "view" resource.1 resource.2 (nodeContext context resource.2) = .ok true
  evidence : n.kind = .state → ∃ eventId, eventOf n = some eventId ∧
    t.isAuthorized "view" "event" eventId (nodeContext context resource.2) = .ok true

variable {t scope context} {administrator : Bool} {n m : GraphNode}

theorem mapError_eq_ok {ε ε' α : Type} {x : Except ε α} {f : ε → ε'} {a : α} : x.mapError f = .ok a ↔ x = .ok a := by
  cases x <;> simp [Except.mapError]

theorem sourceVisible_eq_ok {ctx : QueryContext} :
    sourceVisible t n ctx = .ok true ↔ (n.kind = .state → ∃ eventId, eventOf n = some eventId ∧
      t.isAuthorized "view" "event" eventId ctx = .ok true) := by
  rw [sourceVisible]
  split
  · next hkind =>
    cases hevent : eventOf n with
    | none => simp [hkind]
    | some eventId => simp [hkind, mapError_eq_ok]
  · next hkind => simp [hkind]

theorem filterNode_eq_some (h : filterNode t context administrator n = .ok (some m)) :
    m = redacted administrator n ∧ ∃ resource, Visible t context n resource := by
  rw [filterNode] at h
  split at h
  · cases h
  · next resourceType resourceId hmapped =>
    simp only [bind_eq_ok, pure_eq_ok, mapError_eq_ok] at h
    obtain ⟨ok, hok, visible, hvisible, h⟩ := h
    split at h
    · next hboth =>
      rw [Bool.and_eq_true] at hboth
      obtain ⟨rfl, rfl⟩ := hboth
      exact ⟨(Option.some.inj h).symm, _, hmapped, hok, sourceVisible_eq_ok.mp hvisible⟩
    · cases h

theorem filterNode_of_visible {resource : String × String} (h : Visible t context n resource) :
    filterNode t context administrator n = .ok (some (redacted administrator n)) := by
  have hsource := sourceVisible_eq_ok.mpr h.evidence
  rw [filterNode]
  simp only [h.mapped, h.granted, hsource]
  rfl

theorem entityRelationsFiltered_spec {root : String} {depth limit : Nat} {graph : GraphSubgraph}
    (h : entityRelationsFiltered t scope context root depth limit = .ok graph) :
    ∃ administrator raw, t.relations.kHopNeighbors root depth (max 1 (min limit 50)) = .ok raw ∧
      ∀ m, m ∈ graph.nodes ↔ ∃ n ∈ raw.nodes, (∃ resource, Visible t context n resource) ∧ m = redacted administrator n := by
  simp only [entityRelationsFiltered, bind_eq_ok, pure_eq_ok, mapError_eq_ok] at h
  obtain ⟨administrator, -, raw, hraw, found, hfound, rfl⟩ := h
  refine ⟨administrator, raw, hraw, fun m => ?_⟩
  rw [List.reduceOption_mem_iff, Mapping.mem_mapM hfound]
  constructor
  · rintro ⟨n, hn, hm⟩
    obtain ⟨rfl, hvisible⟩ := filterNode_eq_some hm
    exact ⟨n, hn, hvisible, rfl⟩
  · rintro ⟨n, hn, ⟨resource, hvisible⟩, rfl⟩
    exact ⟨n, hn, filterNode_of_visible hvisible⟩

/-- A node that a user may view is an entity, an event or a state. -/
theorem Visible.kinds {resource : String × String} (h : Visible t context n resource) :
    n.kind = .entity ∨ n.kind = .event ∨ n.kind = .state := by
  have hmapped := h.mapped
  rw [mapGraphNodeToResource] at hmapped
  cases hkind : n.kind <;> simp [hkind] at hmapped ⊢

end Visibility

section Runs

variable {t : ChatTools} {scope : Scope} {request : ToolRequest} {earlier : List EvidenceSource}

/-- What a tool has found out before it turns nodes into evidence. -/
structure Reaches (t : ChatTools) (scope : Scope) (context : QueryContext) (request : ToolRequest) (root : String) (depth : Nat)
    (raw graph : GraphSubgraph) : Prop where
  admitted : admission t scope context = .ok ()
  target : target t scope context request = .ok (root, depth)
  fetched : t.relations.kHopNeighbors root depth 50 = .ok raw
  filtered : entityRelationsFiltered t scope context root depth 50 = .ok graph

variable {context : QueryContext} {root : String} {depth : Nat} {raw graph : GraphSubgraph}

theorem Reaches.nodes (h : Reaches t scope context request root depth raw graph) : ∃ administrator,
    ∀ m, m ∈ graph.nodes ↔ ∃ n ∈ raw.nodes, (∃ resource, Visible t context n resource) ∧ m = redacted administrator n := by
  obtain ⟨administrator, raw', hraw, hnodes⟩ := entityRelationsFiltered_spec h.filtered
  obtain rfl := Except.ok.inj (h.fetched.symm.trans hraw)
  exact ⟨administrator, hnodes⟩

end Runs

end Galadril.Search.GraphTools
