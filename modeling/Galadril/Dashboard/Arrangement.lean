import Galadril.Dashboard.Connections
import Galadril.Lib.Greedy

namespace Galadril.Dashboard

open Json Lib Lib.Checked

/-- Links are kept one by one if they pass with those kept before. The second
list has the links to be removed. -/
def proposeConnectionRepair (nodes : List GraphNode) (edges : List GraphEdge) : List GraphEdge × List GraphEdge :=
  Greedy.select (fun links => (validateConnections nodes links).isOk) edges

variable {nodes : List GraphNode} {edges links : List GraphEdge}

/-- A graph stays connected when links are taken away or reordered. -/
theorem Connected.subperm (hsub : links.Subperm edges) (h : Connected nodes edges) : Connected nodes links := by
  have hmem : ∀ e ∈ links, e ∈ edges := fun e he => hsub.subset he
  refine ⟨h.bounded, h.transfers, h.distinct, h.named, fun e he => h.joins e (hmem e he), ?_, fun target ht hmerges e he e' he' =>
    h.merged target ht hmerges e (hmem e he) e' (hmem e' he'), fun v hcycle => h.acyclic v ?_⟩
  · obtain ⟨middle, hperm, hsublist⟩ := hsub
    exact (hperm.map linkKey).nodup_iff.mp ((hsublist.map linkKey).nodup h.single)
  · have hleads : ∀ u v, Leads links u v → Leads edges u v := by
      rintro u v ⟨e, he, hlink⟩
      exact ⟨e, hmem e he, hlink⟩
    exact Relation.TransGen.mono hleads v v hcycle

structure Repaired (nodes : List GraphNode) (edges kept removed : List GraphEdge) : Prop where
  kept_sublist : kept.Sublist edges
  removed_sublist : removed.Sublist edges
  divided : (kept ++ removed).Perm edges
  connected : Connected nodes kept ↔ Connected nodes []
  needed : ∀ e ∈ removed, ¬ Connected nodes (kept ++ [e])
  unchanged : removed = [] ↔ Connected nodes edges ∨ edges = []

/-- A repair divides the links, keeps a graph that is accepted if the blocks are,
and removes no link that could have been kept. -/
theorem proposeConnectionRepair_repaired (nodes : List GraphNode) (edges : List GraphEdge) :
    Repaired nodes edges (proposeConnectionRepair nodes edges).1 (proposeConnectionRepair nodes edges).2 := by
  have hkeep : ∀ links, (validateConnections nodes links).isOk = true ↔ Connected nodes links := fun links =>
    isOk_iff.trans ⟨.of_validated, Connected.validated⟩
  have hmono : ∀ links edges : List GraphEdge, List.Subperm links edges → Connected nodes edges → Connected nodes links :=
    fun links edges hsub h => h.subperm hsub
  have h := @Greedy.select_maximal _ _ _ edges hkeep hmono
  exact ⟨h.chosen_sublist, h.refused_sublist, h.divided, h.holds_iff hmono, h.full, h.refused_eq_nil hmono⟩

section Layout

open Kahn Relation

variable (downstream : String → List String)

/-- Blocks are passed oldest first, and what follows one lies below it. The first
argument bounds their number. -/
def descend : Nat → (String → Nat) → (String → Option Nat) → List String → List String × (String → Nat)
  | 0, depth, _, _ => ([], depth)
  | _, depth, _, [] => ([], depth)
  | n + 1, depth, degree, id :: ready =>
      let next :=
        if id = "" then (depth, degree, ready)
        else (downstream id).foldl (fun acc child => (lower id acc.1 child, release acc.2 child)) (depth, degree, ready)
      let rest := descend n next.1 next.2.1 next.2.2
      (id :: rest.1, rest.2)

def stack (depth : String → Nat) : List GraphNode → (Nat → Nat) → List (String × Nat × Nat)
  | [], _ => []
  | node :: nodes, rows =>
      let column := depth node.id
      (node.id, 40 + column * 320, 80 + rows column * 180) :: stack depth nodes (Function.update rows column (rows column + 1))

def innerLinks (nodes : List GraphNode) (edges : List GraphEdge) : List GraphEdge :=
  edges.filter fun edge => edge.source ∈ nodes.map GraphNode.id ∧ edge.target ∈ nodes.map GraphNode.id

def linkedFrom (links : List GraphEdge) (id : String) :
    List String := (links.filter fun edge => edge.source = id).map GraphEdge.target

def linksInto (ids : List String) (links : List GraphEdge) (id : String) : Option Nat :=
  if id ∈ ids then some (links.countP fun edge => edge.target = id) else none

def firstBlocks (ids : List String) (links : List GraphEdge) :
    List String := ids.eraseDups.filter fun id => linksInto ids links id = some 0

def arrangeGraph (nodes : List GraphNode) (edges : List GraphEdge) : Except String (List (String × Nat × Nat)) := do
  let ids := nodes.map GraphNode.id
  let links := innerLinks nodes edges
  let passed := descend (linkedFrom links) nodes.length (fun _ => 0) (linksInto ids links) (firstBlocks ids links)
  ensure (passed.1.length = nodes.length) "cycle"
  return stack passed.2 nodes fun _ => 0

variable {downstream}

theorem foldl_pair {α β γ : Type} {f : β → α → β} {g : γ → α → γ} {xs : List α} {b : β} {c : γ} :
    xs.foldl (fun acc x => (f acc.1 x, g acc.2 x)) (b, c) = (xs.foldl f b, xs.foldl g c) := by
  induction xs generalizing b c with
  | nil => rfl
  | cons x xs ih => exact ih

/-- The blocks are passed in the order in which they are served. -/
theorem descend_eq {n : Nat} {depth : String → Nat} {degree : String → Option Nat} {ready : List String} :
    descend downstream n depth degree ready =
      (serve (fun id => if id = "" then [] else downstream id) n degree ready,
        (serve (fun id => if id = "" then [] else downstream id) n degree ready).foldl
          (fun depth id => (if id = "" then [] else downstream id).foldl (lower id) depth) depth) := by
  induction n generalizing depth degree ready with
  | zero => rfl
  | succ n ih =>
      cases ready with
      | nil => rfl
      | cons id ready =>
          by_cases hid : id = ""
          · simp only [descend, serve, hid, if_true, ih, List.foldl_cons, List.foldl_nil]
          · simp only [descend, serve, hid, if_false, ih, List.foldl_cons, @foldl_pair _ _ _ (lower id) release]

structure Arrangeable (nodes : List GraphNode) (edges : List GraphEdge) : Prop where
  distinct : (nodes.map GraphNode.id).Nodup
  named : ∀ e ∈ innerLinks nodes edges, e.source ≠ ""
  acyclic : ∀ v, ¬ TransGen (Leads (innerLinks nodes edges)) v v

/-- Columns are the lengths of the longest paths of links, and blocks of one column
stand in rows in the order of the graph. -/
structure Laid (nodes : List GraphNode) (edges : List GraphEdge) (column row : String → Nat) : Prop where
  right : ∀ e ∈ innerLinks nodes edges, column e.source < column e.target
  near : ∀ node ∈ nodes, 0 < column node.id → ∃ e ∈ innerLinks nodes edges, e.target = node.id ∧
    column node.id = column e.source + 1
  stacked : ∀ before node after, nodes = before ++ node :: after →
    row node.id = before.countP fun other => column other.id = column node.id
  apart : ∀ node ∈ nodes, ∀ other ∈ nodes, column node.id = column other.id → row node.id = row other.id → node = other

variable {nodes : List GraphNode} {edges : List GraphEdge} {outside : String} {order : List String}
  {depth column row : String → Nat}

theorem innerLinks_known : ∀ e ∈ innerLinks nodes edges, e.source ∈ nodes.map GraphNode.id ∧ e.target ∈ nodes.map GraphNode.id :=
  fun _ he => of_decide_eq_true (List.mem_filter.mp he).2

structure Found (nodes : List GraphNode) (edges : List GraphEdge) (outside : String) (order : List String)
    (depth : String → Nat) : Prop where
  sorted : Sorted (nodes.map GraphNode.id) (redirected outside (innerLinks nodes edges)) order
  deep : Deep (redirected outside (innerLinks nodes edges)) order depth
  result : arrangeGraph nodes edges = (do ensure (order.length = nodes.length) "cycle"; return stack depth nodes fun _ => 0)

theorem arrangeGraph_found (nodes : List GraphNode) (edges : List GraphEdge) (hout : outside ∉ nodes.map GraphNode.id) :
    ∃ order depth, Found nodes edges outside order depth := by
  let links := innerLinks nodes edges
  let ids := nodes.map GraphNode.id
  have hfirst : ∀ id, id ∈ firstBlocks ids links ↔ id ∈ ids ∧ (links.countP fun edge => edge.target = id) = 0 := by
    intro id
    rw [firstBlocks, List.mem_filter, List.mem_eraseDups, decide_eq_true_eq, linksInto]
    refine and_congr_right fun hid => ?_
    rw [if_pos hid, Option.some.injEq]
  have hsorted : Sorted ids (redirected outside links)
      (serve (fun id => if id = "" then [] else linkedFrom links id) nodes.length (linksInto ids links) (firstBlocks ids links)) :=
    serve_redirected hout innerLinks_known (List.length_map _).le ((Lookup.nodup_eraseDups ids).filter _) hfirst
  have hserved : ∀ id ∈ serve (fun id => if id = "" then [] else linkedFrom links id) nodes.length (linksInto ids links)
      (firstBlocks ids links), id ≠ outside := by
    rintro id hid rfl
    exact hout ((hsorted.settled _).mp hid).1
  refine ⟨_, _, hsorted, hsorted.ordered.deep hsorted.distinct, ?_⟩
  simp only [arrangeGraph, descend_eq]
  rw [show (serve _ _ _ _).foldl _ _ = _ from List.foldl_ext _ _ _ fun depth id hid => ?_]
  rw [← children_redirected (hserved id hid)]
  rfl

theorem Found.length_le (h : Found nodes edges outside order depth) : order.length ≤ nodes.length := by
  have hsub := h.sorted.distinct.subperm fun v hv => ((h.sorted.settled v).mp hv).1
  exact hsub.length_le.trans (List.length_map _).le

/-- All blocks are passed just if each can be put to the right of what leads to
it. -/
theorem Found.length_iff (h : Found nodes edges outside order depth) (hout : outside ∉ nodes.map GraphNode.id) :
    order.length = nodes.length ↔ Arrangeable nodes edges := by
  have hacyclic : (∀ v, ¬ TransGen (Leads (innerLinks nodes edges)) v v) ↔ ∀ v, Acc (Leads (innerLinks nodes edges)) v := by
    refine @Cycles.acyclic_iff_acc _ _ (nodes.map GraphNode.id) fun u v huv => ?_
    obtain ⟨e, he, -, rfl⟩ := huv
    exact (innerLinks_known e he).2
  have hpairs : ∀ e ∈ innerLinks nodes edges, (if e.source = "" then outside else e.source, e.target) ∈
      redirected outside (innerLinks nodes edges) := fun e he => List.mem_map.mpr ⟨e, he, rfl⟩
  constructor
  · intro hlength
    have hperm := (h.sorted.distinct.subperm fun v hv => ((h.sorted.settled v).mp hv).1).perm_of_length_le
      (by rw [List.length_map, hlength])
    have hnamed : ∀ e ∈ innerLinks nodes edges, e.source ≠ "" := by
      intro e he hempty
      have htarget := hperm.mem_iff.mpr (innerLinks_known e he).2
      have hsource := ((h.sorted.settled _).mp htarget).2 _ (hpairs e he)
      rw [if_pos hempty] at hsource
      exact hout ((h.sorted.settled _).mp hsource).1
    refine ⟨hperm.nodup_iff.mp h.sorted.distinct, hnamed, hacyclic.mpr fun v => ?_⟩
    by_cases hv : v ∈ nodes.map GraphNode.id
    · refine Subrelation.accessible ?_ (h.sorted.ordered.acc (hperm.mem_iff.mpr hv))
      rintro u v ⟨e, he, rfl, rfl⟩
      have hpair := hpairs e he
      rwa [if_neg (hnamed e he)] at hpair
    · refine ⟨v, ?_⟩
      rintro u ⟨e, he, -, rfl⟩
      exact absurd (innerLinks_known e he).2 hv
  · intro ha
    have hlinks : ∀ u v, (u, v) ∈ redirected outside (innerLinks nodes edges) →
      ∃ e ∈ innerLinks nodes edges, e.source = u ∧ e.target = v := by
      intro u v huv
      obtain ⟨e, he, heq⟩ := List.mem_map.mp huv
      rw [if_neg (ha.named e he)] at heq
      obtain ⟨rfl, rfl⟩ := Prod.mk.inj heq
      exact ⟨e, he, rfl, rfl⟩
    rw [← List.length_map GraphNode.id]
    refine (h.sorted.length_eq_iff ha.distinct).mpr fun v hv => h.sorted.complete (fun u w huw _ => ?_) (fun w _ => ?_) hv
    · obtain ⟨e, he, rfl, -⟩ := hlinks u w huw
      exact (innerLinks_known e he).1
    · exact Subrelation.accessible (hlinks _ _) (hacyclic.mp ha.acyclic w)

def rowIn (nodes : List GraphNode) (column : String → Nat) (id : String) : Nat :=
  (nodes.takeWhile fun node => node.id ≠ id).countP fun other => column other.id = column id

theorem rowIn_eq (hdistinct : (nodes.map GraphNode.id).Nodup) {before after : List GraphNode} {node : GraphNode}
    (hnodes : nodes = before ++ node :: after) :
    rowIn nodes column node.id = before.countP fun other => column other.id = column node.id := by
  have htake : nodes.takeWhile (fun other => other.id ≠ node.id) = before := by
    rw [hnodes, List.map_append, List.map_cons, List.nodup_append] at hdistinct
    rw [hnodes, List.takeWhile_append_of_pos, List.takeWhile_cons_of_neg (by simp), List.append_nil]
    intro other hother
    exact decide_eq_true fun heq => hdistinct.2.2 _ (List.mem_map_of_mem hother) _ List.mem_cons_self heq
  rw [rowIn, htake]

theorem stack_eq (hdistinct : (nodes.map GraphNode.id).Nodup) {before after : List GraphNode} (hnodes : nodes = before ++ after) :
    stack column after (fun c => before.countP fun other => column other.id = c) =
      after.map fun node => (node.id, 40 + column node.id * 320, 80 + rowIn nodes column node.id * 180) := by
  induction after generalizing before with
  | nil => rfl
  | cons node after ih =>
      rw [stack, List.map_cons, rowIn_eq hdistinct hnodes, ← @ih (before ++ [node]) (by rw [hnodes]; simp)]
      congr 2
      funext c
      by_cases hc : c = column node.id
      · subst hc
        simp
      · simp [Function.update_of_ne hc, Ne.symm hc]

theorem Laid.of_columns (hdistinct : (nodes.map GraphNode.id).Nodup)
    (hright : ∀ e ∈ innerLinks nodes edges, column e.source < column e.target)
    (hnear : ∀ node ∈ nodes, 0 < column node.id → ∃ e ∈ innerLinks nodes edges, e.target = node.id ∧
      column node.id = column e.source + 1) :
    Laid nodes edges column (rowIn nodes column) := by
  have hstacked : ∀ before node after, nodes = before ++ node :: after →
      rowIn nodes column node.id = before.countP fun other => column other.id = column node.id :=
    fun before node after hnodes => rowIn_eq hdistinct hnodes
  -- the later of two blocks of a column counts the earlier one
  have hlater : ∀ before node between other after, nodes = before ++ node :: (between ++ other :: after) →
      column node.id = column other.id → rowIn nodes column node.id < rowIn nodes column other.id := by
    intro before node between other after hnodes hcolumn
    rw [hstacked before node _ hnodes, hstacked (before ++ node :: between) other after (by rw [hnodes]; simp), List.countP_append,
      List.countP_cons, hcolumn, if_pos (decide_eq_true rfl)]
    omega
  refine ⟨hright, hnear, hstacked, fun node hnode other hother hcolumn hrow => ?_⟩
  obtain ⟨before, after, hnodes⟩ := List.append_of_mem hnode
  rw [hnodes, List.mem_append, List.mem_cons] at hother
  rcases hother with hbefore | rfl | hafter
  · obtain ⟨first, between, rfl⟩ := List.append_of_mem hbefore
    have hlt := hlater first other between node after (by rw [hnodes]; simp) hcolumn.symm
    omega
  · rfl
  · obtain ⟨between, rest, rfl⟩ := List.append_of_mem hafter
    have hlt := hlater before node between other rest hnodes hcolumn
    omega

/-- A graph of distinct blocks, whose links leave named ones, is arranged exactly
if it has no cycle. Then every link leads to the right, each block is as far left
as that allows and no two blocks overlap. -/
theorem arrangeGraph_laid (nodes : List GraphNode) (edges : List GraphEdge) :
    (Accepts (arrangeGraph nodes edges) ↔ Arrangeable nodes edges) ∧
      ∀ positions, arrangeGraph nodes edges = .ok positions → ∃ column row : String → Nat, Laid nodes edges column row ∧
        positions = nodes.map fun node => (node.id, 40 + column node.id * 320, 80 + row node.id * 180) := by
  obtain ⟨outside, houtside⟩ := Infinite.exists_notMem_finset (nodes.map GraphNode.id).toFinset
  rw [List.mem_toFinset] at houtside
  obtain ⟨order, depth, h⟩ := arrangeGraph_found nodes edges houtside
  rw [h.result, ← h.length_iff houtside]
  refine ⟨?_, fun positions hpositions => ?_⟩
  · simp only [accepts_bind, ensure_eq_ok, decide_eq_true_eq, exists_const]
    exact and_iff_left (accepts_ok _)
  simp only [bind_eq_ok, ensure_eq_ok, decide_eq_true_eq, pure_eq_ok] at hpositions
  obtain ⟨_, hlength, rfl⟩ := hpositions
  have ha := (h.length_iff houtside).mp hlength
  have hpairs : ∀ e ∈ innerLinks nodes edges, (e.source, e.target) ∈ redirected outside (innerLinks nodes edges) := fun e he =>
    List.mem_map.mpr ⟨e, he, by rw [if_neg (ha.named e he)]⟩
  refine ⟨depth, rowIn nodes depth, .of_columns ha.distinct (fun e he => ?_) (fun node _ hpos => ?_), ?_⟩
  · have hsource : e.source ∈ order := by
      have hall := (h.sorted.length_eq_iff ha.distinct).mp (by rw [List.length_map, hlength])
      exact hall _ (innerLinks_known e he).1
    exact h.deep.below _ hsource _ (hpairs e he)
  · obtain ⟨u, -, hedge, hdepth⟩ := h.deep.reached _ hpos
    obtain ⟨e, he, heq⟩ := List.mem_map.mp hedge
    rw [if_neg (ha.named e he)] at heq
    obtain ⟨rfl, htarget⟩ := Prod.mk.inj heq
    exact ⟨e, he, htarget, hdepth⟩
  · exact @stack_eq nodes depth ha.distinct [] nodes rfl

end Layout

end Galadril.Dashboard
