import Galadril.Lib.Kahn
import Galadril.Registry.PipelineGraph

namespace Galadril.Registry.Pipeline

open Lib Std

variable {downstream : ExtTreeMap String (List String)}

theorem release_eq (indegree : ExtTreeMap String Nat) (ready : List String) (child : String) :
    ((fun v => (release (indegree, ready) child).1[v]?), (release (indegree, ready) child).2) =
      Kahn.release ((fun v => indegree[v]?), ready) child := by
  cases hc : indegree[child]? with
  | none => simp only [release, Kahn.release, hc]
  | some degree =>
      simp only [release, Kahn.release, hc]
      refine Prod.ext (funext fun v => ?_) rfl
      by_cases hv : v = child
      · subst hv
        simp
      · simp [ExtTreeMap.getElem?_insert, hv, Ne.symm hv]

theorem foldl_release_eq (children : List String) (indegree : ExtTreeMap String Nat) (ready : List String) :
    ((fun v => (children.foldl release (indegree, ready)).1[v]?), (children.foldl release (indegree, ready)).2) =
      children.foldl Kahn.release ((fun v => indegree[v]?), ready) := by
  induction children generalizing indegree ready with
  | nil => rfl
  | cons child children ih =>
      rw [List.foldl_cons, List.foldl_cons, ← release_eq]
      exact ih _ _

theorem serve_eq (n : Nat) (indegree : ExtTreeMap String Nat) (ready : List String) :
    serve downstream n indegree ready =
      Kahn.serve (fun v => downstream.getD v []) n (fun v => indegree[v]?) ready := by
  induction n generalizing indegree ready with
  | zero => rfl
  | succ n ih =>
      cases ready with
      | nil => rfl
      | cons node ready =>
          rw [serve, Kahn.serve, ih]
          have h := foldl_release_eq (downstream.getD node []) indegree ready
          rw [← h]

/-- The consumers of every node, with one entry for each of their inputs. -/
theorem getD_downstream (pairs : List (String × String)) (m : ExtTreeMap String (List String)) (node : String) :
    (pairs.foldl (fun (m : ExtTreeMap String (List String)) p => m.insert p.1 (m.getD p.1 [] ++ [p.2])) m).getD node [] =
      m.getD node [] ++ Kahn.children pairs node := by
  induction pairs generalizing m with
  | nil => simp [Kahn.children]
  | cons p pairs ih =>
      rw [List.foldl_cons, ih, ExtTreeMap.getD_insert]
      by_cases hp : p.1 = node
      · subst hp
        simp [Kahn.children]
      · simp [Kahn.children, hp]

variable (sources : Names) (dependencies : ExtTreeMap String (List String))

def graphNodes : List String := (ExtTreeSet.ofList (sources.toList ++ dependencies.keys)).toList

theorem mem_graphNodes {v : String} : v ∈ graphNodes sources dependencies ↔ v ∈ sources ∨ v ∈ dependencies := by
  rw [graphNodes, ExtTreeSet.mem_toList, ExtTreeSet.mem_ofList, List.contains_iff_mem, List.mem_append,
    ExtTreeSet.mem_toList, ExtTreeMap.mem_keys]

theorem nodup_graphNodes : (graphNodes sources dependencies).Nodup := by
  refine ExtTreeSet.distinct_toList.imp ?_
  rintro a b h rfl
  exact h (compare_self)

theorem mem_inputPairs {u v : String} :
    (u, v) ∈ inputPairs dependencies ↔ ∃ inputs, dependencies[v]? = some inputs ∧ u ∈ inputs := by
  simp only [inputPairs, List.mem_flatMap, List.mem_map, Prod.mk.injEq, Prod.exists,
    ExtTreeMap.mem_toList_iff_getElem?_eq_some]
  constructor
  · rintro ⟨w, inputs, hw, x, hx, rfl, rfl⟩
    exact ⟨inputs, hw, hx⟩
  · rintro ⟨inputs, hv, hu⟩
    exact ⟨v, inputs, hv, u, hu, rfl, rfl⟩

theorem getElem?_tabulated {nodes : List String} (hnodes : nodes.Nodup) (f : String → Nat) (v : String) :
    (ExtTreeMap.ofList (nodes.map fun node => (node, f node)))[v]? = if v ∈ nodes then some (f v) else none := by
  have hpairs : (nodes.map fun node => (node, f node)).Pairwise fun a b => ¬ compare a.1 b.1 = .eq := by
    rw [List.pairwise_map]
    exact hnodes.imp fun hne he => hne (LawfulEqCmp.eq_of_compare he)
  split
  next hv => exact ExtTreeMap.getElem?_ofList_of_mem compare_self hpairs (List.mem_map.mpr ⟨v, hv, rfl⟩)
  next hv =>
    refine ExtTreeMap.getElem?_ofList_of_contains_eq_false ?_
    rw [List.map_map, Bool.eq_false_iff, Ne, List.contains_iff_mem]
    simpa using hv

theorem size_tabulated {nodes : List String} (hnodes : nodes.Nodup) (f : String → Nat) :
    (ExtTreeMap.ofList (nodes.map fun node => (node, f node))).size = nodes.length := by
  rw [ExtTreeMap.size_ofList, List.length_map]
  rw [List.pairwise_map]
  exact hnodes.imp fun hne he => hne (LawfulEqCmp.eq_of_compare he)

def indegrees : ExtTreeMap String Nat :=
  ExtTreeMap.ofList ((graphNodes sources dependencies).map fun node =>
    (node, (inputPairs dependencies).countP fun p => p.2 == node))

def consumersOf : ExtTreeMap String (List String) :=
  (inputPairs dependencies).foldl (fun (m : ExtTreeMap String (List String)) p =>
    m.insert p.1 (m.getD p.1 [] ++ [p.2])) ∅

theorem getElem?_indegrees (v : String) : (indegrees sources dependencies)[v]? =
    if v ∈ graphNodes sources dependencies then some (Kahn.missing (inputPairs dependencies) [] v) else none := by
  rw [indegrees, getElem?_tabulated (nodup_graphNodes sources dependencies)]
  simp [Kahn.missing, beq_eq_decide]

/-- The order is complete exactly when the queue served every node. -/
theorem topologicalOrder_eq : ∃ order,
    Kahn.Sorted (graphNodes sources dependencies) (inputPairs dependencies) order ∧
      topologicalOrder sources dependencies =
        if order.length = (graphNodes sources dependencies).length then some order else none := by
  have hsorted : Kahn.Sorted (graphNodes sources dependencies) (inputPairs dependencies)
      (Kahn.serve (fun v => (consumersOf dependencies).getD v [])
        ((ExtTreeSet.ofList (sources.toList ++ dependencies.keys)).size + (inputPairs dependencies).length + 1)
        (fun v => (indegrees sources dependencies)[v]?)
        (((indegrees sources dependencies).toList.filter fun p => p.2 = 0).map (·.1))) := by
    refine Kahn.serve_sorted (fun node => ?_) ?_ (getElem?_indegrees sources dependencies) ?_ fun v => ?_
    · rw [consumersOf, getD_downstream]
      simp
    · rw [graphNodes, ExtTreeSet.length_toList]
      omega
    · have hkeys : (indegrees sources dependencies).keys.Nodup := ExtTreeMap.nodup_keys
      rw [← ExtTreeMap.map_fst_toList_eq_keys] at hkeys
      exact hkeys.sublist (List.filter_sublist.map _)
    · simp only [List.mem_map, List.mem_filter, Prod.exists, ExtTreeMap.mem_toList_iff_getElem?_eq_some,
        getElem?_indegrees]
      constructor
      · rintro ⟨w, n, ⟨hw, hn⟩, rfl⟩
        split at hw
        next hm =>
          obtain rfl := Option.some.inj hw
          exact ⟨hm, by simpa using hn⟩
        next => cases hw
      · rintro ⟨hv, hz⟩
        exact ⟨v, 0, ⟨by rw [if_pos hv, hz], rfl⟩, rfl⟩
  refine ⟨_, hsorted, ?_⟩
  rw [← serve_eq, ← size_tabulated (nodup_graphNodes sources dependencies)]
  rfl

end Galadril.Registry.Pipeline
