import Mathlib

namespace Galadril.Lib.Kahn

variable {α : Type} [DecidableEq α]

def release (acc : (α → Option Nat) × List α) (child : α) : (α → Option Nat) × List α :=
  match acc.1 child with
  | none => acc
  | some degree =>
      (Function.update acc.1 child (some (degree - 1)), if degree - 1 = 0 then acc.2 ++ [child] else acc.2)

/-- Serve ready nodes, oldest first. The first argument bounds their number. -/
def serve (downstream : α → List α) : Nat → (α → Option Nat) → List α → List α
  | 0, _, _ => []
  | _, _, [] => []
  | n + 1, degree, node :: ready =>
      let next := (downstream node).foldl release (degree, ready)
      node :: serve downstream n next.1 next.2

/-- The number of inputs a node still waits for. -/
def missing (edges : List (α × α)) (served : List α) (v : α) : Nat :=
  edges.countP fun e => e.2 = v ∧ e.1 ∉ served

def children (edges : List (α × α)) (node : α) : List α := (edges.filter fun e => e.1 = node).map (·.2)

def Ordered (edges : List (α × α)) (order : List α) : Prop :=
  ∀ before v after, order = before ++ v :: after → ∀ u, (u, v) ∈ edges → u ∈ before

/-- Releasing a list of children lowers their degrees and appends those that
reach zero. -/
theorem foldl_release (cs : List α) (degree : α → Option Nat) (ready : List α)
    (hle : ∀ v d, degree v = some d → cs.count v ≤ d) :
    (cs.foldl release (degree, ready)).1 = (fun v => (degree v).map (· - cs.count v)) ∧
      ∃ extra, (cs.foldl release (degree, ready)).2 = ready ++ extra ∧ extra.Nodup ∧
        ∀ v, v ∈ extra ↔ 0 < cs.count v ∧ degree v = some (cs.count v) := by
  induction cs generalizing degree ready with
  | nil => simp
  | cons c cs ih =>
      rw [List.foldl_cons]
      cases hc : degree c with
      | none =>
          have hr : release (degree, ready) c = (degree, ready) := by simp [release, hc]
          have hcount : ∀ v, (degree v).isSome → (c :: cs).count v = cs.count v := by
            intro v hv
            refine List.count_cons_of_ne fun he => ?_
            rw [← he, hc] at hv
            simp at hv
          obtain ⟨hdegree, extra, hready, hnd, hmem⟩ := ih degree ready fun v d hd => by
            rw [← hcount v (by simp [hd])]
            exact hle v d hd
          rw [hr]
          refine ⟨hdegree.trans (funext fun v => ?_), extra, hready, hnd, fun v => ?_⟩
          · cases hv : degree v with
            | none => rfl
            | some d => rw [hcount v (by simp [hv])]
          · rw [hmem]
            cases hv : degree v with
            | none => simp
            | some d => rw [hcount v (by simp [hv])]
      | some d =>
          have hd : cs.count c + 1 ≤ d := by simpa using hle c d hc
          have hr : release (degree, ready) c = (Function.update degree c (some (d - 1)),
              if d - 1 = 0 then ready ++ [c] else ready) := by simp [release, hc]
          have hle' : ∀ v e, Function.update degree c (some (d - 1)) v = some e → cs.count v ≤ e := by
            intro v e he
            by_cases hv : v = c
            · subst hv
              rw [Function.update_self, Option.some.injEq] at he
              omega
            · rw [Function.update_of_ne hv] at he
              have := hle v e he
              rwa [List.count_cons_of_ne (Ne.symm hv)] at this
          have hdegree' : ∀ v, (Function.update degree c (some (d - 1)) v).map (· - cs.count v) =
              (degree v).map (· - (c :: cs).count v) := by
            intro v
            by_cases hv : v = c
            · subst hv
              rw [Function.update_self, hc, Option.map_some, Option.map_some, List.count_cons_self]
              congr 1
              omega
            · rw [Function.update_of_ne hv, List.count_cons_of_ne (Ne.symm hv)]
          rw [hr]
          split
          next hz =>
            -- the child reaches zero with this release, so it is not released again
            have habsent : cs.count c = 0 := by omega
            obtain ⟨hdegree, extra, hready, hnd, hmem⟩ := ih _ (ready ++ [c]) hle'
            refine ⟨hdegree.trans (funext hdegree'), c :: extra, by rw [hready, List.append_assoc]; rfl,
              List.nodup_cons.mpr ⟨fun hx => ?_, hnd⟩, fun v => ?_⟩
            · have := ((hmem c).mp hx).1
              omega
            · by_cases hv : v = c
              · subst hv
                simp only [List.mem_cons_self, List.count_cons_self, hc, Option.some.injEq, true_iff]
                omega
              · rw [List.mem_cons, hmem, Function.update_of_ne hv, List.count_cons_of_ne (Ne.symm hv)]
                simp [hv]
          next hz =>
            obtain ⟨hdegree, extra, hready, hnd, hmem⟩ := ih _ ready hle'
            refine ⟨hdegree.trans (funext hdegree'), extra, hready, hnd, fun v => ?_⟩
            rw [hmem]
            by_cases hv : v = c
            · subst hv
              rw [Function.update_self, hc, List.count_cons_self, Option.some.injEq, Option.some.injEq]
              omega
            · rw [Function.update_of_ne hv, List.count_cons_of_ne (Ne.symm hv)]

theorem missing_cons (x y : α) (edges : List (α × α)) (served : List α) (v : α) :
    missing ((x, y) :: edges) served v = missing edges served v + if y = v ∧ x ∉ served then 1 else 0 := by
  simp [missing, List.countP_cons]

theorem count_children_cons (x y : α) (edges : List (α × α)) (node v : α) :
    (children ((x, y) :: edges) node).count v =
      (children edges node).count v + if x = node ∧ y = v then 1 else 0 := by
  by_cases hx : x = node
  · simp [children, hx, List.count_cons]
  · simp [children, hx]

theorem missing_snoc (edges : List (α × α)) {served : List α} {node : α} (hnode : node ∉ served) (v : α) :
    missing edges (served ++ [node]) v + (children edges node).count v = missing edges served v := by
  induction edges with
  | nil => rfl
  | cons e edges ih =>
      obtain ⟨x, y⟩ := e
      rw [missing_cons, missing_cons, count_children_cons, ← ih]
      by_cases hx : x = node
      · subst hx
        simp only [List.mem_append, List.mem_singleton, or_true, not_true, and_false, if_false, hnode,
          not_false_iff, and_true, true_and]
        omega
      · simp only [List.mem_append, List.mem_singleton, hx, or_false, false_and, if_false]
        omega

theorem missing_eq_zero {edges : List (α × α)} {served : List α} {v : α} :
    missing edges served v = 0 ↔ ∀ u, (u, v) ∈ edges → u ∈ served := by
  simp only [missing, List.countP_eq_zero, decide_eq_true_eq, not_and, not_not]
  constructor
  · intro h u hu
    exact h (u, v) hu rfl
  · rintro h ⟨u, w⟩ he rfl
    exact h u he

omit [DecidableEq α] in
theorem Ordered.snoc {edges : List (α × α)} {order : List α} {v : α} (h : Ordered edges order)
    (hv : ∀ u, (u, v) ∈ edges → u ∈ order) : Ordered edges (order ++ [v]) := by
  intro before w after he u hu
  rcases List.eq_nil_or_concat after with rfl | ⟨after, z, rfl⟩
  · obtain ⟨rfl, hw⟩ := List.append_inj' he rfl
    cases hw
    exact hv u hu
  · have he' : order ++ [v] = (before ++ w :: after) ++ [z] := by simpa using he
    exact h before w after (List.append_inj' he' rfl).1 u hu

omit [DecidableEq α] in
/-- Nothing in an ordered list waits for itself, directly or through others. -/
theorem Ordered.acc {edges : List (α × α)} {order : List α} (h : Ordered edges order) {v : α} (hv : v ∈ order) :
    Acc (fun u v => (u, v) ∈ edges) v := by
  induction order using List.reverseRecOn generalizing v with
  | nil => cases hv
  | append_singleton order w ih =>
      have hinit : Ordered edges order := by
        intro before x after he u hu
        exact h before x (after ++ [w]) (by simp [he]) u hu
      rcases List.mem_append.mp hv with hv | hv
      · exact ih hinit hv
      · obtain rfl := List.mem_singleton.mp hv
        exact ⟨_, fun u hu => ih hinit (h order _ [] rfl u hu)⟩

variable {nodes : List α} {edges : List (α × α)} {downstream : α → List α}

structure Progress (nodes : List α) (edges : List (α × α)) (served ready : List α) (degree : α → Option Nat) :
    Prop where
  degree_eq : ∀ v, degree v = if v ∈ nodes then some (missing edges served v) else none
  distinct : (served ++ ready).Nodup
  settled : ∀ v, v ∈ served ++ ready ↔ v ∈ nodes ∧ missing edges served v = 0
  ordered : Ordered edges served

theorem Progress.step {served ready : List α} {degree : α → Option Nat} {node : α}
    (h : Progress nodes edges served (node :: ready) degree) :
    Progress nodes edges (served ++ [node]) ((children edges node).foldl release (degree, ready)).2
      ((children edges node).foldl release (degree, ready)).1 := by
  have hnode : node ∉ served := fun hm =>
    (List.nodup_append.mp h.distinct).2.2 node hm node List.mem_cons_self rfl
  have hmissing := missing_snoc edges hnode
  have hle : ∀ v d, degree v = some d → (children edges node).count v ≤ d := by
    intro v d hd
    have := h.degree_eq v
    rw [hd] at this
    split at this
    · obtain rfl := Option.some.inj this
      have := hmissing v
      omega
    · cases this
  obtain ⟨hdegree, extra, hready, hnd, hmem⟩ := foldl_release (children edges node) degree ready hle
  have hserved : ∀ u, (u, node) ∈ edges → u ∈ served :=
    missing_eq_zero.mp ((h.settled node).mp (by simp)).2
  rw [hready, hdegree]
  have hextra : ∀ v, v ∈ extra ↔ v ∈ nodes ∧ 0 < missing edges served v ∧ missing edges (served ++ [node]) v = 0 := by
    intro v
    rw [hmem, h.degree_eq]
    have := hmissing v
    split
    next hv =>
      simp only [hv, Option.some.injEq, true_and]
      omega
    next hv => simp [hv]
  refine ⟨fun v => ?_, ?_, fun v => ?_, h.ordered.snoc hserved⟩
  · simp only [h.degree_eq]
    split
    · have := hmissing v
      simp only [Option.map_some, Option.some.injEq]
      omega
    · rfl
  · rw [← List.append_assoc, List.append_assoc served, List.singleton_append, List.nodup_append]
    refine ⟨h.distinct, hnd, fun v hv w hw he => ?_⟩
    subst he
    have hz := ((h.settled v).mp hv).2
    have hp := ((hextra v).mp hw).2.1
    omega
  · have hold : v ∈ served ++ [node] ++ (ready ++ extra) ↔ v ∈ served ++ node :: ready ∨ v ∈ extra := by
      simp only [List.mem_append, List.mem_cons, List.not_mem_nil, or_false]
      tauto
    rw [hold, h.settled, hextra]
    have := hmissing v
    constructor
    · rintro (⟨hv, hz⟩ | ⟨hv, -, hz⟩)
      · exact ⟨hv, by omega⟩
      · exact ⟨hv, hz⟩
    · rintro ⟨hv, hz⟩
      by_cases hs : missing edges served v = 0
      · exact .inl ⟨hv, hs⟩
      · exact .inr ⟨hv, by omega, hz⟩

theorem serve_progress (hdown : ∀ node, downstream node = children edges node) {n : Nat}
    {served ready : List α} {degree : α → Option Nat} (h : Progress nodes edges served ready degree)
    (hfuel : nodes.length ≤ served.length + n) :
    ∃ degree', Progress nodes edges (served ++ serve downstream n degree ready) [] degree' := by
  induction n generalizing served ready degree with
  | zero =>
      have hsub : served ++ ready ⊆ nodes := fun v hv => ((h.settled v).mp hv).1
      have hlen := (h.distinct.subperm hsub).length_le
      rw [List.length_append] at hlen
      obtain rfl : ready = [] := List.eq_nil_of_length_eq_zero (by omega)
      exact ⟨degree, by simpa [serve] using h⟩
  | succ n ih =>
      cases ready with
      | nil => exact ⟨degree, by simpa [serve] using h⟩
      | cons node ready =>
          obtain ⟨degree', hp⟩ := ih h.step (by simp; omega)
          rw [serve, hdown]
          exact ⟨degree', by simpa using hp⟩

/-- What the algorithm returns when started with the nodes that wait for
nothing. -/
structure Sorted (nodes : List α) (edges : List (α × α)) (order : List α) : Prop where
  distinct : order.Nodup
  settled : ∀ v, v ∈ order ↔ v ∈ nodes ∧ ∀ u, (u, v) ∈ edges → u ∈ order
  ordered : Ordered edges order

theorem serve_sorted (hdown : ∀ node, downstream node = children edges node) {n : Nat} {ready : List α}
    {degree : α → Option Nat} (hfuel : nodes.length ≤ n)
    (hdegree : ∀ v, degree v = if v ∈ nodes then some (missing edges [] v) else none) (hready : ready.Nodup)
    (hmem : ∀ v, v ∈ ready ↔ v ∈ nodes ∧ missing edges [] v = 0) :
    Sorted nodes edges (serve downstream n degree ready) := by
  have hstart : Progress nodes edges [] ready degree :=
    ⟨hdegree, hready, hmem, fun before v after he => by simp at he⟩
  obtain ⟨degree', hp⟩ := serve_progress hdown hstart (by simpa using hfuel)
  rw [List.nil_append] at hp
  refine ⟨by simpa using hp.distinct, fun v => ?_, hp.ordered⟩
  have := hp.settled v
  rwa [List.append_nil, missing_eq_zero] at this

omit [DecidableEq α] in
/-- A graph without cycles is listed completely. -/
theorem Sorted.complete {order : List α} (h : Sorted nodes edges order)
    (hclosed : ∀ u v, (u, v) ∈ edges → v ∈ nodes → u ∈ nodes)
    (hacc : ∀ v ∈ nodes, Acc (fun u v => (u, v) ∈ edges) v) {v : α} (hv : v ∈ nodes) : v ∈ order := by
  induction hacc v hv with
  | intro v _ ih => exact (h.settled v).mpr ⟨hv, fun u hu => ih u hu (hclosed u v hu hv)⟩

omit [DecidableEq α] in
theorem Sorted.length_eq_iff {order : List α} (h : Sorted nodes edges order) (hnodes : nodes.Nodup) :
    order.length = nodes.length ↔ ∀ v ∈ nodes, v ∈ order := by
  have hsub : order ⊆ nodes := fun v hv => ((h.settled v).mp hv).1
  have hperm := h.distinct.subperm hsub
  constructor
  · intro he v hv
    exact (hperm.perm_of_length_le he.ge).mem_iff.mpr hv
  · intro hall
    exact le_antisymm hperm.length_le (hnodes.subperm hall).length_le

variable {order before : List α} {depth : α → Nat}

def lower (node : α) (depth : α → Nat) (child : α) : α → Nat := Function.update depth child (max (depth child) (depth node + 1))

theorem foldl_lower {cs : List α} {node : α} (hself : node ∉ cs) (v : α) :
    cs.foldl (lower node) depth v = if v ∈ cs then max (depth v) (depth node + 1) else depth v := by
  induction cs generalizing depth with
  | nil => rfl
  | cons c cs ih =>
      rw [List.mem_cons, not_or] at hself
      obtain ⟨hne, hrest⟩ := hself
      have hnode : lower node depth c node = depth node := Function.update_of_ne hne _ _
      rw [List.foldl_cons, ih hrest, hnode]
      by_cases hv : v = c
      · subst hv
        simp [lower]
      · simp [lower, hv]

/-- Depths are the lengths of the longest chains of served nodes. -/
structure Deep (edges : List (α × α)) (served : List α) (depth : α → Nat) : Prop where
  below : ∀ u ∈ served, ∀ v, (u, v) ∈ edges → depth u < depth v
  reached : ∀ v, 0 < depth v → ∃ u ∈ served, (u, v) ∈ edges ∧ depth v = depth u + 1

theorem Deep.serve {node : α} {after : List α} (h : Deep edges before depth) (hdistinct : order.Nodup)
    (hordered : Ordered edges order)
    (horder : order = before ++ node :: after) :
      Deep edges (before ++ [node]) ((children edges node).foldl (lower node) depth) := by
  have hfresh : ∀ v ∈ before ++ [node], v ∉ children edges node := by
    intro v hv hchild
    have hedge : (node, v) ∈ edges := by simpa [children] using hchild
    have hbefore : node ∈ before := by
      rcases List.mem_append.mp hv with hold | hnew
      · obtain ⟨first, rest, hsplit⟩ := List.append_of_mem hold
        have hfirst := hordered first v (rest ++ node :: after) (by rw [horder, hsplit]; simp) node hedge
        exact hsplit ▸ List.mem_append_left _ hfirst
      · obtain rfl := List.mem_singleton.mp hnew
        exact hordered before v after horder v hedge
    rw [horder, List.nodup_append] at hdistinct
    exact hdistinct.2.2 node hbefore node List.mem_cons_self rfl
  have hlower := @foldl_lower _ _ depth _ _ (hfresh node (by simp))
  have hkept : ∀ u ∈ before ++ [node], (children edges node).foldl (lower node) depth u = depth u := fun u hu => by
    rw [hlower, if_neg (hfresh u hu)]
  have hchild : ∀ v, v ∈ children edges node ↔ (node, v) ∈ edges := by simp [children]
  constructor
  · intro u hu v hedge
    rw [hkept u hu, hlower]
    rcases List.mem_append.mp hu with hold | hnew
    · have hbelow := h.below u hold v hedge
      split <;> omega
    · obtain rfl := List.mem_singleton.mp hnew
      rw [if_pos ((hchild v).mpr hedge)]
      omega
  · intro v hpos
    rw [hlower] at hpos ⊢
    by_cases hv : v ∈ children edges node ∧ depth v < depth node + 1
    · refine ⟨node, by simp, (hchild v).mp hv.1, ?_⟩
      rw [if_pos hv.1, hkept node (by simp)]
      omega
    · have hsame : (if v ∈ children edges node then max (depth v) (depth node + 1) else depth v) = depth v := by
        split
        · next hin => exact max_eq_left (by by_contra hlt; exact hv ⟨hin, by omega⟩)
        · rfl
      rw [hsame] at hpos ⊢
      obtain ⟨u, hu, hedge, heq⟩ := h.reached v hpos
      refine ⟨u, List.mem_append_left _ hu, hedge, ?_⟩
      rw [hkept u (List.mem_append_left _ hu), heq]

/-- Served in an order after their inputs, all nodes have the depths of their
longest chains. -/
theorem Ordered.deep (hordered : Ordered edges order) (hdistinct : order.Nodup) :
    Deep edges order (order.foldl (fun depth node => (children edges node).foldl (lower node) depth) fun _ => 0) := by
  suffices hrun : ∀ before after depth, order = before ++ after → Deep edges before depth →
      Deep edges order (after.foldl (fun depth node => (children edges node).foldl (lower node) depth) depth) from
    by
    refine hrun [] order _ rfl ⟨fun u hu => ?_, fun v hv => absurd hv (lt_irrefl 0)⟩
    cases hu
  intro before after depth horder h
  induction after generalizing before depth with
  | nil =>
      rw [List.append_nil] at horder
      exact horder ▸ h
  | cons node after ih => exact ih (before ++ [node]) _ (by rw [horder]; simp) (h.serve hdistinct hordered horder)

end Galadril.Lib.Kahn
