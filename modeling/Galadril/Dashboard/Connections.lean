import Galadril.Dashboard.PipelineGraphs
import Galadril.Lib.DepthFirst
import Galadril.Lib.Lookup

namespace Galadril.Dashboard

open Json Lib Lib.Checked

structure Connects (nodes : List GraphNode) (before : List GraphEdge) (e : GraphEdge) (source target : GraphNode) : Prop where
  source_eq : nodes.find? (fun node => node.id = e.source) = some source
  target_eq : nodes.find? (fun node => node.id = e.target) = some target
  open_ : source.stepType ≠ "pipeline" ∧ target.stepType ≠ "source" ∧ isScheduled target.config = false
  handles : namesHandle e.targetHandle = false ∧ (source.stepType = "route" ∨ namesHandle e.sourceHandle = false)
  fresh : ∀ e' ∈ before, ¬ (e'.source = e.source ∧ e'.target = e.target ∧ e'.sourceHandle.getD "" = e.sourceHandle.getD "")
  branch : Accepts (checkBranch source e)
  joins : (((before ++ [e]).filter fun e' => e'.target = e.target).map GraphEdge.source).eraseDups.length ≤ 1 ∨
    mergesUnion target = true

variable {nodes : List GraphNode} {before edges : List GraphEdge} {e : GraphEdge}

theorem checkEdge_eq_ok {after : List GraphEdge} : checkEdge nodes before e = .ok after ↔
    after = before ++ [e] ∧ ∃ source target, Connects nodes before e source target := by
  simp only [checkEdge, bind_eq_ok, context_eq_ok, ensure_eq_ok, pure_eq_ok]
  constructor
  · rintro ⟨source, hsource, target, htarget, _, hopen, _, hhandles, _, hfresh, _, hbranch, _, hjoins, rfl⟩
    refine ⟨rfl, source, target, hsource, htarget, ?_, ?_, ?_, ⟨_, hbranch⟩, ?_⟩
    · simpa [and_assoc] using hopen
    · simpa using hhandles
    · simpa using hfresh
    · simpa using hjoins
  · rintro ⟨rfl, source, target, hsource, htarget, hopen, hhandles, hfresh, ⟨_, hbranch⟩, hjoins⟩
    refine ⟨source, hsource, target, htarget, (), ?_, (), ?_, (), ?_, _, hbranch, (), ?_, rfl⟩
    · simpa [and_assoc] using hopen
    · simpa using hhandles
    · simpa using hfresh
    · simpa using hjoins

theorem foldlM_checkEdge {acc : List GraphEdge} : Accepts (edges.foldlM (checkEdge nodes) acc) ↔
    ∀ before e after, edges = before ++ e :: after → ∃ source target, Connects nodes (acc ++ before) e source target := by
  induction edges generalizing acc with
  | nil => exact iff_of_true (accepts_ok acc) fun before e after heq => by simp at heq
  | cons first edges ih =>
      rw [List.foldlM_cons, accepts_bind]
      constructor
      · rintro ⟨acc', hfirst, hrest⟩ before e after heq
        obtain ⟨rfl, hconnects⟩ := checkEdge_eq_ok.mp hfirst
        cases before with
        | nil =>
            obtain ⟨rfl, rfl⟩ := List.cons.inj heq
            rwa [List.append_nil]
        | cons x before =>
            obtain ⟨rfl, htail⟩ := List.cons.inj heq
            have hconnects := ih.mp hrest before e after htail
            rwa [List.append_assoc, List.singleton_append] at hconnects
      · intro hall
        refine ⟨_, checkEdge_eq_ok.mpr ⟨rfl, ?_⟩, ih.mpr fun before e after heq => ?_⟩
        · have hconnects := hall [] first edges rfl
          rwa [List.append_nil] at hconnects
        · have hconnects := hall (first :: before) e after (by rw [heq]; rfl)
          rwa [List.append_assoc, List.singleton_append]

/-- Links that pass are all different. -/
theorem nodup_of_checked (h : Accepts (edges.foldlM (checkEdge nodes) [])) : edges.Nodup := by
  refine Lookup.nodup_of_fresh fun before e after heq hmem => ?_
  obtain ⟨source, target, hconnects⟩ := foldlM_checkEdge.mp h before e after heq
  exact hconnects.fresh e hmem ⟨rfl, rfl, rfl⟩

theorem checked_of_validated {nodes : List GraphNode} (h : Accepts (validateConnections nodes edges)) :
    Accepts (edges.foldlM (checkEdge nodes) []) := by
  simp only [validateConnections, accepts_bind] at h
  obtain ⟨_, -, _, -, _, -, links, hlinks, -⟩ := h
  exact ⟨links, hlinks⟩

section Order

open Kahn

variable {downstream : String → List String}

theorem mem_foldl_release {children : List String} {degree : String → Option Nat} {ready : List String} {id : String}
    (h : id ∈ (children.foldl release (degree, ready)).2) : id ∈ ready ∨ id ∈ children := by
  induction children generalizing degree ready with
  | nil => exact .inl h
  | cons child children ih =>
      rw [List.foldl_cons] at h
      rcases ih h with hmem | hmem
      · have hrelease : (release (degree, ready) child).2 = ready ∨ (release (degree, ready) child).2 = ready ++ [child] := by
          unfold release
          split
          · exact .inl rfl
          · simp only
            split
            · exact .inr rfl
            · exact .inl rfl
        rcases hrelease with heq | heq
        · exact .inl (heq ▸ hmem)
        · have hlater : id ∈ ready ++ [child] := heq ▸ hmem
          rcases List.mem_append.mp hlater with hold | hnew
          · exact .inl hold
          · rw [List.mem_singleton.mp hnew]
            exact .inr List.mem_cons_self
      · exact .inr (List.mem_cons_of_mem _ hmem)

/-- Blocks with names are visited in the order in which they are served. -/
theorem visit_eq_serve (hdown : ∀ id, ∀ child ∈ downstream id, child ≠ "") {n : Nat} {degree : String → Option Nat}
    {ready : List String}
    (hready : ∀ id ∈ ready, id ≠ "") : visit downstream n degree ready = serve downstream n degree ready := by
  induction n generalizing degree ready with
  | zero => rfl
  | succ n ih =>
      cases ready with
      | nil => rfl
      | cons id ready =>
          obtain ⟨hid, hrest⟩ := List.forall_mem_cons.mp hready
          simp only [visit, if_neg hid, serve]
          rw [ih]
          intro id' hid'
          exact (mem_foldl_release hid').elim (hrest id') (hdown id id')

variable {ids : List String} {edges : List GraphEdge}

/-- All blocks are visited if no block leads to itself. -/
theorem visit_length (hnodup : ids.Nodup) (hne : ∀ id ∈ ids, id ≠ "") (hknown : ∀ e ∈ edges, e.source ∈ ids ∧ e.target ∈ ids)
    (hacc : ∀ v, Acc (fun u v => ∃ e ∈ edges, e.source = u ∧ e.target = v) v) :
    (visit (fun id => (edges.filter fun edge => edge.source = id).map GraphEdge.target) ids.length
      (fun id => if id ∈ ids then some (edges.countP fun edge => edge.target = id) else none)
      (ids.filter fun id => (if id ∈ ids then some (edges.countP fun edge => edge.target = id) else none) =
        some 0)).length = ids.length := by
  let pairs := edges.map fun e => (e.source, e.target)
  have hpairs : ∀ u v, (u, v) ∈ pairs ↔ ∃ e ∈ edges, e.source = u ∧ e.target = v := by simp [pairs]
  have hmissing : ∀ id, (edges.countP fun edge => edge.target = id) = missing pairs [] id := by
    intro id
    simp [missing, pairs, List.countP_map, Function.comp_def]
  have hlisted : ∀ order, Sorted ids pairs order → order.length = ids.length := by
    intro order hsorted
    refine (hsorted.length_eq_iff hnodup).mpr fun v hv => hsorted.complete (fun u v huv _ => ?_) (fun v _ => ?_) hv
    · obtain ⟨e, he, rfl, rfl⟩ := (hpairs u v).mp huv
      exact (hknown e he).1
    · exact Subrelation.accessible (fun huv => (hpairs _ _).mp huv) (hacc v)
  simp only [hmissing]
  rw [visit_eq_serve]
  · refine hlisted _ (serve_sorted (fun id => ?_) le_rfl (fun v => rfl) (hnodup.filter _) fun v => ?_)
    · simp [children, pairs, List.filter_map, Function.comp_def]
    · rw [List.mem_filter]
      by_cases hv : v ∈ ids <;> simp [hv]
  · intro id child hchild
    obtain ⟨e, he, rfl⟩ := List.mem_map.mp hchild
    exact hne _ (hknown e (List.mem_of_mem_filter he)).2
  · exact fun id hid => hne id (List.mem_of_mem_filter hid)

/-- A block without a name is passed over, as one that leads nowhere. -/
theorem visit_eq_filter {n : Nat} {degree : String → Option Nat} {ready : List String} : visit downstream n degree ready =
    (serve (fun id => if id = "" then [] else downstream id) n degree ready).filter (· ≠ "") := by
  induction n generalizing degree ready with
  | zero => rfl
  | succ n ih =>
      cases ready with
      | nil => rfl
      | cons id ready =>
          by_cases hid : id = ""
          · subst hid
            rw [visit, serve, if_pos rfl, ih]
            rfl
          · rw [visit, serve]
            simp only [hid, if_false, ih]
            rw [@List.filter_cons_of_pos _ (fun x => decide (x ≠ "")) _ _ (decide_eq_true hid)]

theorem serve_congr {downstream' : String → List String} {p : String → Prop}
    (hp : ∀ id, p id → downstream id = downstream' id ∧ ∀ child ∈ downstream id, p child) {n : Nat} {degree : String → Option Nat}
    {ready : List String} (hready : ∀ id ∈ ready, p id) : serve downstream n degree ready = serve downstream' n degree ready := by
  induction n generalizing degree ready with
  | zero => rfl
  | succ n ih =>
      cases ready with
      | nil => rfl
      | cons id ready =>
          obtain ⟨hid, hrest⟩ := List.forall_mem_cons.mp hready
          obtain ⟨heq, hchildren⟩ := hp id hid
          simp only [serve, ← heq]
          rw [ih]
          intro id' hid'
          exact (mem_foldl_release hid').elim (hrest id') (hchildren id')

/-- What follows a block without a name waits for something that never comes. -/
def redirected (outside : String) (edges : List GraphEdge) : List (String × String) :=
  edges.map fun e => (if e.source = "" then outside else e.source, e.target)

variable {outside : String}

theorem children_redirected {id : String} (hid : id ≠ outside) :
    (if id = "" then [] else (edges.filter fun edge => edge.source = id).map GraphEdge.target) = children
    (redirected outside edges) id := by
  simp only [children, redirected, List.filter_map, List.map_map, Function.comp_def]
  split
  · next hempty =>
    rw [eq_comm, List.map_eq_nil_iff, List.filter_eq_nil_iff]
    intro e he hsource
    have hsource := of_decide_eq_true hsource
    split at hsource
    · exact hid hsource.symm
    · next hne => exact hne (hsource.trans hempty)
  · next hne =>
    congr 1
    refine List.filter_congr fun e he => ?_
    by_cases hsource : e.source = ""
    · simp [hsource, Ne.symm hne, Ne.symm hid]
    · simp [hsource]

theorem serve_redirected (hout : outside ∉ ids) (hknown : ∀ e ∈ edges, e.source ∈ ids ∧ e.target ∈ ids) {n : Nat}
    (hfuel : ids.length ≤ n)
    {ready : List String} (hready : ready.Nodup)
    (hmem : ∀ id, id ∈ ready ↔ id ∈ ids ∧ (edges.countP fun edge => edge.target = id) = 0) :
    Sorted ids (redirected outside edges)
      (serve (fun id => if id = "" then [] else (edges.filter fun edge => edge.source = id).map GraphEdge.target) n
        (fun id => if id ∈ ids then some (edges.countP fun edge => edge.target = id) else none) ready) := by
  have hmissing : ∀ id, (edges.countP fun edge => edge.target = id) = missing (redirected outside edges) [] id := by
    intro id
    simp [missing, redirected, List.countP_map, Function.comp_def]
  simp only [hmissing] at hmem ⊢
  rw [@serve_congr _ (children (redirected outside edges)) (· ≠ outside)]
  · exact serve_sorted (fun id => rfl) hfuel (fun v => rfl) hready hmem
  · intro id hid
    refine ⟨children_redirected hid, fun child hchild => ?_⟩
    split at hchild
    · cases hchild
    · obtain ⟨e, he, rfl⟩ := List.mem_map.mp hchild
      rintro rfl
      exact hout (hknown e (List.mem_of_mem_filter he)).2
  · rintro id hid rfl
    exact hout ((hmem _).mp hid).1

/-- Blocks are all visited only if they have names and none leads to itself. -/
theorem of_visit_length (hnodup : ids.Nodup) (hknown : ∀ e ∈ edges, e.source ∈ ids ∧ e.target ∈ ids)
    (h : (visit (fun id => (edges.filter fun edge => edge.source = id).map GraphEdge.target) ids.length
      (fun id => if id ∈ ids then some (edges.countP fun edge => edge.target = id) else none)
      (ids.filter fun id => (if id ∈ ids then some (edges.countP fun edge => edge.target = id) else none) =
        some 0)).length = ids.length) :
    (∀ id ∈ ids, id ≠ "") ∧ ∀ v, Acc (fun u v => ∃ e ∈ edges, e.source = u ∧ e.target = v) v := by
  obtain ⟨outside, houtside⟩ := Infinite.exists_notMem_finset ids.toFinset
  rw [List.mem_toFinset] at houtside
  have hsorted := serve_redirected houtside hknown le_rfl (hnodup.filter fun id =>
    (if id ∈ ids then some (edges.countP fun edge => edge.target = id) else none) = some 0) fun id => by
      rw [List.mem_filter]
      by_cases hv : id ∈ ids <;> simp [hv]
  rw [visit_eq_filter] at h
  have hlength := (hsorted.distinct.subperm fun v hv => ((hsorted.settled v).mp hv).1).length_le
  have hkept := le_antisymm (List.length_filter_le _ _) (hlength.trans h.ge)
  have hserved := (hsorted.length_eq_iff hnodup).mp (hkept.symm.trans h)
  have hne : ∀ id ∈ ids, id ≠ "" := fun id hid => of_decide_eq_true (List.length_filter_eq_length_iff.mp hkept id (hserved id hid))
  refine ⟨hne, fun v => ?_⟩
  have hpairs : ∀ {u v}, (∃ e ∈ edges, e.source = u ∧ e.target = v) → (u, v) ∈ redirected outside edges := by
    rintro u v ⟨e, he, rfl, rfl⟩
    refine List.mem_map.mpr ⟨e, he, ?_⟩
    rw [if_neg (hne _ (hknown e he).1)]
  by_cases hv : v ∈ ids
  · exact Subrelation.accessible hpairs (hsorted.ordered.acc (hserved v hv))
  -- no link leads out of the graph
  · refine ⟨v, ?_⟩
    rintro u ⟨e, he, -, rfl⟩
    exact absurd (hknown e he).2 hv

end Order

section Exact

open Relation

variable {nodes : List GraphNode} {edges : List GraphEdge}

def linkKey (e : GraphEdge) : String × String × String := (e.source, e.target, e.sourceHandle.getD "")

def Leads (edges : List GraphEdge) (u v : String) : Prop := ∃ e ∈ edges, e.source = u ∧ e.target = v

structure Joins (nodes : List GraphNode) (e : GraphEdge) (source target : GraphNode) : Prop where
  source_mem : source ∈ nodes ∧ source.id = e.source
  target_mem : target ∈ nodes ∧ target.id = e.target
  leaves : source.stepType ≠ "pipeline"
  enters : target.stepType ≠ "source" ∧ isScheduled target.config = false
  record : namesHandle e.targetHandle = false
  label : if source.stepType = "route" then ∃ labels, branchLabels source.config = .ok labels ∧ e.sourceHandle.getD "" ∈ labels
    else namesHandle e.sourceHandle = false

/-- A graph that the editor accepts, whatever the order of its blocks and links. -/
structure Connected (nodes : List GraphNode) (edges : List GraphEdge) : Prop where
  bounded : nodes.length ≤ 256
  transfers : (nodes.filter fun node => node.stepType = "pipeline").length ≤ 3
  distinct : (nodes.map GraphNode.id).Nodup
  named : ∀ node ∈ nodes, node.id ≠ ""
  joins : ∀ e ∈ edges, ∃ source target, Joins nodes e source target
  single : (edges.map linkKey).Nodup
  merged : ∀ target ∈ nodes, mergesUnion target = false → ∀ e ∈ edges, ∀ e' ∈ edges, e.target = target.id → e'.target = target.id →
    e.source = e'.source
  acyclic : ∀ v, ¬ TransGen (Leads edges) v v

theorem eraseDups_length {names : List String} : names.eraseDups.length ≤ 1 ↔ ∀ a ∈ names, ∀ b ∈ names, a = b := by
  constructor
  · intro h a ha b hb
    have ha' := List.mem_eraseDups.mpr ha
    have hb' := List.mem_eraseDups.mpr hb
    obtain ⟨c, hc⟩ := List.length_eq_one_iff.mp (le_antisymm h (List.length_pos_of_mem ha'))
    rw [hc, List.mem_singleton] at ha' hb'
    rw [ha', hb']
  · intro h
    have hnodup := Lookup.nodup_eraseDups names
    cases hnames : names.eraseDups with
    | nil => simp
    | cons a rest =>
        cases rest with
        | nil => simp
        | cons b rest =>
            rw [hnames, List.nodup_cons] at hnodup
            have ha : a ∈ names := List.mem_eraseDups.mp (by rw [hnames]; exact List.mem_cons_self)
            have hb : b ∈ names := List.mem_eraseDups.mp (by rw [hnames]; simp)
            exact absurd (h a ha b hb ▸ List.mem_cons_self) hnodup.1

variable {before : List GraphEdge} {e : GraphEdge} {source target : GraphNode}

theorem checkBranch_accepts : Accepts (checkBranch source e) ↔
    (source.stepType = "route" → ∃ labels, branchLabels source.config = .ok labels ∧ e.sourceHandle.getD "" ∈ labels) := by
  rw [checkBranch]
  split
  · next hroute => simp [hroute, accepts_bind]
  · next hroute => exact iff_of_true (accepts_ok ()) fun h => absurd h hroute

theorem connects_iff (hdistinct : (nodes.map GraphNode.id).Nodup) : Connects nodes before e source target ↔
    Joins nodes e source target ∧ (∀ e' ∈ before, linkKey e' ≠ linkKey e) ∧
      (mergesUnion target = false → ∀ e' ∈ before, e'.target = e.target → e'.source = e.source) ∧
      (mergesUnion target = false → ∀ e' ∈ before, ∀ e'' ∈ before, e'.target = e.target → e''.target = e.target →
        e'.source = e''.source) := by
  have hfind : ∀ id node, nodes.find? (fun node => node.id = id) = some node ↔ node ∈ nodes ∧ node.id = id := fun id node =>
    Lookup.find?_eq_some_iff_of_nodup hdistinct
  have hkeys : ∀ e', linkKey e' ≠ linkKey e ↔
      ¬ (e'.source = e.source ∧ e'.target = e.target ∧ e'.sourceHandle.getD "" = e.sourceHandle.getD "") := by simp [linkKey]
  have hparents : ((((before ++ [e]).filter fun e' => e'.target = e.target).map GraphEdge.source).eraseDups.length ≤
    1 ∨ mergesUnion target = true) ↔
      (mergesUnion target = false → ∀ e' ∈ before, e'.target = e.target → e'.source = e.source) ∧
      (mergesUnion target = false → ∀ e' ∈ before, ∀ e'' ∈ before, e'.target = e.target → e''.target = e.target →
        e'.source = e''.source) := by
    rw [eraseDups_length]
    cases mergesUnion target with
    | true => simp
    | false =>
        simp only [Bool.false_eq_true, or_false, forall_const, List.mem_map, List.mem_filter, List.mem_append, List.mem_singleton,
          decide_eq_true_eq]
        constructor
        · intro h
          refine ⟨fun e' he' ht => h _ ⟨e', ⟨.inl he', ht⟩, rfl⟩ _ ⟨e, ⟨.inr rfl, rfl⟩, rfl⟩, fun e' he' e'' he'' ht ht' => ?_⟩
          exact h _ ⟨e', ⟨.inl he', ht⟩, rfl⟩ _ ⟨e'', ⟨.inl he'', ht'⟩, rfl⟩
        · rintro ⟨hlast, hall⟩ a ⟨e', ⟨he', ht⟩, rfl⟩ b ⟨e'', ⟨he'', ht'⟩, rfl⟩
          rcases he' with he' | rfl
          · rcases he'' with he'' | rfl
            · exact hall e' he' e'' he'' ht ht'
            · exact hlast e' he' ht
          · rcases he'' with he'' | rfl
            · exact (hlast e'' he'' ht').symm
            · rfl
  constructor
  · rintro ⟨hsource, htarget, hopen, hhandles, hfresh, hbranch, hjoins⟩
    refine ⟨⟨(hfind _ _).mp hsource, (hfind _ _).mp htarget, hopen.1, hopen.2, hhandles.1, ?_⟩,
      fun e' he' => (hkeys e').mpr (hfresh e' he'), hparents.mp hjoins⟩
    split
    · next hroute => exact checkBranch_accepts.mp hbranch hroute
    · next hroute => exact hhandles.2.resolve_left hroute
  · rintro ⟨⟨hsource, htarget, hleaves, henters, hrecord, hlabel⟩, hfresh, hjoins⟩
    refine ⟨(hfind _ _).mpr hsource, (hfind _ _).mpr htarget, ⟨hleaves, henters⟩, ⟨hrecord, ?_⟩,
      fun e' he' => (hkeys e').mp (hfresh e' he'), checkBranch_accepts.mpr fun hroute => ?_, hparents.mpr hjoins⟩
    · by_cases hroute : source.stepType = "route"
      · exact .inl hroute
      · rw [if_neg hroute] at hlabel
        exact .inr hlabel
    · rwa [if_pos hroute] at hlabel

theorem nodup_map_iff {β γ : Type} {f : β → γ} {xs : List β} :
    (xs.map f).Nodup ↔ ∀ before x after, xs = before ++ x :: after → ∀ y ∈ before, f y ≠ f x := by
  constructor
  · rintro h before x after rfl y hy heq
    rw [List.map_append, List.map_cons, List.nodup_append] at h
    exact h.2.2 _ (List.mem_map_of_mem hy) _ List.mem_cons_self heq
  · intro h
    refine Lookup.nodup_of_fresh fun before x after heq hmem => ?_
    obtain ⟨xs₁, xs₂, rfl, rfl, hcons⟩ := List.map_eq_append_iff.mp heq
    obtain ⟨y, xs₃, rfl, rfl, rfl⟩ := List.map_eq_cons_iff.mp hcons
    obtain ⟨z, hz, hzeq⟩ := List.mem_map.mp hmem
    exact h xs₁ y xs₃ rfl z hz hzeq

/-- The links pass if each has its blocks, none is drawn twice and only unions
have several inputs. -/
theorem checked_iff (hdistinct : (nodes.map GraphNode.id).Nodup) : Accepts (edges.foldlM (checkEdge nodes) []) ↔
    (∀ e ∈ edges, ∃ source target, Joins nodes e source target) ∧ (edges.map linkKey).Nodup ∧
      ∀ target ∈ nodes, mergesUnion target = false → ∀ e ∈ edges, ∀ e' ∈ edges, e.target = target.id → e'.target = target.id →
        e.source = e'.source := by
  rw [foldlM_checkEdge]
  simp only [List.nil_append, connects_iff hdistinct]
  have hunique : ∀ {target target' : GraphNode}, target ∈ nodes → target' ∈ nodes → target.id = target'.id → target = target' :=
    fun ht ht' heq => List.inj_on_of_nodup_map hdistinct ht ht' heq
  constructor
  · intro h
    refine ⟨fun e he => ?_, nodup_map_iff.mpr fun before e after heq => ?_,
      fun target ht hmerges e he e' he' htarget htarget' => ?_⟩
    · obtain ⟨before, after, heq⟩ := List.append_of_mem he
      obtain ⟨source, target, hjoins, -⟩ := h before e after heq
      exact ⟨source, target, hjoins⟩
    · obtain ⟨source, target, -, hfresh, -⟩ := h before e after heq
      exact hfresh
    -- the later of the two links is checked against the earlier one
    · obtain ⟨before, after, heq⟩ := List.append_of_mem he
      have hlater : ∀ before e after, edges = before ++ e :: after → e.target = target.id → ∀ e' ∈ before, e'.target = target.id →
          e'.source = e.source := by
        intro before e after heq htarget e' he' htarget'
        obtain ⟨source, node, hjoins, -, hlast, -⟩ := h before e after heq
        obtain rfl := hunique hjoins.target_mem.1 ht (hjoins.target_mem.2.trans htarget)
        exact hlast hmerges e' he' (htarget'.trans htarget.symm)
      rw [heq, List.mem_append, List.mem_cons] at he'
      rcases he' with hbefore | rfl | hafter
      · exact (hlater before e after heq htarget e' hbefore htarget').symm
      · rfl
      · obtain ⟨between, rest, rfl⟩ := List.append_of_mem hafter
        refine hlater (before ++ e :: between) e' rest (by rw [heq]; simp) htarget' e (by simp) htarget
  · rintro ⟨hjoins, hsingle, hmerged⟩ before e after heq
    have hmem : ∀ e' ∈ before, e' ∈ edges := fun e' he' => heq ▸ List.mem_append_left _ he'
    have he : e ∈ edges := heq ▸ List.mem_append_right _ List.mem_cons_self
    obtain ⟨source, target, hjoin⟩ := hjoins e he
    obtain ⟨ht, hid⟩ := hjoin.target_mem
    refine ⟨source, target, hjoin, nodup_map_iff.mp hsingle before e after heq, fun hmerges e' he' htarget => ?_,
      fun hmerges e' he' e'' he'' htarget htarget' => ?_⟩
    · exact hmerged target ht hmerges e' (hmem e' he') e he (htarget.trans hid.symm) hid.symm
    · exact hmerged target ht hmerges e' (hmem e' he') e'' (hmem e'' he'') (htarget.trans hid.symm) (htarget'.trans hid.symm)

theorem Connected.ids (hjoins : ∀ e ∈ edges, ∃ source target, Joins nodes e source target) :
    ∀ e ∈ edges, e.source ∈ nodes.map GraphNode.id ∧ e.target ∈ nodes.map GraphNode.id := by
  intro e he
  obtain ⟨source, target, hjoin⟩ := hjoins e he
  exact ⟨List.mem_map.mpr ⟨source, hjoin.source_mem⟩, List.mem_map.mpr ⟨target, hjoin.target_mem⟩⟩

theorem acyclic_iff (hjoins : ∀ e ∈ edges, ∃ source target, Joins nodes e source target) :
    (∀ v, ¬ TransGen (Leads edges) v v) ↔ ∀ v, Acc (Leads edges) v := by
  refine @Cycles.acyclic_iff_acc _ _ (nodes.map GraphNode.id) fun u v huv => ?_
  obtain ⟨e, he, -, rfl⟩ := huv
  exact (Connected.ids hjoins e he).2

theorem Connected.of_validated (h : Accepts (validateConnections nodes edges)) : Connected nodes edges := by
  simp only [validateConnections, accepts_bind, ensure_eq_ok, exists_const, decide_eq_true_eq, accepts_ensure] at h
  obtain ⟨hbounded, htransfers, hdistinct, links, hchecked, hvisited⟩ := h
  obtain ⟨hjoins, hsingle, hmerged⟩ := (checked_iff hdistinct).mp ⟨links, hchecked⟩
  rw [← List.length_map GraphNode.id] at hvisited
  obtain ⟨hnamed, hacc⟩ := of_visit_length hdistinct (Connected.ids hjoins) hvisited
  exact ⟨hbounded, htransfers, hdistinct, fun node hnode => hnamed _ (List.mem_map_of_mem hnode), hjoins, hsingle, hmerged,
    (acyclic_iff hjoins).mpr hacc⟩

theorem Connected.validated (h : Connected nodes edges) : Accepts (validateConnections nodes edges) := by
  simp only [validateConnections, accepts_bind, ensure_eq_ok, exists_const, decide_eq_true_eq, accepts_ensure]
  obtain ⟨links, hchecked⟩ := (checked_iff h.distinct).mpr ⟨h.joins, h.single, h.merged⟩
  have hnamed : ∀ id ∈ nodes.map GraphNode.id, id ≠ "" := by
    intro id hid
    obtain ⟨node, hnode, rfl⟩ := List.mem_map.mp hid
    exact h.named node hnode
  refine ⟨h.bounded, h.transfers, h.distinct, links, hchecked, ?_⟩
  rw [← List.length_map GraphNode.id]
  exact visit_length h.distinct hnamed (Connected.ids h.joins) ((acyclic_iff h.joins).mp h.acyclic)

/-- The editor accepts a graph exactly if its blocks are few and have
different names, each link joins blocks that may be joined, and nothing leads
back to itself. -/
theorem validateConnections_iff : Accepts (validateConnections nodes edges) ↔ Connected nodes edges :=
  ⟨.of_validated, Connected.validated⟩

end Exact

end Galadril.Dashboard
