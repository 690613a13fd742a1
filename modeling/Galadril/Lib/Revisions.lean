import Galadril.Lib.Lookup

namespace Galadril.Lib.Revisions

variable {ι σ : Type}

structure Snapshot (ι σ : Type) where
  revisionId : ι
  state : σ

/-- A branch is a nonempty chain of immutable revisions, newest first. No
revision identity is ever issued twice. -/
structure Store (ι σ : Type) where
  head : Snapshot ι σ
  older : List (Snapshot ι σ)
  distinct : ((head :: older).map Snapshot.revisionId).Nodup

namespace Store

def all (s : Store ι σ) : List (Snapshot ι σ) := s.head :: s.older

def ids (s : Store ι σ) : List ι := s.all.map Snapshot.revisionId

def init (r : ι) (state : σ) : Store ι σ := ⟨⟨r, state⟩, [], by simp⟩

def push (s : Store ι σ) (r : ι) (state : σ) (fresh : r ∉ s.ids) : Store ι σ :=
  ⟨⟨r, state⟩, s.all, List.nodup_cons.mpr ⟨fresh, s.distinct⟩⟩

@[simp] theorem push_head (s : Store ι σ) (r : ι) (state : σ) (fresh : r ∉ s.ids) :
    (s.push r state fresh).head = ⟨r, state⟩ := rfl

@[simp] theorem push_older (s : Store ι σ) (r : ι) (state : σ) (fresh : r ∉ s.ids) :
    (s.push r state fresh).older = s.head :: s.older := rfl

@[simp] theorem all_push (s : Store ι σ) (r : ι) (state : σ) (fresh : r ∉ s.ids) :
    (s.push r state fresh).all = ⟨r, state⟩ :: s.all := rfl

@[simp] theorem ids_push (s : Store ι σ) (r : ι) (state : σ) (fresh : r ∉ s.ids) :
    (s.push r state fresh).ids = r :: s.ids := rfl

theorem push_ne (s : Store ι σ) (r : ι) (state : σ) (fresh : r ∉ s.ids) : s.push r state fresh ≠ s := by
  intro h
  have := congrArg (fun t => t.older.length) h
  simp at this

/-- Later stores still resolve every revision to the same snapshot. -/
def Extends (s t : Store ι σ) : Prop := ∀ snap ∈ s.all, snap ∈ t.all

@[simp] theorem Extends.refl (s : Store ι σ) : s.Extends s := fun _ h => h

theorem Extends.trans {s t u : Store ι σ} (h : s.Extends t) (h' : t.Extends u) : s.Extends u :=
  fun snap hm => h' snap (h snap hm)

theorem extends_push (s : Store ι σ) (r : ι) (state : σ) (fresh : r ∉ s.ids) :
    s.Extends (s.push r state fresh) := fun _ h => List.mem_cons_of_mem _ h

variable [DecidableEq ι]

def find (s : Store ι σ) (r : ι) : Option (Snapshot ι σ) := s.all.find? (fun snap => snap.revisionId = r)

theorem find_eq_some {s : Store ι σ} {r : ι} {snap : Snapshot ι σ} :
    s.find r = some snap ↔ snap ∈ s.all ∧ snap.revisionId = r :=
  Lookup.find?_eq_some_iff_of_nodup s.distinct

@[simp] theorem find_head (s : Store ι σ) : s.find s.head.revisionId = some s.head :=
  find_eq_some.mpr ⟨List.mem_cons_self, rfl⟩

/-- Only the newest revision can carry the identity of the head. -/
theorem eq_head {s : Store ι σ} {snap : Snapshot ι σ} (hm : snap ∈ s.all)
    (h : snap.revisionId = s.head.revisionId) : snap = s.head :=
  Option.some.inj ((find_eq_some.mpr ⟨hm, h⟩).symm.trans s.find_head)

theorem Extends.find {s t : Store ι σ} (h : s.Extends t) {r : ι} {snap : Snapshot ι σ}
    (hf : s.find r = some snap) : t.find r = some snap := by
  obtain ⟨hm, hr⟩ := find_eq_some.mp hf
  exact find_eq_some.mpr ⟨h snap hm, hr⟩

end Store

end Galadril.Lib.Revisions
