import Galadril.Lib.Checked

namespace Galadril.Lib.Entries

open Checked
open Std (ExtTreeMap)

variable {ε β : Type}

def insertNew (e : ε) (m : ExtTreeMap String β) (entry : String × β) : Except ε (ExtTreeMap String β) :=
  if m.contains entry.1 then .error e else .ok (m.insert entry.1 entry.2)

variable {e : ε} {m m' : ExtTreeMap String β} {entry : String × β} {entries : List (String × β)}

theorem insertNew_eq_ok : insertNew e m entry = .ok m' ↔ entry.1 ∉ m ∧ m.insert entry.1 entry.2 = m' := by
  rw [insertNew]
  split
  next h => simp [ExtTreeMap.mem_iff_contains, h]
  next h => simp [ExtTreeMap.mem_iff_contains, h]

theorem getElem?_insert_new {k : String} (hk : k ∉ m) {w : β} {x : String} {v : β} :
    (m.insert k w)[x]? = some v ↔ m[x]? = some v ∨ x = k ∧ v = w := by
  simp only [ExtTreeMap.getElem?_insert, compare_eq_iff_eq]
  split
  next hx =>
    subst hx
    have hnone : m[k]? = none := ExtTreeMap.getElem?_eq_none hk
    simp [hnone, eq_comm]
  next hx => simp [Ne.symm hx]

/-- Entries go into a map together when their keys are new and distinct. -/
theorem foldlM_insertNew : entries.foldlM (insertNew e) m = .ok m' ↔ (entries.map Prod.fst).Nodup ∧
    (∀ entry ∈ entries, entry.1 ∉ m) ∧ ∀ x v, m'[x]? = some v ↔ m[x]? = some v ∨ (x, v) ∈ entries := by
  induction entries generalizing m with
  | nil =>
      simp only [List.foldlM_nil, pure_eq_ok, List.map_nil, List.nodup_nil, List.not_mem_nil, false_imp_iff, implies_true, or_false,
        true_and]
      constructor
      · rintro rfl x v
        exact Iff.rfl
      · exact fun h => ExtTreeMap.ext_getElem? fun {x} => Option.ext fun v => (h x v).symm
  | cons entry entries ih =>
      obtain ⟨k, w⟩ := entry
      rw [List.forall_mem_cons]
      simp only [List.foldlM_cons, bind_eq_ok, insertNew_eq_ok, List.map_cons, List.nodup_cons, List.mem_cons, Prod.mk.injEq,
        List.mem_map, Prod.exists, exists_and_right, exists_eq_right]
      constructor
      · rintro ⟨_, ⟨hk, rfl⟩, hrest⟩
        obtain ⟨hnodup, hnew, hiff⟩ := ih.mp hrest
        have hfresh : ∀ p ∈ entries, p.1 ≠ k ∧ p.1 ∉ m := fun p hp => by
          have := hnew p hp
          rw [ExtTreeMap.mem_insert, compare_eq_iff_eq, not_or] at this
          exact ⟨Ne.symm this.1, this.2⟩
        refine ⟨⟨?_, hnodup⟩, ⟨hk, fun p hp => (hfresh p hp).2⟩, fun x v => ?_⟩
        · rintro ⟨v, hv⟩
          exact (hfresh _ hv).1 rfl
        · rw [hiff, getElem?_insert_new hk, or_assoc]
      · rintro ⟨⟨hdistinct, hnodup⟩, ⟨hk, hnew⟩, hiff⟩
        refine ⟨_, ⟨hk, rfl⟩, ih.mpr ⟨hnodup, fun p hp => ?_, fun x v => ?_⟩⟩
        · rw [ExtTreeMap.mem_insert, compare_eq_iff_eq, not_or]
          exact ⟨fun hp' => hdistinct ⟨p.2, hp' ▸ hp⟩, hnew p hp⟩
        · rw [hiff, getElem?_insert_new hk, or_assoc]

theorem foldlM_insertNew_perm {entries' : List (String × β)} (hperm : entries.Perm entries')
    (h : entries.foldlM (insertNew e) m = .ok m') : entries'.foldlM (insertNew e) m = .ok m' := by
  obtain ⟨hnodup, hnew, hiff⟩ := foldlM_insertNew.mp h
  refine foldlM_insertNew.mpr ⟨(hperm.map _).nodup_iff.mp hnodup, fun p hp => hnew p (hperm.mem_iff.mpr hp), fun x v => ?_⟩
  rw [hiff, hperm.mem_iff]

theorem getElem?_ofList (hnodup : (entries.map Prod.fst).Nodup) {x : String} {v : β} :
    (ExtTreeMap.ofList entries)[x]? = some v ↔ (x, v) ∈ entries := by
  have hdistinct : entries.Pairwise fun p q => ¬ compare p.1 q.1 = .eq :=
    (List.pairwise_map.mp hnodup).imp fun hne he => hne (compare_eq_iff_eq.mp he)
  constructor
  · intro h
    cases hc : (entries.map Prod.fst).contains x with
    | false => simp [ExtTreeMap.getElem?_ofList_of_contains_eq_false hc] at h
    | true =>
        obtain ⟨p, hp, rfl⟩ := List.mem_map.mp (List.contains_iff_mem.mp hc)
        rw [ExtTreeMap.getElem?_ofList_of_mem (compare_eq_iff_eq.mpr rfl) hdistinct hp] at h
        exact Option.some.inj h ▸ hp
  · exact ExtTreeMap.getElem?_ofList_of_mem (compare_eq_iff_eq.mpr rfl) hdistinct

end Galadril.Lib.Entries
