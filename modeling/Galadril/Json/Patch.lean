import Galadril.Json.Path

namespace Galadril.Json

def Members.put (m : Members) (key : String) : Option Value → Members
  | some v => Members.insert key v m
  | none => m.filter fun p => p.1 ≠ key

@[simp] theorem Members.field_put (m : Members) (key k : String) (v : Option Value) :
    field (put m key v) k = if key = k then v else field m k := by
  cases v with
  | none => exact field_filter_ne m key k
  | some v => exact field_insert m key k v

/-- Replaces what stands at an object path. Paths that leave the objects of
the document change nothing. -/
def update (old : Option Value) : List String → Option Value → Option Value
  | [], new => new
  | key :: path, new =>
      match old with
      | some (.object m) => some (.object (Members.put m key (update (Members.field m key) path new)))
      | other => other

abbrev Edit := List String × Option Value

def patch (old : Option Value) (edits : List Edit) : Option Value :=
  edits.foldl (fun v e => update v e.1 e.2) old

@[simp] theorem patch_nil (old : Option Value) : patch old [] = old := rfl

@[simp] theorem patch_cons (old : Option Value) (e : Edit) (edits : List Edit) :
    patch old (e :: edits) = patch (update old e.1 e.2) edits := rfl

theorem patch_append (old : Option Value) (xs ys : List Edit) : patch old (xs ++ ys) = patch (patch old xs) ys :=
  List.foldl_append

def Edit.below (key : String) (e : Edit) : Edit := (key :: e.1, e.2)

theorem patch_below (key : String) (edits : List Edit) (m : Members) :
    ∃ n, patch (some (.object m)) (edits.map (Edit.below key)) = some (.object n) ∧
      ∀ k, Members.field n k = if key = k then patch (Members.field m key) edits else Members.field m k := by
  induction edits generalizing m with
  | nil => exact ⟨m, rfl, fun k => by split <;> simp_all⟩
  | cons e edits ih =>
      obtain ⟨n, hn, hf⟩ := ih (Members.put m key (update (Members.field m key) e.1 e.2))
      refine ⟨n, hn, fun k => ?_⟩
      rw [hf]
      split <;> simp_all

/-- Edits below distinct keys of an object act on the members independently. -/
theorem patch_object (edits : String → List Edit) {ks : List String} (hks : ks.Nodup) (m : Members) :
    ∃ n, patch (some (.object m)) (ks.flatMap fun key => (edits key).map (Edit.below key)) = some (.object n) ∧
      ∀ k, Members.field n k = if k ∈ ks then patch (Members.field m k) (edits k) else Members.field m k := by
  induction ks generalizing m with
  | nil => exact ⟨m, rfl, fun k => by simp⟩
  | cons key ks ih =>
      obtain ⟨hkey, hks⟩ := List.nodup_cons.mp hks
      obtain ⟨n₁, hn₁, hf₁⟩ := patch_below key (edits key) m
      obtain ⟨n, hn, hf⟩ := ih hks n₁
      refine ⟨n, by rw [List.flatMap_cons, patch_append, hn₁, hn], fun k => ?_⟩
      rw [hf, hf₁]
      by_cases hk : key = k
      · subst hk
        simp [hkey]
      · simp [hk, Ne.symm hk]

theorem same_object {old : Option Value} {b : Members} : Same old (some (.object b)) ↔
    ∃ m, old = some (.object m) ∧ ∀ key, Same (Members.field m key) (Members.field b key) := by
  constructor
  · intro h
    cases old with
    | none => simp at h
    | some v =>
        have hv := same_some.mp h
        cases v with
        | object m => exact ⟨m, rfl, Value.object_equiv.mp hv⟩
        | _ => simp [Value.canon] at hv
  · rintro ⟨m, rfl, h⟩
    exact same_some.mpr (Value.object_equiv.mpr h)

end Galadril.Json
