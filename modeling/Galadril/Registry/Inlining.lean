import Galadril.Json.Keyed
import Galadril.Registry.Occurrences

namespace Galadril.Registry.Pipeline

open Json Lib Lib.Checked Identity Ontology Std

def Renamed (names : Renaming) (a b : Value) : Prop := ∃ i j, a = .string i ∧ names[i]? = some j ∧ b = .string j

def RenamedBranch (names : Renaming) (a b : String × Value) : Prop :=
  a.1 = b.1 ∧ ∃ items items', a.2 = .array items ∧ b.2 = .array items' ∧ List.Forall₂ (Renamed names) items items'

def compilerFields : List String := ["step", "input_from", "branches", "origin", "type", "pipeline_ref"]

structure Image (names : Renaming) (origin : Option Value) (step value : Value) : Prop where
  identity : ∃ id mapped, step.getStr "step" = some id ∧ names[id]? = some mapped ∧ value.getStr "step" = some mapped
  inputs : ∃ items items', step.getArray "input_from" = some items ∧ value.getArray "input_from" = some items' ∧
    List.Forall₂ (Renamed names) items items'
  branches : ∀ m, (step.get "branches").bind Value.asObject = some m → ∃ m', value.get "branches" = some (.object m') ∧
    List.Forall₂ (RenamedBranch names) m m'
  branchless : (step.get "branches").bind Value.asObject = none → value.get "branches" = step.get "branches"
  origin : value.get "origin" = origin.or (step.get "origin")
  transfer : step.getStr "type" = some "pipeline" →
    value.get "type" = some (.string "forward") ∧ value.get "pipeline_ref" = none
  settled : step.getStr "type" ≠ some "pipeline" →
    value.get "type" = step.get "type" ∧ value.get "pipeline_ref" = step.get "pipeline_ref"
  others : ∀ key, key ∉ compilerFields → value.get key = step.get key

theorem renamed_eq_ok {names : Renaming} {text : String} {items items' : List Value}
    (h : renamed names text items = .ok items') : List.Forall₂ (Renamed names) items items' := by
  rw [renamed, mapM_eq_ok] at h
  refine h.imp fun a b hab => ?_
  simp only [bind_eq_ok, context_eq_ok, pure_eq_ok, Option.bind_eq_some_iff] at hab
  obtain ⟨j, ⟨i, hi, hj⟩, rfl⟩ := hab
  exact ⟨i, j, Value.asStr_eq_some.mp hi, hj, rfl⟩

theorem renameBranches_eq_ok {names : Renaming} {m m' : Members} (h : renameBranches names m = .ok m') :
    List.Forall₂ (RenamedBranch names) m m' := by
  rw [renameBranches, mapM_eq_ok] at h
  refine h.imp fun a b hab => ?_
  simp only [bind_eq_ok, context_eq_ok, pure_eq_ok] at hab
  obtain ⟨items, hitems, items', hitems', rfl⟩ := hab
  refine ⟨rfl, items, items', ?_, rfl, renamed_eq_ok hitems'⟩
  cases hv : a.2 <;> simp_all [Value.asArray]

/-- What renaming leaves in the members of a step, before a transfer is turned
into a forward step. -/
structure RenamedStep (names : Renaming) (origin : Option Value) (step : Value) (object : Members) : Prop where
  keys : step.keyed = true → (Members.keys object).Nodup
  identity : ∃ id mapped, step.getStr "step" = some id ∧ names[id]? = some mapped ∧
    Members.field object "step" = some (.string mapped)
  inputs : ∃ items items', step.getArray "input_from" = some items ∧
    Members.field object "input_from" = some (.array items') ∧ List.Forall₂ (Renamed names) items items'
  branches : ∀ m, (step.get "branches").bind Value.asObject = some m →
    ∃ m', Members.field object "branches" = some (.object m') ∧ List.Forall₂ (RenamedBranch names) m m'
  branchless : (step.get "branches").bind Value.asObject = none → Members.field object "branches" = step.get "branches"
  origin : Members.field object "origin" = origin.or (step.get "origin")
  others : ∀ key, key ∉ ["step", "input_from", "branches", "origin"] → Members.field object key = step.get key

theorem renameStep_eq_ok {names : Renaming} {origin : Option Value} {id mapped : String} {step : Value} {object : Members}
    (hid : step.getStr "step" = some id) (h : renameStep names origin id step = .ok (mapped, object)) :
    names[id]? = some mapped ∧ RenamedStep names origin step object := by
  simp only [renameStep, bind_eq_ok, context_eq_ok] at h
  obtain ⟨mapped', hmapped, items, hitems, items', hitems', members, hmembers, hbranches⟩ := h
  obtain rfl : step = .object members := by
    cases step <;> simp_all [Value.asObject]
  -- the members before the branches are rewritten
  generalize hbase : (origin.map fun v => Members.insert "origin" v (Members.insert "input_from" (.array items')
    (Members.insert "step" (.string mapped') members))).getD (Members.insert "input_from" (.array items')
    (Members.insert "step" (.string mapped') members)) = base at hbranches
  have hfield : ∀ key, Members.field base key = if key = "origin" then origin.or (Members.field members "origin") else
      if key = "input_from" then some (.array items') else if key = "step" then some (.string mapped')
      else Members.field members key := by
    intro key
    subst hbase
    cases origin with
    | none =>
        simp only [Option.map_none, Option.getD_none, Members.field_insert, Option.none_or, @eq_comm _ _ key]
        by_cases ho : key = "origin"
        · subst ho
          simp
        · simp [ho]
    | some v =>
        simp only [Option.map_some, Option.getD_some, Members.field_insert, Option.some_or, @eq_comm _ _ key]
  have hnodup : (Value.object members).keyed = true → (Members.keys base).Nodup := by
    intro hk
    have hinner := Members.nodup_insert (Members.nodup_insert (Value.keyed_keys hk) "step" (.string mapped'))
      "input_from" (.array items')
    subst hbase
    cases origin with
    | none => exact hinner
    | some v => exact Members.nodup_insert hinner "origin" v
  have hget : ∀ key, (Value.object members).get key = Members.field members key := fun key => rfl
  rw [hfield "branches"] at hbranches
  simp only [String.reduceEq, if_false] at hbranches
  cases hb : (Members.field members "branches").bind Value.asObject with
  | none =>
      rw [hb] at hbranches
      simp only [bind_eq_ok, Except.ok.injEq, pure_eq_ok, Prod.mk.injEq] at hbranches
      obtain ⟨_, rfl, rfl, rfl⟩ := hbranches
      refine ⟨hmapped, hnodup, ⟨id, mapped', hid, hmapped, by simp [hfield]⟩,
        ⟨items, items', hitems, by simp [hfield], renamed_eq_ok hitems'⟩, fun m hm => ?_, fun _ => by simp [hfield, hget],
        by simp [hfield, hget], fun key hkey => ?_⟩
      · rw [hget, hb] at hm
        cases hm
      · simp only [List.mem_cons, List.not_mem_nil, or_false, not_or] at hkey
        simp [hfield, hkey, hget]
  | some m =>
      rw [hb] at hbranches
      simp only [bind_eq_ok, Except.ok.injEq, pure_eq_ok, Prod.mk.injEq] at hbranches
      obtain ⟨m', hm', _, rfl, rfl, rfl⟩ := hbranches
      refine ⟨hmapped, fun hk => Members.nodup_insert (hnodup hk) _ _, ⟨id, mapped', hid, hmapped, by simp [hfield]⟩,
        ⟨items, items', hitems, by simp [hfield], renamed_eq_ok hitems'⟩, fun n hn => ?_, fun hn => ?_,
        by simp [hfield, hget], fun key hkey => ?_⟩
      · rw [hget, hb] at hn
        obtain rfl := Option.some.inj hn
        exact ⟨m', by simp, renameBranches_eq_ok hm'⟩
      · rw [hget, hb] at hn
        cases hn
      · simp only [List.mem_cons, List.not_mem_nil, or_false, not_or] at hkey
        have hkey' : "branches" ≠ key := fun he => hkey.2.2.1 he.symm
        simp [hfield, hkey, hkey', hget]

variable {names : Renaming} {origin : Option Value} {step : Value} {object : Members}

theorem RenamedStep.image (h : RenamedStep names origin step object) (htype : step.getStr "type" ≠ some "pipeline") :
    Image names origin step (.object object) := by
  obtain ⟨id, mapped, hid, hmapped, hfield⟩ := h.identity
  obtain ⟨items, items', hitems, hitems', hren⟩ := h.inputs
  refine ⟨⟨id, mapped, hid, hmapped, Value.getStr_eq_some.mpr hfield⟩,
    ⟨items, items', hitems, Value.getArray_eq_some.mpr hitems', hren⟩, h.branches, h.branchless, h.origin,
    fun ht => absurd ht htype, fun _ => ⟨h.others "type" (by decide), h.others "pipeline_ref" (by decide)⟩,
    fun key hkey => h.others key fun hm => hkey ?_⟩
  simp only [compilerFields, List.mem_cons, List.not_mem_nil, or_false] at hm ⊢
  tauto

theorem RenamedStep.image_transfer (h : RenamedStep names origin step object) (hkeyed : step.keyed = true)
    (htype : step.getStr "type" = some "pipeline") {reference : Value}
    (href : Members.field object "pipeline_ref" = some reference) :
    Image names origin step
      (.object (Members.insert "type" (.string "forward") (Members.swapRemove "pipeline_ref" object))) := by
  have hfield : ∀ key, (Value.object (Members.insert "type" (.string "forward")
      (Members.swapRemove "pipeline_ref" object))).get key =
      if key = "type" then some (.string "forward") else if key = "pipeline_ref" then none
      else Members.field object key := by
    intro key
    rw [Value.get, Members.field_insert, Members.field_swapRemove (h.keys hkeyed) href]
    simp only [eq_comm]
  obtain ⟨id, mapped, hid, hmapped, hstep⟩ := h.identity
  obtain ⟨items, items', hitems, hitems', hren⟩ := h.inputs
  refine ⟨⟨id, mapped, hid, hmapped, ?_⟩, ⟨items, items', hitems, ?_, hren⟩, fun m hm => ?_, fun hm => ?_, ?_,
    fun _ => by simp [hfield], fun ht => absurd htype ht, fun key hkey => ?_⟩
  · rw [Value.getStr_eq_some, hfield]
    simpa using hstep
  · rw [Value.getArray_eq_some, hfield]
    simpa using hitems'
  · rw [hfield]
    simpa using h.branches m hm
  · rw [hfield]
    simpa using h.branchless hm
  · rw [hfield]
    simpa using h.origin
  · simp only [compilerFields, List.mem_cons, List.not_mem_nil, or_false, not_or] at hkey
    rw [hfield, if_neg hkey.2.2.2.2.1, if_neg hkey.2.2.2.2.2]
    exact h.others key (by simp [hkey])

end Galadril.Registry.Pipeline
