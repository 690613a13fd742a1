import Galadril.Compilation.Templates
import Galadril.Json.Injective

namespace Galadril.Compilation.Templates

open Json Lib Lib.Checked Lib.Sha256

variable {t u : Template}

/-- The assets of a project have valid and distinct paths and are small enough
together. -/
theorem validateAssets_eq_ok {paths found : List String} {size : Nat} {assets : List Asset} :
    validateAssets paths size assets = .ok found ↔
      (∀ a ∈ assets, validatePath a.path = .ok ()) ∧ (assets.map Asset.path).Nodup ∧ (∀ a ∈ assets, a.path ∉ paths) ∧
        (assets ≠ [] → size + (assets.map fun a => a.data.length).sum ≤ maxProjectBytes) ∧
        found = (assets.map Asset.path).reverse ++ paths := by
  induction assets generalizing paths size with
  | nil => simp [validateAssets, eq_comm]
  | cons a assets ih =>
      simp only [validateAssets, bind_eq_ok, ensure_eq_ok, ih, Bool.not_eq_true', List.contains_eq_mem, decide_eq_false_iff_not,
        decide_eq_true_eq]
      constructor
      · rintro ⟨_, hpath, _, hnew, _, hsize, hpaths, hnodup, hfresh, hsum, rfl⟩
        refine ⟨List.forall_mem_cons.mpr ⟨hpath, hpaths⟩, ?_, List.forall_mem_cons.mpr ⟨hnew, fun b hb hm => ?_⟩,
          fun _ => ?_, by simp⟩
        · rw [List.map_cons, List.nodup_cons]
          refine ⟨fun hm => ?_, hnodup⟩
          obtain ⟨b, hb, hab⟩ := List.mem_map.mp hm
          exact hfresh b hb (hab ▸ List.mem_cons_self)
        · exact hfresh b hb (List.mem_cons_of_mem _ hm)
        · rw [List.map_cons, List.sum_cons, ← Nat.add_assoc]
          by_cases hnil : assets = []
          · subst hnil
            simpa using hsize
          · exact hsum hnil
      · rintro ⟨hpaths, hnodup, hfresh, hsum, rfl⟩
        obtain ⟨hpath, hpaths⟩ := List.forall_mem_cons.mp hpaths
        obtain ⟨hnew, hfresh⟩ := List.forall_mem_cons.mp hfresh
        rw [List.map_cons, List.nodup_cons] at hnodup
        have hsum := hsum (List.cons_ne_nil _ _)
        rw [List.map_cons, List.sum_cons, ← Nat.add_assoc] at hsum
        refine ⟨(), hpath, (), hnew, (), by omega, hpaths, hnodup.2, fun b hb hm => ?_, fun _ => hsum, by simp⟩
        rcases List.mem_cons.mp hm with hm | hm
        · exact hnodup.1 (hm ▸ List.mem_map_of_mem hb)
        · exact hfresh b hb hm

theorem forM_eq_ok {α : Type} {f : α → Except String Unit} {xs : List α} : xs.forM f = .ok () ↔ ∀ x ∈ xs, f x = .ok () := by
  induction xs with
  | nil => simp [pure, Except.pure]
  | cons x xs ih =>
      have hcons : (x :: xs).forM f = (f x >>= fun _ => xs.forM f) := rfl
      rw [hcons, bind_eq_ok, List.forall_mem_cons, ← ih]
      constructor
      · rintro ⟨_, hx, hxs⟩
        exact ⟨hx, hxs⟩
      · rintro ⟨hx, hxs⟩
        exact ⟨(), hx, hxs⟩

structure Valid (t : Template) : Prop where
  id : validateId t.id 32 = .ok ()
  metadata : (!Registry.Identity.blank t.name && t.name.utf8ByteSize ≤ 256 && t.description.utf8ByteSize ≤ 4096 &&
    t.owner != "" && t.owner.utf8ByteSize ≤ 256) = true
  scope : scopeConsistent t = true
  nonempty : t.assets ≠ []
  fewAssets : t.assets.length ≤ 64
  fewVariables : t.vars.length ≤ 64
  entry : validatePath t.entrypoint = .ok ()
  tex : ".tex".toList.isSuffixOf t.entrypoint.toList = true
  paths : ∀ a ∈ t.assets, validatePath a.path = .ok ()
  distinct : (t.assets.map Asset.path).Nodup
  small : (t.assets.map fun a => a.data.length).sum ≤ maxProjectBytes
  present : t.entrypoint ∈ t.assets.map Asset.path
  declared : ∀ v ∈ t.vars, validateVariable v = .ok ()

theorem validate_iff : t.validate = .ok () ↔ Valid t := by
  simp only [Template.validate, bind_eq_ok, ensure_eq_ok, validateAssets_eq_ok, forM_eq_ok, Bool.and_eq_true,
    decide_eq_true_eq, Bool.not_eq_true', List.isEmpty_eq_false_iff, List.append_nil, List.contains_eq_mem, Nat.zero_add]
  constructor
  · rintro ⟨_, hid, _, hmeta, _, hscope, _, ⟨⟨hne, hassets⟩, hvars⟩, _, hentry, _, htex, found,
      ⟨hpaths, hdistinct, -, hsmall, rfl⟩, _, hpresent, hvariables⟩
    exact ⟨hid, by simpa using hmeta, hscope, hne, hassets, hvars, hentry, htex, hpaths, hdistinct, hsmall hne,
      List.mem_reverse.mp hpresent, hvariables⟩
  · rintro ⟨hid, hmeta, hscope, hne, hassets, hvars, hentry, htex, hpaths, hdistinct, hsmall, hpresent, hvariables⟩
    exact ⟨(), hid, (), by simpa using hmeta, (), hscope, (), ⟨⟨hne, hassets⟩, hvars⟩, (), hentry, (), htex, _,
      ⟨hpaths, hdistinct, by simp, fun _ => hsmall, rfl⟩, (), List.mem_reverse.mpr hpresent, hvariables⟩

theorem Valid.perm (h : Valid t) {assets : List Asset} (hperm : assets.Perm t.assets) (version : String) :
    Valid { t with assets, version } where
  id := h.id
  metadata := h.metadata
  scope := h.scope
  nonempty hnil := h.nonempty (List.Perm.eq_nil (hnil ▸ hperm.symm))
  fewAssets := hperm.length_eq ▸ h.fewAssets
  fewVariables := h.fewVariables
  entry := h.entry
  tex := h.tex
  paths a ha := h.paths a (hperm.mem_iff.mp ha)
  distinct := (hperm.map _).nodup_iff.mpr h.distinct
  small := by
    have hsum := (hperm.map fun a => a.data.length).sum_eq
    exact hsum ▸ h.small
  present := (hperm.map _).mem_iff.mpr h.present
  declared := h.declared

def byPath (a b : Asset) : Bool := decide (a.path ≤ b.path)

def Template.core (t : Template) : Template := { t with assets := t.assets.mergeSort byPath, version := "" }

def Template.stamped (t : Template) : Template := { t.core with version := sha256 t.core.toJson.toVec }

theorem seal_iff : t.seal = .ok u ↔ Valid t ∧ u = t.stamped := by
  simp only [Template.seal, bind_eq_ok, pure_eq_ok]
  constructor
  · rintro ⟨_, hvalid, rfl⟩
    exact ⟨validate_iff.mp hvalid, rfl⟩
  · rintro ⟨hvalid, rfl⟩
    exact ⟨(), validate_iff.mpr hvalid, rfl⟩

theorem core_stamped (t : Template) : t.stamped.core = t.core := by
  have hsorted : (t.assets.mergeSort byPath).Pairwise fun a b => byPath a b = true := by
    refine List.pairwise_mergeSort (fun a b c hab hbc => ?_) (fun a b => ?_) _
    · exact decide_eq_true (le_trans (of_decide_eq_true hab) (of_decide_eq_true hbc))
    · rcases le_total a.path b.path with h | h
      · simp [byPath, h]
      · simp [byPath, h]
  have hagain : (t.assets.mergeSort byPath).mergeSort byPath = t.assets.mergeSort byPath := List.mergeSort_of_pairwise hsorted
  simp only [Template.core, Template.stamped, hagain]

theorem Valid.stamped (h : Valid t) : Valid t.stamped := h.perm (List.mergeSort_perm _ _) _

/-- Sealing again changes nothing. -/
theorem seal_seal (h : t.seal = .ok u) : u.seal = .ok u := by
  obtain ⟨hvalid, rfl⟩ := seal_iff.mp h
  refine seal_iff.mpr ⟨hvalid.stamped, ?_⟩
  conv_rhs => rw [Template.stamped, core_stamped]
  rfl

theorem Asset.toJson_inj {a b : Asset} (h : a.toJson = b.toJson) : a = b := by
  obtain ⟨path, data⟩ := a
  obtain ⟨path', data'⟩ := b
  simp only [Asset.toJson, Value.object.injEq, List.cons.injEq, Prod.mk.injEq, Value.string.injEq, Value.array.injEq,
    true_and, and_true] at h
  obtain ⟨rfl, hdata⟩ := h
  rw [List.map_injective_iff.mpr (fun a b hab => ?_) hdata]
  simpa [UInt8.toNat_inj] using hab

theorem optionalString_inj {a b : Option String} (h : optionalString a = optionalString b) : a = b := by
  cases a <;> cases b <;> simp_all [optionalString]

theorem Variable.toJson_inj {a b : Variable} (h : a.toJson = b.toJson) : a = b := by
  obtain ⟨kind, required, choices⟩ := a
  obtain ⟨kind', required', choices'⟩ := b
  simp only [Variable.toJson, Value.object.injEq, List.cons.injEq, Prod.mk.injEq, Value.string.injEq, Value.bool.injEq,
    Value.array.injEq, true_and, and_true] at h
  obtain ⟨hkind, rfl, hchoices⟩ := h
  obtain rfl : kind = kind' := by
    cases kind <;> cases kind' <;> first | rfl | exact absurd hkind (by decide)
  rw [List.map_injective_iff.mpr (fun a b hab => Value.string.inj hab) hchoices]

theorem Template.toJson_inj (h : t.toJson = u.toJson) : t = u := by
  obtain ⟨id, version, name, description, scope, owner, project, plugin, entrypoint, assets, vars⟩ := t
  obtain ⟨id', version', name', description', scope', owner', project', plugin', entrypoint', assets', vars'⟩ := u
  simp only [Template.toJson, Value.object.injEq, List.cons.injEq, Prod.mk.injEq, Value.string.injEq, Value.array.injEq,
    true_and, and_true] at h
  obtain ⟨rfl, rfl, rfl, rfl, hscope, rfl, hproject, hplugin, rfl, hassets, hvars⟩ := h
  obtain rfl : scope = scope' := by
    cases scope <;> cases scope' <;> first | rfl | exact absurd hscope (by decide)
  obtain rfl := optionalString_inj hproject
  obtain rfl := optionalString_inj hplugin
  obtain rfl := List.map_injective_iff.mpr (fun a b hab => Asset.toJson_inj hab) hassets
  have hpair : Function.Injective fun v : String × Variable => (v.1, v.2.toJson) := by
    rintro ⟨k, v⟩ ⟨k', v'⟩ hv
    obtain ⟨hk, hv⟩ := Prod.mk.inj hv
    exact Prod.ext hk (Variable.toJson_inj hv)
  rw [List.map_injective_iff.mpr hpair hvars]

theorem Template.toJson_exact (t : Template) : t.toJson.exact = true := by
  have hassets : Value.exactItems (t.assets.map Asset.toJson) = true := by
    refine Value.exactItems_iff.mpr fun v hv => ?_
    obtain ⟨a, -, rfl⟩ := List.mem_map.mp hv
    have hdata : Value.exactItems (a.data.map fun b => .number (.int b.toNat)) = true := by
      refine Value.exactItems_iff.mpr fun v hv => ?_
      obtain ⟨b, -, rfl⟩ := List.mem_map.mp hv
      rfl
    simp [Asset.toJson, Value.exact, Value.exactMembers, hdata]
  have hvars : Value.exactMembers (t.vars.map fun v => (v.1, v.2.toJson)) = true := by
    refine Value.exactMembers_iff.mpr fun p hp => ?_
    obtain ⟨v, -, rfl⟩ := List.mem_map.mp hp
    have hchoices : Value.exactItems (v.2.choices.map .string) = true := by
      refine Value.exactItems_iff.mpr fun c hc => ?_
      obtain ⟨s, -, rfl⟩ := List.mem_map.mp hc
      rfl
    simp [Variable.toJson, Value.exact, Value.exactMembers, hchoices]
  have hoptional : ∀ o, (optionalString o).exact = true := by
    intro o
    cases o <;> rfl
  simp [Template.toJson, Value.exact, Value.exactMembers, hassets, hvars, hoptional]

theorem Template.toVec_inj (h : t.toJson.toVec = u.toJson.toVec) : t = u :=
  Template.toJson_inj (Value.toVec_inj t.toJson_exact u.toJson_exact h)

/-- As far as the digest tells two texts apart, a version belongs to one content
with one visibility. -/
theorem version_inj (ht : t.seal = .ok u) {t' u' : Template} (ht' : t'.seal = .ok u')
    (hdigest : sha256 u.core.toJson.toVec = sha256 u'.core.toJson.toVec → u.core.toJson.toVec = u'.core.toJson.toVec)
    (h : u.version = u'.version) : u = u' := by
  obtain ⟨-, rfl⟩ := seal_iff.mp ht
  obtain ⟨-, rfl⟩ := seal_iff.mp ht'
  rw [core_stamped, core_stamped] at hdigest
  have hcore := Template.toVec_inj (hdigest h)
  rw [Template.stamped, Template.stamped, hcore]

end Galadril.Compilation.Templates
