import Galadril.Json.Insertion
import Galadril.Json.Sizes
import Galadril.Lib.Entries
import Galadril.Lib.Mapping
import Galadril.Registry.SliceExact

namespace Galadril.Registry.Ontology

open Json Lib.Checked Lib.Entries Lib.Mapping
open Std (ExtTreeMap)

abbrev Resources := ExtTreeMap String Value

abbrev Mappings := ExtTreeMap String String

def Resources.values (resources : Resources) : List Value := resources.toList.map Prod.snd

def moduleEntry (moduleId : String) (part item : Value) : Except String (String × Value) := do
  let id ← context (resourceId item) "resource ID missing"
  let members ← context item.asObject "resource attributes missing"
  let attributes ← context ((Members.field members "attributes").bind Value.asObject) "resource attributes missing"
  let attributes := Members.insert "plugin_module" (.string moduleId) attributes
  let version ← context (part.get "version") "module version missing"
  let attributes := Members.insert "plugin_module_version" version attributes
  return (id, .object (Members.insert "attributes" (.object attributes) members))

def addModule (resources : Resources) (part : Value) : Except String Resources := do
  let id ← context (part.getStr "id") "module identity missing"
  let items ← context (part.getArray "resources") "ontology resources missing"
  items.foldlM (fun resources item => moduleEntry id part item >>= insertNew "duplicate plugin resource" resources) resources

def packageResources (package : Value) : Except String Resources := do
  let modules ← context (package.getArray "ontologies") "ontology modules missing"
  ensure (!modules.isEmpty && modules.length ≤ 32) "invalid ontology modules"
  modules.foldlM addModule ∅

def resourceEntry (item : Value) : Except String (String × Value) := do
  let id ← context (resourceId item) "resource ID missing"
  return (id, item)

def targetResources (target : Option Value) (mappings : Mappings) : Except String Resources :=
  if mappings.isEmpty then .ok ∅
  else do
    let target ← context target "mapped target ontology missing"
    let slice ← sliceOntology target (mappings.toList.map Prod.snd) [] true
    let items ← context (slice.getArray "resources") "target resources missing"
    let entries ← items.mapM resourceEntry
    return ExtTreeMap.ofList entries

def redirect (old destination : String) (reference : Value) : Value :=
  if reference.asStr = some old then .string destination else reference

def moduleEntries (part : Value) : Except String (List (String × Value)) := do
  let id ← context (part.getStr "id") "module identity missing"
  let items ← context (part.getArray "resources") "ontology resources missing"
  items.mapM (moduleEntry id part)

theorem addModule_eq_ok {resources resources' : Resources} {part : Value} : addModule resources part = .ok resources' ↔
    ∃ entries, moduleEntries part = .ok entries ∧
      entries.foldlM (insertNew "duplicate plugin resource") resources = .ok resources' := by
  simp only [addModule, moduleEntries, bind_eq_ok, context_eq_ok,
    foldlM_fetch (g := insertNew "duplicate plugin resource") fun _ _ _ => bind_eq_ok]
  constructor
  · rintro ⟨id, hid, items, hitems, entries, hentries, hfold⟩
    exact ⟨entries, ⟨id, hid, items, hitems, hentries⟩, hfold⟩
  · rintro ⟨entries, ⟨id, hid, items, hitems, hentries⟩, hfold⟩
    exact ⟨id, hid, items, hitems, entries, hentries, hfold⟩

theorem addModules_eq_ok {modules : List Value} {resources resources' : Resources} :
    modules.foldlM addModule resources = .ok resources' ↔ ∃ entries, modules.mapM moduleEntries = .ok entries ∧
      entries.flatten.foldlM (insertNew "duplicate plugin resource") resources = .ok resources' := by
  have hstep : ∀ acc part next, addModule acc part = .ok next ↔ ∃ entries, moduleEntries part = .ok entries ∧
      entries.foldlM (insertNew "duplicate plugin resource") acc = .ok next := fun _ _ _ => addModule_eq_ok
  rw [foldlM_fetch hstep]
  simp only [foldlM_flatten]

/-- A package is read when its modules are, and no identity occurs twice. -/
theorem packageResources_eq_ok {package : Value} {resources : Resources} : packageResources package = .ok resources ↔
    ∃ modules entries, package.getArray "ontologies" = some modules ∧ modules ≠ [] ∧ modules.length ≤ 32 ∧
      modules.mapM moduleEntries = .ok entries ∧
      entries.flatten.foldlM (insertNew "duplicate plugin resource") ∅ = .ok resources := by
  simp only [packageResources, bind_eq_ok, context_eq_ok, ensure_eq_ok, Bool.and_eq_true, Bool.not_eq_true',
    List.isEmpty_eq_false_iff, decide_eq_true_iff, addModules_eq_ok]
  constructor
  · rintro ⟨modules, hmodules, _, ⟨hne, hlength⟩, entries, hentries, hfold⟩
    exact ⟨modules, entries, hmodules, hne, hlength, hentries, hfold⟩
  · rintro ⟨modules, entries, hmodules, hne, hlength, hentries, hfold⟩
    exact ⟨modules, hmodules, (), ⟨hne, hlength⟩, entries, hentries, hfold⟩

inductive ModuleReordered : Value → Value → Prop
  | same (part : Value) : ModuleReordered part part
  | resources {m : Members} {items items' : List Value} (h : Members.field m "resources" = some (.array items))
      (hperm : items.Perm items') : ModuleReordered (.object m) (.object (Members.insert "resources" (.array items') m))

inductive Reordered : Value → Value → Prop
  | modules {m : Members} {modules inside modules' : List Value} (h : Members.field m "ontologies" = some (.array modules))
      (hinside : List.Forall₂ ModuleReordered modules inside) (hperm : inside.Perm modules') :
      Reordered (.object m) (.object (Members.insert "ontologies" (.array modules') m))

theorem ModuleReordered.symm {part part' : Value} (h : ModuleReordered part part') : ModuleReordered part' part := by
  cases h with
  | same => exact .same part
  | @resources m items items' h hperm =>
      have hback := ModuleReordered.resources (m := Members.insert "resources" (.array items') m) (by simp) hperm.symm
      rwa [Members.insert_insert, Members.insert_field h] at hback

theorem Reordered.symm {package package' : Value} (h : Reordered package package') : Reordered package' package := by
  cases h with
  | @modules m modules inside modules' h hinside hperm =>
      have hrev : List.Forall₂ ModuleReordered inside modules := hinside.flip.imp fun _ _ h => h.symm
      obtain ⟨back, hback, hbperm⟩ := List.perm_comp_forall₂ hperm.symm hrev
      have hsym := Reordered.modules (m := Members.insert "ontologies" (.array modules') m) (by simp) hback hbperm
      rwa [Members.insert_insert, Members.insert_field h] at hsym

theorem ModuleReordered.size_eq {part part' : Value} (h : ModuleReordered part part') : part.size = part'.size := by
  cases h with
  | same => rfl
  | resources h hperm => exact (Value.size_insert h (Value.size_array_perm hperm)).symm

theorem Reordered.size_eq {package package' : Value} (h : Reordered package package') : package.size = package'.size := by
  cases h with
  | modules h hinside hperm =>
      refine (Value.size_insert h ?_).symm
      exact (Value.size_array_congr (hinside.imp fun _ _ h => h.size_eq)).trans (Value.size_array_perm hperm)

theorem ModuleReordered.entries {part part' : Value} (h : ModuleReordered part part') {entries : List (String × Value)}
    (he : moduleEntries part = .ok entries) : ∃ entries', moduleEntries part' = .ok entries' ∧ entries.Perm entries' := by
  cases h with
  | same => exact ⟨entries, he, .refl entries⟩
  | @resources m items items' h hperm =>
      simp only [moduleEntries, bind_eq_ok, context_eq_ok] at he ⊢
      obtain ⟨id, hid, _, hitems, hentries⟩ := he
      rw [Value.getArray, Value.get, h] at hitems
      cases hitems
      have hversion : moduleEntry id (.object (Members.insert "resources" (.array items') m)) = moduleEntry id (.object m) := by
        funext item
        simp [moduleEntry, Value.get]
      obtain ⟨entries', hentries', heperm⟩ := mapM_perm hperm hentries
      refine ⟨entries', ⟨id, by simpa [Value.getStr, Value.get] using hid, items', ?_, hversion ▸ hentries'⟩, heperm⟩
      simp [Value.getArray, Value.get, Value.asArray]

theorem moduleEntries_reordered {modules modules' : List Value} (h : List.Forall₂ ModuleReordered modules modules')
    {entries : List (List (String × Value))} (he : modules.mapM moduleEntries = .ok entries) :
    ∃ entries', modules'.mapM moduleEntries = .ok entries' ∧ entries.flatten.Perm entries'.flatten := by
  induction h generalizing entries with
  | nil => exact ⟨entries, he, .refl _⟩
  | cons hpart _ ih =>
      simp only [List.mapM_cons, bind_eq_ok, pure_eq_ok] at he ⊢
      obtain ⟨first, hfirst, rest, hrest, rfl⟩ := he
      obtain ⟨first', hfirst', hperm⟩ := hpart.entries hfirst
      obtain ⟨rest', hrest', hperm'⟩ := ih hrest
      exact ⟨_, ⟨first', hfirst', rest', hrest', rfl⟩, hperm.append hperm'⟩

theorem Reordered.resources {package package' : Value} (h : Reordered package package') {resources : Resources}
    (hr : packageResources package = .ok resources) : packageResources package' = .ok resources := by
  cases h with
  | @modules m modules inside modules' h hinside hperm =>
      obtain ⟨_, entries, hmodules, hne, hlength, hentries, hfold⟩ := packageResources_eq_ok.mp hr
      rw [Value.getArray, Value.get, h] at hmodules
      cases hmodules
      have hcount : modules.length = modules'.length := hinside.length_eq.trans hperm.length_eq
      obtain ⟨entries₁, hentries₁, hperm₁⟩ := moduleEntries_reordered hinside hentries
      obtain ⟨entries₂, hentries₂, hperm₂⟩ := mapM_perm hperm hentries₁
      refine packageResources_eq_ok.mpr ⟨modules', entries₂, by simp [Value.getArray, Value.get, Value.asArray], ?_,
        hcount ▸ hlength,
        hentries₂, foldlM_insertNew_perm (hperm₁.trans hperm₂.flatten) hfold⟩
      rwa [← List.length_pos_iff, ← hcount, List.length_pos_iff]

end Galadril.Registry.Ontology
