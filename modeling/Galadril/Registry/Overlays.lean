import Galadril.Registry.PluginOntology

namespace Galadril.Registry.Ontology

open Json Lib.Checked Lib.Entries Lib.Mapping
open Std (ExtTreeMap)

def Offers (package part item : Value) : Prop :=
  ∃ modules items, package.getArray "ontologies" = some modules ∧ part ∈ modules ∧
    part.getArray "resources" = some items ∧ item ∈ items

/-- The resource with the two tags of its module and nothing else changed. -/
def Tagged (part item v : Value) : Prop :=
  ∃ moduleId version m attributes, part.getStr "id" = some moduleId ∧ part.get "version" = some version ∧ item = .object m ∧
    Members.field m "attributes" = some (.object attributes) ∧
    v = .object (Members.insert "attributes" (.object (Members.insert "plugin_module_version" version
      (Members.insert "plugin_module" (.string moduleId) attributes))) m)

def Rebound (destination : String) (resource v : Value) : Prop :=
  ∃ m attributes old references, resource = .object m ∧ Members.field m "attributes" = some (.object attributes) ∧
    Members.field attributes "target_type" = some (.string old) ∧ Members.field m "references" = some (.array references) ∧
    v = .object (Members.insert "references" (.array (references.map (redirect old destination)))
      (Members.insert "attributes" (.object (Members.insert "target_type" (.string destination) attributes)) m))

def Overlaid (destination : Option String) (resource v : Value) : Prop :=
  match destination with
  | none => v = resource
  | some destination => Rebound destination resource v

def destinations (mappings : Mappings) : List String := mappings.toList.map Prod.snd

def Imported (target : Option Value) (mappings : Mappings) (x : String) (v : Value) : Prop :=
  ∃ ontology, target = some ontology ∧ v ∈ resourcesOf ontology ∧ resourceId v = some x ∧
    (graphOf ontology).Reached (resourcesOf ontology) (destinations mappings) [] x

variable {package part item v : Value} {x : String}

theorem Tagged.unique {w : Value} (hv : Tagged part item v) (hw : Tagged part item w) : v = w := by
  obtain ⟨_, _, m, attributes, hid, hversion, rfl, hattributes, rfl⟩ := hv
  obtain ⟨_, _, _, attributes', hid', hversion', hm, hattributes', rfl⟩ := hw
  cases hm
  rw [hid] at hid'
  rw [hversion] at hversion'
  rw [hattributes] at hattributes'
  cases hid'
  cases hversion'
  cases hattributes'
  rfl

theorem Tagged.resourceId_eq (h : Tagged part item v) : resourceId v = resourceId item := by
  obtain ⟨_, _, m, attributes, -, -, rfl, -, rfl⟩ := h
  rw [resourceId, resourceId, Value.getStr, Value.getStr, Value.get, Value.get, Members.field_insert, if_neg (by decide)]

section Target

variable {target : Option Value} {mappings : Mappings} {external : Resources} {x : String} {v : Value}

end Target

section Rebinding

variable {destination : String} {resource selected v : Value}

theorem Rebound.unique {w : Value} (hv : Rebound destination resource v) (hw : Rebound destination resource w) : v = w := by
  obtain ⟨m, attributes, old, references, rfl, hattributes, hold, hreferences, rfl⟩ := hv
  obtain ⟨_, attributes', old', references', hm, hattributes', hold', hreferences', rfl⟩ := hw
  cases hm
  rw [hattributes] at hattributes'
  cases hattributes'
  rw [hold] at hold'
  cases hold'
  rw [hreferences] at hreferences'
  cases hreferences'
  rfl

theorem Rebound.resourceId_eq (h : Rebound destination resource v) : resourceId v = resourceId resource := by
  obtain ⟨m, attributes, old, references, rfl, -, -, -, rfl⟩ := h
  rw [resourceId, resourceId, Value.getStr, Value.getStr, Value.get, Value.get, Members.field_insert, if_neg (by decide),
    Members.field_insert, if_neg (by decide)]

theorem Overlaid.unique {destination : Option String} {w : Value} (hv : Overlaid destination resource v)
    (hw : Overlaid destination resource w) : v = w := by
  cases destination with
  | none => exact Eq.trans hv (Eq.symm hw)
  | some destination => exact Rebound.unique hv hw

theorem Overlaid.resourceId_eq {destination : Option String} (h : Overlaid destination resource v) :
    resourceId v = resourceId resource := by
  cases destination with
  | none => exact congrArg resourceId h
  | some destination => exact Rebound.resourceId_eq h

end Rebinding

variable {target : Option Value} {mappings : Mappings}

theorem mem_values {resources : Resources} {v : Value} : v ∈ resources.values ↔ ∃ x : String, resources[x]? = some v := by
  rw [Resources.values, List.mem_map]
  constructor
  · rintro ⟨p, hp, rfl⟩
    exact ⟨p.1, ExtTreeMap.mem_toList_iff_getElem?_eq_some.mp hp⟩
  · rintro ⟨x, hx⟩
    exact ⟨(x, v), ExtTreeMap.mem_toList_iff_getElem?_eq_some.mpr hx, rfl⟩

structure Composed (package : Value) (target : Option Value) (mappings : Mappings) (resources : Resources) : Prop where
  holds : ∀ x v, resources[x]? = some v ↔
    (∃ part item tagged, Offers package part item ∧ resourceId item = some x ∧ Tagged part item tagged ∧
      Overlaid mappings[x]? tagged v) ∨ Imported target mappings x v
  apart : ∀ x part item v, Offers package part item → resourceId item = some x → ¬ Imported target mappings x v
  kept : ∀ part item, Offers package part item → ∃ x tagged v, resourceId item = some x ∧ Tagged part item tagged ∧
    Overlaid mappings[x]? tagged v

theorem Composed.resourceId_eq {resources : Resources} (h : Composed package target mappings resources) {x : String} {v : Value}
    (hv : resources[x]? = some v) : resourceId v = some x := by
  rcases (h.holds x v).mp hv with ⟨part, item, tagged, -, hid, htag, hover⟩ | ⟨ontology, -, -, hid, -⟩
  · rw [hover.resourceId_eq, htag.resourceId_eq, hid]
  · exact hid

end Galadril.Registry.Ontology
