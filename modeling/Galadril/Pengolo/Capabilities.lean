import Galadril.Json.Text
import Galadril.Lib.Text
import Galadril.Lib.Walks

namespace Galadril.Pengolo.Capabilities

open Json Lib Lib.Checked Lib.Text

inductive CapabilityKind
  | input
  | output
  | model
  | mcp
  | skill
  | algorithm
  deriving DecidableEq

inductive CapabilityTarget
  | pipeline
  | scribe
  deriving DecidableEq

inductive CapabilityOrigin
  | plugin
  | user
  deriving DecidableEq

inductive CapabilityExecution
  | registered
  | declared
  deriving DecidableEq

structure Compatibility where
  allowedModels : List String
  requires : List String
  deriving DecidableEq

structure Capability where
  id : String
  pluginId : Option String
  pluginVersion : Option String
  origin : CapabilityOrigin
  execution : CapabilityExecution
  compatibility : Compatibility
  kind : CapabilityKind
  targets : List CapabilityTarget
  name : String
  description : String
  parametersSchema : Value
  stepType : Option String
  modelClass : Option String
  deriving DecidableEq

structure CapabilityCatalog where
  schemaVersion : Nat
  capabilities : List Capability

def lower (c : Char) : Bool := 'a' ≤ c && c ≤ 'z'

def validSegment (value : List Char) : Bool :=
  value.head?.any lower && value.all fun c => lower c || c.isDigit || c == '_' || c == '-'

def validId (id : String) : Bool :=
  id.utf8ByteSize ≤ 128 && id.toList.contains '.' && (id.toList.splitOn '.').all validSegment

def validateOrigin (item : Capability) : Except String Unit :=
  match item.origin with
  | .plugin => do
      let plugin ← context item.pluginId "Missing plugin ID"
      let version ← context item.pluginVersion "Missing plugin version"
      ensure (plugin.utf8ByteSize ≤ 64 && validSegment plugin.toList && plugin != "user" &&
        (stripStart plugin.toList item.id.toList).any fun rest => rest.head? == some '.') "Invalid plugin namespace"
      ensure (version != "" && version.length ≤ 64) "Invalid plugin version"
  | .user => ensure (item.pluginId.isNone && item.pluginVersion.isNone && "user.".toList.isPrefixOf item.id.toList)
      "Invalid user provenance"

def distinctly (check : String → Bool) (error : String) : List String → List String → Except String Unit
  | _, [] => .ok ()
  | seen, value :: rest => do
      ensure (check value && !seen.contains value) error
      distinctly check error (value :: seen) rest

def stepTypes : List String :=
  ["source", "inference", "resolve", "sink", "causal", "dbt", "algorithm", "route", "pipeline"]

def validateCapability (item : Capability) : Except String Unit := do
  ensure (validId item.id) "Invalid capability ID"
  validateOrigin item
  ensure (item.compatibility.allowedModels.length ≤ 32 && item.compatibility.requires.length ≤ 32)
    "Too many compatibility constraints"
  distinctly (fun model => model != "" && model.length ≤ 256) "Invalid allowed model" [] item.compatibility.allowedModels
  distinctly (fun required => validId required && required != item.id) "Invalid capability requirement" []
    item.compatibility.requires
  ensure (!item.targets.isEmpty && item.targets.length ≤ 2 &&
    (item.targets.length == 1 || item.targets.head? != item.targets.getLast?)) "Invalid capability targets"
  ensure (item.name != "" && item.name.length ≤ 128) "Invalid capability metadata"
  ensure (item.description != "" && item.description.length ≤ 4096) "Invalid capability metadata"
  ensure (item.parametersSchema.getStr "type" == some "object") "Expected object parameter schema"
  ensure ((Value.object [("parameters_schema", item.parametersSchema)]).toVec.length ≤ 16384) "Capability schema exceeds limit"
  ensure ((item.kind == .model) == item.modelClass.isSome) "Model class mismatch"
  ensure (item.modelClass.all fun model => model != "" && model.length ≤ 256) "Invalid model class"
  ensure (item.stepType.all stepTypes.contains) "Unsupported step type"

def validateCapabilities : List String → List Capability → Except String Unit
  | _, [] => .ok ()
  | ids, item :: rest => do
      ensure (!ids.contains item.id) "Duplicate capability ID"
      validateCapability item
      validateCapabilities (item.id :: ids) rest

/-- Rejects malformed deployment metadata before it enters public discovery. -/
def CapabilityCatalog.parse (fromSlice : List UInt8 → Option CapabilityCatalog) (bytes : List UInt8) :
    Except String CapabilityCatalog := do
  ensure (bytes.length ≤ 262144) "Capability catalog exceeds limit"
  let catalog ← context (fromSlice bytes) "Invalid capability catalog"
  ensure (catalog.schemaVersion == 1 && catalog.capabilities.length ≤ 256) "Unsupported capability catalog"
  validateCapabilities [] catalog.capabilities
  return catalog

theorem validateCapabilities_distinct {ids : List String} {items : List Capability} (h : validateCapabilities ids items = .ok ()) :
    (items.map Capability.id).Nodup ∧ ∀ item ∈ items, item.id ∉ ids := by
  induction items generalizing ids with
  | nil => simp
  | cons item items ih =>
      simp only [validateCapabilities, bind_eq_ok, ensure_eq_ok, Bool.not_eq_true', List.contains_eq_mem,
        decide_eq_false_iff_not] at h
      obtain ⟨_, hnew, _, -, hrest⟩ := h
      obtain ⟨hnodup, hfresh⟩ := ih hrest
      refine ⟨?_, List.forall_mem_cons.mpr ⟨hnew, fun other hother hmem => hfresh other hother (List.mem_cons_of_mem _ hmem)⟩⟩
      rw [List.map_cons, List.nodup_cons]
      refine ⟨fun hmem => ?_, hnodup⟩
      obtain ⟨other, hother, hid⟩ := List.mem_map.mp hmem
      exact hfresh other hother (hid ▸ List.mem_cons_self)

theorem parse_distinct {fromSlice : List UInt8 → Option CapabilityCatalog} {bytes : List UInt8} {catalog : CapabilityCatalog}
    (h : CapabilityCatalog.parse fromSlice bytes = .ok catalog) :
    (catalog.capabilities.map Capability.id).Nodup ∧ catalog.capabilities.length ≤ 256 := by
  simp only [CapabilityCatalog.parse, bind_eq_ok, ensure_eq_ok, pure_eq_ok, Bool.and_eq_true, decide_eq_true_eq] at h
  obtain ⟨_, -, _, -, _, ⟨-, hlength⟩, _, hitems, rfl⟩ := h
  exact ⟨(validateCapabilities_distinct hitems).1, hlength⟩

end Galadril.Pengolo.Capabilities
