import Galadril.Json.Equality
import Galadril.Lib.Checked
import Galadril.Lib.DepthFirst
import Galadril.Lib.Lookup
import Galadril.Lib.Worklist
import Galadril.Registry.Identity

namespace Galadril.Registry.Ontology

open Json Lib.Checked Identity

def scalarTypes : List String :=
  ["boolean", "bytes", "date", "datetime", "decimal", "float", "geopoint", "integer", "json", "string", "uuid"]

def resourceKinds : List String :=
  ["object_type", "event_type", "property", "link_type", "action", "function"]

structure Resource where
  id : String
  kind : String
  displayName : String
  owner : Option String
  valueType : Option String
  references : List String
  parents : List String
  attributes : Members

def stringArray (value : Option Value) (field : String) : Except String (List String) :=
  match value with
  | none | some .null => .ok []
  | some (.string item) => .ok [item]
  | some (.array items) => items.mapM fun item => context item.asStr s!"{field} must contain strings"
  | some _ => .error s!"{field} must be a string or array"

def requiredString (value : Value) (field owner : String) : Except String String := do
  let result ← context (value.getStr field) s!"{owner} {field} missing"
  ensure (result != "") s!"{owner} {field} empty"
  return result

def parseResource (seen : List String) (value : Value) : Except String Resource := do
  let id ← requiredString value "resource_id" "ontology resource"
  ensure (validId id) s!"invalid_resource_id:{id}"
  ensure (!seen.contains id) s!"duplicate_resource_id:{id}"
  let kind ← requiredString value "kind" "ontology resource"
  ensure (resourceKinds.contains kind) s!"invalid_resource_kind:{id}:{kind}"
  let displayName ← requiredString value "display_name" "ontology resource"
  let attributes ← context ((value.get "attributes").bind Value.asObject) "ontology resource attributes missing"
  let references ← stringArray (value.get "references") "references"
  let extended ← stringArray (Members.field attributes "extends") "extends"
  let interfaces ← stringArray (Members.field attributes "interfaces") "interfaces"
  return {
    id, kind, displayName, references, attributes
    owner := value.getStr "owner_id"
    valueType := value.getStr "value_type"
    parents := extended ++ interfaces }

def parseAll : List String → List Value → Except String (List Resource)
  | _, [] => .ok []
  | seen, value :: values => do
      let resource ← parseResource seen value
      let rest ← parseAll (resource.id :: seen) values
      return resource :: rest

def parseResources (ontology : Value) : Except String (List Resource) := do
  let version ← context (ontology.getStr "version") "ontology_version_missing"
  ensure (version != "") "ontology_version_empty"
  let values ← context (ontology.getArray "resources") "ontology_resources_missing"
  parseAll [] values

variable (resources : List Resource)

def byId (id : String) : Option Resource := resources.find? (fun r => r.id = id)

def isType (kind : String) : Bool := kind == "object_type" || kind == "event_type"

def ownerIssues (r : Resource) : List String :=
  match r.owner with
  | none => []
  | some owner =>
      match byId resources owner with
      | none => [s!"dangling_owner:{r.id}:{owner}"]
      | some o => if isType o.kind then [] else [s!"invalid_owner_kind:{r.id}:{owner}"]

def referenceIssues (r : Resource) : List String :=
  r.references.flatMap fun reference =>
    if (byId resources reference).isSome then [] else [s!"dangling_reference:{r.id}:{reference}"]

def parentIssues (r : Resource) : List String :=
  r.parents.flatMap fun parent =>
    match byId resources parent with
    | none => [s!"dangling_inheritance:{r.id}:{parent}"]
    | some p => if isType p.kind then [] else [s!"invalid_inheritance_type:{r.id}:{parent}"]

def valueTypeIssues (r : Resource) : List String :=
  if r.kind = "property" then
    match r.valueType with
    | none | some "" => [s!"missing_property_type:{r.id}"]
    | some valueType =>
        if scalarTypes.contains valueType || (byId resources valueType).isSome then []
        else [s!"invalid_value_type:{r.id}:{valueType}"]
  else []

def validateLinkEndpoint (r : Resource) (field : String) : List String :=
  match ((Members.field r.attributes field).bind Value.asStr).bind (byId resources) with
  | none => [s!"dangling_link_{field}:{r.id}"]
  | some target => if isType target.kind then [] else [s!"incompatible_link_{field}:{r.id}"]

def linkIssues (r : Resource) : List String :=
  if r.kind = "link_type" then
    validateLinkEndpoint resources r "source_type" ++ validateLinkEndpoint resources r "target_type"
  else []

def parentsOf (id : String) : List String := ((byId resources id).map (·.parents)).getD []

def ownersOf (id : String) : List String := ((byId resources id).bind (·.owner)).toList

def edgesOf (ownerEdges : Bool) (id : String) : List String :=
  if ownerEdges then ownersOf resources id else parentsOf resources id

def names (ownerEdges : Bool) : List String :=
  resources.flatMap fun r => r.id :: edgesOf resources ownerEdges r.id

def findCycle (ownerEdges : Bool) : Option String :=
  let succ := edgesOf resources ownerEdges
  Lib.DepthFirst.search succ (Lib.DepthFirst.weight succ (names resources ownerEdges) + 1) (fun _ => none)
    (resources.map (·.id))

def detectCycles : List String :=
  ((findCycle resources false).map (fun id => s!"inheritance_cycle:{id}")).toList ++
    ((findCycle resources true).map (fun id => s!"owner_cycle:{id}")).toList

/-- Proper ancestors along inheritance edges, in identifier order. -/
def ancestors (id : String) : List String :=
  match Lib.Worklist.visit (ε := Empty) (fun x => .ok (parentsOf resources x))
      ((names resources false).length + 2) [] [id] with
  | .ok result => (Std.ExtTreeSet.ofList result).toList

def propertiesOf (id : String) : List Resource :=
  resources.filter fun r => r.kind = "property" && r.owner == some id

def validateInheritedProperties : List String :=
  resources.flatMap fun r =>
    if (propertiesOf resources r.id).isEmpty then []
    else
      (ancestors resources r.id).flatMap fun ancestor =>
        (propertiesOf resources r.id).flatMap fun own =>
          (propertiesOf resources ancestor).flatMap fun parent =>
            if own.displayName = parent.displayName ∧ own.valueType ≠ parent.valueType then
              [s!"incompatible_property_type:{own.id}:{parent.id}"]
            else []

def resourceIssues (r : Resource) : List String :=
  ownerIssues resources r ++ referenceIssues resources r ++ parentIssues resources r ++
    valueTypeIssues resources r ++ linkIssues resources r

def graphIssues : List String :=
  resources.flatMap (resourceIssues resources) ++ detectCycles resources ++
    validateInheritedProperties resources

def validateOntology (ontology : Value) : Except String Unit := do
  let resources ← parseResources ontology
  let issues := graphIssues resources
  ensure issues.isEmpty ("; ".intercalate issues)

end Galadril.Registry.Ontology
