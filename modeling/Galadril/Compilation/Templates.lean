import Galadril.Json.Text
import Galadril.Lib.Checked
import Galadril.Lib.Sha256
import Galadril.Lib.Table
import Galadril.Lib.Text
import Galadril.Registry.Identity

namespace Galadril.Compilation.Templates

open Json Lib Lib.Checked Lib.Sha256 Lib.Text Registry.Identity

inductive Scope
  | personal
  | project
  | tenant
  | plugin
  deriving DecidableEq

def Scope.name : Scope → String
  | .personal => "personal"
  | .project => "project"
  | .tenant => "tenant"
  | .plugin => "plugin"

structure Asset where
  path : String
  data : List UInt8
  deriving DecidableEq

inductive VariableKind
  | text
  | integer
  | boolean
  | choice
  deriving DecidableEq

def VariableKind.name : VariableKind → String
  | .text => "text"
  | .integer => "integer"
  | .boolean => "boolean"
  | .choice => "choice"

structure Variable where
  kind : VariableKind
  required : Bool
  choices : List String
  deriving DecidableEq

structure Template where
  id : String
  version : String
  name : String
  description : String
  scope : Scope
  owner : String
  project : Option String
  plugin : Option String
  entrypoint : String
  assets : List Asset
  vars : List (String × Variable)
  deriving DecidableEq

def optionalString (text : Option String) : Value := (text.map Value.string).getD .null

def Asset.toJson (a : Asset) : Value :=
  .object [("path", .string a.path), ("data", .array (a.data.map fun b => .number (.int b.toNat)))]

def Variable.toJson (v : Variable) : Value :=
  .object [("kind", .string v.kind.name), ("required", .bool v.required), ("choices", .array (v.choices.map .string))]

def Template.toJson (t : Template) : Value :=
  .object [("id", .string t.id), ("version", .string t.version), ("name", .string t.name),
    ("description", .string t.description), ("scope", .string t.scope.name), ("owner", .string t.owner),
    ("project", optionalString t.project), ("plugin", optionalString t.plugin), ("entrypoint", .string t.entrypoint),
    ("assets", .array (t.assets.map Asset.toJson)),
    ("variables", .object (t.vars.map fun v => (v.1, v.2.toJson)))]

def hexadecimal (c : Char) : Bool := ('0' ≤ c && c ≤ '9') || ('a' ≤ c && c ≤ 'f')

/-- Restricts object identifiers before they become storage key components. -/
def validateId (value : String) (length : Nat) : Except String Unit :=
  ensure (value.utf8ByteSize == length && value.toList.all hexadecimal) "Invalid immutable identifier"

def validatePath (path : String) : Except String Unit := do
  let parts := path.toList.splitOn '/'
  ensure (path != "" && path.utf8ByteSize ≤ 192 &&
    parts.all fun part => !part.isEmpty && part.head? != some '.') "Invalid asset path"
  ensure (path.toList.all fun c => c.isAlphanum || c == '_' || c == '-' || c == '.' || c == '/') "Invalid asset alphabet"
  let dotted := path.toList.splitOn '.'
  ensure (1 < dotted.length) "Asset requires an extension"
  ensure (["tex", "cls", "sty", "bib", "bst", "png", "jpg", "jpeg", "pdf", "ttf", "otf"].any fun ext =>
    dotted.getLast? == some ext.toList) "Unsupported asset type"

def maxProjectBytes : Nat := 2 * 1024 * 1024

def validateAssets : List String → Nat → List Asset → Except String (List String)
  | paths, _, [] => .ok paths
  | paths, size, asset :: rest => do
      validatePath asset.path
      ensure (!paths.contains asset.path) "Duplicate asset path"
      let size := size + asset.data.length
      ensure (size ≤ maxProjectBytes) "Project exceeds limit"
      validateAssets (asset.path :: paths) size rest

def scopeConsistent (t : Template) : Bool :=
  match t.scope with
  | .personal | .tenant => t.project.isNone && t.plugin.isNone
  | .project => (match t.project with
      | some id => id.utf8ByteSize == 32 && id.toList.all hexadecimal
      | none => false) && t.plugin.isNone
  | .plugin => t.project.isNone && (match t.plugin with
      | some id => id != "" && id.utf8ByteSize ≤ 64 && id.toList.all fun c => c.isAlphanum || c == '-' || c == '_'
      | none => false)

def validateVariable (v : String × Variable) : Except String Unit := do
  ensure (v.1 != "" && v.1.utf8ByteSize ≤ 64 && v.1.toList.all fun c => c.isAlphanum || c == '_') "Invalid variable name"
  ensure (v.2.choices.length ≤ 64 && v.2.choices.all fun choice => choice.utf8ByteSize ≤ 256) "Invalid variable choices"

def Template.validate (t : Template) : Except String Unit := do
  validateId t.id 32
  ensure (!blank t.name && t.name.utf8ByteSize ≤ 256 && t.description.utf8ByteSize ≤ 4096 && t.owner != "" &&
    t.owner.utf8ByteSize ≤ 256) "Invalid template metadata"
  ensure (scopeConsistent t) "Inconsistent template scope"
  ensure (!t.assets.isEmpty && t.assets.length ≤ 64 && t.vars.length ≤ 64) "Template cardinality exceeds limit"
  validatePath t.entrypoint
  ensure (".tex".toList.isSuffixOf t.entrypoint.toList) "Entrypoint must be TeX"
  let paths ← validateAssets [] 0 t.assets
  ensure (paths.contains t.entrypoint) "Missing entrypoint"
  t.vars.forM validateVariable

/-- Binds every byte and its visibility metadata to an immutable revision. -/
def Template.seal (t : Template) : Except String Template := do
  t.validate
  let t := { t with assets := t.assets.mergeSort fun a b => decide (a.path ≤ b.path), version := "" }
  return { t with version := sha256 t.toJson.toVec }

/-- How far a call got: the template is prepared, the revisions of its id were
listed, its lineage is decided by the revision it found (if any), it is
sealed. -/
inductive Stage
  | prepared
  | listed (previous : Option String)
  | decided (existing : Option Template)
  | sealed (existing : Option Template)

structure Call where
  creating : Bool
  template : Template
  stage : Stage

/-- The templates of one tenant, the ids marked as deleted, and the calls under
way. -/
structure Catalog where
  revisions : List Template
  deleted : List String
  calls : Nat → Option Call

def Catalog.empty : Catalog := ⟨[], [], fun _ => none⟩

def generatedId (uuid : String) : String := String.ofList ('0' :: uuid.toList.take 31)

def assignOwner (actor : String) (creating : Bool) (t : Template) : Except String Template :=
  if t.scope = .plugin then do
    let plugin ← context t.plugin "Plugin required"
    return { t with owner := "plugin:" ++ plugin }
  else return if creating then { t with owner := actor } else t

def prepare (actor uuid : String) (t : Template) : Except String Call := do
  let creating := t.id == ""
  let t ← assignOwner actor creating (if creating then { t with id := generatedId uuid } else t)
  validateId t.id 32
  return ⟨creating, t, .prepared⟩

def revisionsOf (c : Catalog) (id : String) : List Template := c.revisions.filter (·.id == id)

def firstRevision (c : Catalog) (id : String) : Option Template :=
  Table.least (fun a b => decide (a.version ≤ b.version)) (revisionsOf c id)

def readTemplate (c : Catalog) (id version : String) : Except String Template := do
  ensure (!c.deleted.contains id) "Template unavailable"
  let t ← context ((revisionsOf c id).find? (·.version == version)) "Artifact not found"
  let sealed ← t.seal
  ensure (sealed.version == version) "Template digest mismatch"
  return sealed

def sameScope (existing t : Template) : Bool :=
  existing.scope == t.scope && existing.project == t.project && existing.plugin == t.plugin

/-- New revisions cannot change a template's existing ownership or scope. -/
def decideLineage (c : Catalog) (call : Call) : Option String → Except String Call
  | some version => do
      let existing ← readTemplate c call.template.id version
      ensure (sameScope existing call.template) "Template scope is immutable"
      return { call with template := { call.template with owner := existing.owner }, stage := .decided (some existing) }
  | none => do
      ensure (call.creating || (call.template.scope == .plugin && call.template.id.toList.head? == some 'f'))
        "Template does not exist"
      call.template.validate
      return { call with stage := .decided none }

def sealCall (c : Catalog) (call : Call) (existing : Option Template) : Except String Call := do
  let t ← call.template.seal
  ensure (!c.deleted.contains t.id) "Template deleted"
  return { call with template := t, stage := .sealed existing }

/-- One request of a call, its failure (authorization included), or the deletion
of a template. -/
inductive Request
  | began (call : Nat) (actor uuid : String) (template : Template)
  | listed (call : Nat)
  | decided (call : Nat)
  | sealed (call : Nat)
  | written (call : Nat)
  | lost (call : Nat)
  | removed (id : String)

def Catalog.setCall (c : Catalog) (n : Nat) (call : Option Call) : Catalog :=
  { c with calls := Function.update c.calls n call }

def putRevision (c : Catalog) (t : Template) : List Template :=
  if c.revisions.any fun r => r.id == t.id && r.version == t.version then c.revisions else t :: c.revisions

def Catalog.step (c : Catalog) : Request → Catalog
  | .began n actor uuid template =>
      if (c.calls n).isSome then c else c.setCall n (prepare actor uuid template).toOption
  | .listed n =>
      match c.calls n with
      | some ⟨creating, t, .prepared⟩ =>
          c.setCall n (some ⟨creating, t, .listed ((firstRevision c t.id).map Template.version)⟩)
      | _ => c
  | .decided n =>
      match c.calls n with
      | some ⟨creating, t, .listed previous⟩ =>
          c.setCall n (decideLineage c ⟨creating, t, .listed previous⟩ previous).toOption
      | _ => c
  | .sealed n =>
      match c.calls n with
      | some ⟨creating, t, .decided existing⟩ =>
          c.setCall n (sealCall c ⟨creating, t, .decided existing⟩ existing).toOption
      | _ => c
  | .written n =>
      match c.calls n with
      | some ⟨_, t, .sealed _⟩ => { c.setCall n none with revisions := putRevision c t }
      | _ => c
  | .lost n => c.setCall n none
  | .removed id => { c with deleted := id :: c.deleted }

end Galadril.Compilation.Templates
