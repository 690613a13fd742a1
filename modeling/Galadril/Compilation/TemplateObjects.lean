import Galadril.Compilation.Sealing
import Galadril.Json.Sizes

namespace Galadril.Compilation.TemplateObjects

open Json Lib Lib.Checked Lib.Sha256 Lib.Text Templates
open Std (ExtTreeMap)

abbrev Objects := ExtTreeMap String (List UInt8)

def Objects.get (objects : Objects) (key : String) (limit : Nat) : Except String (List UInt8) := do
  let data ← context objects[key]? "Artifact not found"
  ensure (data.length ≤ limit) "Artifact exceeds limit"
  return data

def Objects.putNew (objects : Objects) (key : String) (data : List UInt8) : Except String Objects :=
  match objects[key]? with
  | none => .ok (objects.insert key data)
  | some _ => do
      let old ← objects.get key data.length
      ensure (sha256 old == sha256 data) "Immutable artifact conflict"
      return objects

def Objects.list (objects : Objects) (leading : String) : List String :=
  (objects.keys.filter fun key => leading.toList.isPrefixOf key.toList).take 50

def root (tenant : String) : String := tenant ++ "/document-compiler"

def leading (tenant id : String) : String := root tenant ++ "/templates/" ++ id ++ "/"

def templateKey (tenant id version : String) : Except String String := do
  validateId id 32
  validateId version 64
  return leading tenant id ++ version ++ ".json"

def deletedKey (tenant id : String) : String := root tenant ++ "/deleted/" ++ id

def revisionOf (leading key : String) : Option String := do
  let name ← stripStart leading.toList key.toList
  let reversed ← stripStart ".json".toList.reverse name.reverse
  return String.ofList reversed.reverse

inductive Action
  | resolve
  | create
  | view
  | use
  | edit
  | publish
  | delete
  | publishPdf
  deriving DecidableEq

structure TemplatePolicy where
  id : String
  scope : Scope
  owner : String
  project : Option String
  plugin : Option String

structure AuthorizationRequest where
  action : Action
  template : Option TemplatePolicy

structure Grant where
  tenant : String
  actor : String
  generation : String
  project : Option String
  temporarySession : Option String
  deriving DecidableEq

abbrev Authorizer := String → AuthorizationRequest → Except String Grant

def policy (t : Template) : TemplatePolicy := ⟨t.id, t.scope, t.owner, t.project, t.plugin⟩

def unread (id : String) : TemplatePolicy := ⟨id, .tenant, "", none, none⟩

def resolve (auth : Authorizer) (capability : String) : Except String Grant := auth capability ⟨.resolve, none⟩

def authorize (auth : Authorizer) (capability : String) (grant : Grant) (action : Action) (policy : TemplatePolicy) :
    Except String Unit := do
  let current ← auth capability ⟨action, some policy⟩
  ensure (current == grant) "Delegation changed"

def Listed (t : Template) : Prop := (t.vars.map Prod.fst).Pairwise (· < ·)

instance (t : Template) : Decidable (Listed t) := inferInstanceAs (Decidable (List.Pairwise _ _))

/-- The deserializer of templates: every text that the serializer writes is
read back. -/
structure Reader where
  fromSlice : List UInt8 → Option Template
  listed : ∀ {data t}, fromSlice data = some t → Listed t
  roundTrip : ∀ {t}, Listed t → fromSlice t.toJson.toVec = some t

/-- What the successive requests of a call meet. -/
structure World where
  auth : Nat → Authorizer
  objects : Nat → Objects

structure TemplateRef where
  templateId : String
  version : String
  deriving DecidableEq

variable (r : Reader) (w : World) (capability : String)

/-- Structural authorization precedes fetching the manifest and every asset. -/
def template (n : Nat) (grant : Grant) (id version : String) (action : Action) : Except String Template := do
  let key ← templateKey grant.tenant id version
  authorize (w.auth n) capability grant action (unread id)
  ensure (!(w.objects (n + 1)).contains (deletedKey grant.tenant id)) "Template unavailable"
  let data ← (w.objects (n + 2)).get key (maxProjectBytes * 5)
  let t ← context (r.fromSlice data) "Invalid template document"
  ensure (t.id == id && t.version == version) "Template identity mismatch"
  let t ← t.seal
  ensure (t.version == version) "Template digest mismatch"
  authorize (w.auth (n + 3)) capability grant action (policy t)
  return t

def readTemplate (ref : TemplateRef) : Except String Template := do
  let grant ← resolve (w.auth 0) capability
  template r w capability 1 grant ref.templateId ref.version .view

/-- New revisions cannot change a template's existing ownership or scope. -/
def lineage (grant : Grant) (call : Call) : Except String Template :=
  let t := call.template
  match ((w.objects 1).list (leading grant.tenant t.id)).head? with
  | some previous => do
      let version ← context (revisionOf (leading grant.tenant t.id) previous) "Invalid prior revision"
      let existing ← template r w capability 2 grant t.id version (if t.scope = .plugin then .view else .edit)
      ensure (sameScope existing t) "Template scope is immutable"
      return { t with owner := existing.owner }
  | none => do
      ensure (call.creating || (t.scope == .plugin && t.id.toList.head? == some 'f')) "Template does not exist"
      t.validate
      authorize (w.auth 2) capability grant .create (policy t)
      return t

def manifest (uuid : String) (t : Template) : Except String (Grant × Template) := do
  let grant ← resolve (w.auth 0) capability
  let call ← prepare grant.actor uuid t
  let t ← lineage r w capability grant call
  return (grant, t)

def putTemplate (uuid : String) (t : Template) : Except String (TemplateRef × Objects) := do
  let (grant, t) ← manifest r w capability uuid t
  let t ← t.seal
  ensure (!(w.objects 6).contains (deletedKey grant.tenant t.id)) "Template deleted"
  let key ← templateKey grant.tenant t.id t.version
  let objects ← (w.objects 7).putNew key t.toJson.toVec
  return (⟨t.id, t.version⟩, objects)

def putManifest (uuid : String) (payload : List UInt8) : Except String (TemplateRef × Objects) := do
  ensure (payload.length ≤ maxProjectBytes * 5) "Template exceeds limit"
  let t ← context (r.fromSlice payload) "Invalid template"
  putTemplate r w capability uuid t

variable {t u : Template}

theorem validateId_digits {s : String} {n : Nat} (hlength : s.toList.length = n) (h : ∀ c ∈ s.toList, c ∈ hexDigits) :
    validateId s n = .ok () := by
  have hsize : s.utf8ByteSize = n := by
    rw [Value.utf8ByteSize_plain fun c hc => Value.hexDigits_plain c (h c hc), hlength]
  have hhex : ∀ c ∈ hexDigits, hexadecimal c = true := by
    intro c hc
    fin_cases hc <;> rfl
  rw [validateId, hsize, beq_self_eq_true, Bool.true_and, ensure_eq_ok, List.all_eq_true]
  exact fun c hc => hhex c (h c hc)

def storedSize (t : Template) : Nat := Value.size ({ t with version := String.ofList (List.replicate 64 '0') }).toJson

theorem storedSize_eq (h : t.seal = .ok u) : u.toJson.size = storedSize t := by
  obtain ⟨-, rfl⟩ := seal_iff.mp h
  obtain ⟨hlength, hdigits⟩ := sha256_chars t.core.toJson.toVec
  have hversion : (Value.string t.stamped.version).size = 66 := by
    rw [Template.stamped, Value.size_digits hdigits, hlength]
  have hblank : (Value.string (String.ofList (List.replicate 64 '0'))).size = 66 := by
    rw [Value.size_digits fun c hc => by simp_all [hexDigits], String.toList_ofList, List.length_replicate]
  have hassets : (Value.array (t.stamped.assets.map Asset.toJson)).size = (Value.array (t.assets.map Asset.toJson)).size :=
    Value.size_array_perm ((List.mergeSort_perm _ _).map _)
  refine Value.size_object_congr ?_
  simp only [List.forall₂_cons, List.forall₂_nil_left_iff, true_and, and_true]
  exact ⟨rfl, hversion.trans hblank.symm, rfl, rfl, rfl, rfl, rfl, rfl, rfl, hassets, rfl⟩

theorem size_short {s : String} {n : Nat} (h : Value.written (s.toList.flatMap escapeChar) = n) :
    (Value.string s).size = n + 2 := by
  rw [Value.size_string, h, Nat.add_comm]

theorem size_toJson (t : Template) : t.toJson.size = 117 + (Value.string t.id).size + (Value.string t.version).size +
    (Value.string t.name).size + (Value.string t.description).size + (Value.string t.scope.name).size +
    (Value.string t.owner).size + (optionalString t.project).size + (optionalString t.plugin).size +
    (Value.string t.entrypoint).size + (Value.array (t.assets.map Asset.toJson)).size +
    (Value.object (t.vars.map fun v => (v.1, v.2.toJson))).size := by
  have hkey : ∀ key ∈ [("id", 2), ("version", 7), ("name", 4), ("description", 11), ("scope", 5), ("owner", 5), ("project", 7),
      ("plugin", 6), ("entrypoint", 10), ("assets", 6), ("variables", 9)], Value.written (quoted key.1) = key.2 + 2 := by
    intro key hkey
    fin_cases hkey <;> rfl
  simp only [List.forall_mem_cons] at hkey
  obtain ⟨h1, h2, h3, h4, h5, h6, h7, h8, h9, h10, h11, -⟩ := hkey
  rw [Template.toJson, Value.size_object]
  simp only [List.map_cons, List.map_nil, List.sum_cons, List.sum_nil, h1, h2, h3, h4, h5, h6, h7, h8, h9, h10, h11]
  omega

section Reading

variable {r : Reader} {w later : World} {capability viewer uuid : String} {payload data : List UInt8} {objects objects' : Objects}
  {grant : Grant} {t m u : Template} {key id version : String}

theorem get_eq_ok {limit : Nat} {found : List UInt8} :
    objects.get key limit = .ok found ↔ objects[key]? = some found ∧ found.length ≤ limit := by
  simp only [Objects.get, bind_eq_ok, context_eq_ok, ensure_eq_ok, decide_eq_true_eq, pure_eq_ok]
  constructor
  · rintro ⟨_, hfound, _, hlimit, rfl⟩
    exact ⟨hfound, hlimit⟩
  · rintro ⟨hfound, hlimit⟩
    exact ⟨found, hfound, (), hlimit, rfl⟩

/-- What is stored under a key after a write is what was written, unless it
was there before and the digests cannot tell the two apart. -/
theorem putNew_stores (h : objects.putNew key data = .ok objects')
    (hdigest : ∀ old, objects[key]? = some old → sha256 old = sha256 data → old = data) : objects'[key]? = some data := by
  rw [Objects.putNew] at h
  split at h
  · obtain rfl := Except.ok.inj h
    exact ExtTreeMap.getElem?_insert_self
  · simp only [bind_eq_ok, get_eq_ok, ensure_eq_ok, beq_iff_eq, pure_eq_ok] at h
    obtain ⟨old, ⟨hold, -⟩, _, hsame, rfl⟩ := h
    rw [hold, hdigest old hold hsame]

/-- Apart from its identity and its owner a manifest stays as it was sent. -/
theorem manifest_eq (h : manifest r w capability uuid t = .ok (grant, m)) :
    resolve (w.auth 0) capability = .ok grant ∧ m = { t with id := m.id, owner := m.owner } ∧ (t.id ≠ "" → m.id = t.id) := by
  simp only [manifest, bind_eq_ok, pure_eq_ok, Prod.mk.injEq] at h
  obtain ⟨_, hgrant, call, hcall, _, hlineage, rfl, rfl⟩ := h
  have hprepared : call.template = { t with id := call.template.id, owner := call.template.owner } ∧
      (t.id ≠ "" → call.template.id = t.id) := by
    simp only [prepare, bind_eq_ok, pure_eq_ok] at hcall
    obtain ⟨t', hassign, _, -, rfl⟩ := hcall
    by_cases hid : t.id = ""
    · simp only [assignOwner, hid, beq_self_eq_true, if_true] at hassign
      split at hassign
      · simp only [bind_eq_ok, pure_eq_ok] at hassign
        obtain ⟨_, -, rfl⟩ := hassign
        exact ⟨rfl, fun h => absurd hid h⟩
      · obtain rfl := Except.ok.inj hassign
        exact ⟨rfl, fun h => absurd hid h⟩
    · simp only [assignOwner, beq_eq_false_iff_ne.mpr hid, Bool.false_eq_true, if_false] at hassign
      split at hassign
      · simp only [bind_eq_ok, pure_eq_ok] at hassign
        obtain ⟨_, -, rfl⟩ := hassign
        exact ⟨rfl, fun _ => rfl⟩
      · obtain rfl := Except.ok.inj hassign
        exact ⟨rfl, fun _ => rfl⟩
  refine ⟨hgrant, ?_⟩
  rw [lineage] at hlineage
  split at hlineage
  · simp only [bind_eq_ok, pure_eq_ok] at hlineage
    obtain ⟨_, -, existing, -, _, -, rfl⟩ := hlineage
    refine ⟨?_, hprepared.2⟩
    conv_lhs => rw [hprepared.1]
  · simp only [bind_eq_ok, pure_eq_ok] at hlineage
    obtain ⟨_, -, _, -, _, -, rfl⟩ := hlineage
    exact hprepared

theorem manifest_listed (h : manifest r w capability uuid t = .ok (grant, m)) (hseal : m.seal = .ok u) (ht : Listed t) :
    Listed u := by
  obtain ⟨-, hm, -⟩ := manifest_eq h
  obtain ⟨-, rfl⟩ := seal_iff.mp hseal
  have hvars : m.vars = t.vars := by rw [hm]
  rw [Listed, Template.stamped, Template.core, hvars]
  exact ht

/-- A later moment: the written object is still there and not marked as deleted,
and the caller may view the template. -/
structure Later (later : World) (objects : Objects) (grant : Grant) (u : Template) (viewer : String) : Prop where
  kept : ∀ n key, templateKey grant.tenant u.id u.version = .ok key → (later.objects n)[key]? = objects[key]?
  offered : ∀ n, (later.objects n).contains (deletedKey grant.tenant u.id) = false
  authorized : ∃ g, g.tenant = grant.tenant ∧ resolve (later.auth 0) viewer = .ok g ∧
    authorize (later.auth 1) viewer g .view (unread u.id) = .ok () ∧ authorize (later.auth 4) viewer g .view (policy u) = .ok ()

/-- A template that is stored intact is read if and only if its text is small
enough. -/
theorem readTemplate_stored (hlater : Later later objects grant u viewer)
    (hkey : templateKey grant.tenant u.id u.version = .ok key) (hstored : objects[key]? = some u.toJson.toVec)
    (hlisted : Listed u) (hseal : u.seal = .ok u) :
    readTemplate r later viewer ⟨u.id, u.version⟩ = .ok u ↔ u.toJson.size ≤ maxProjectBytes * 5 := by
  obtain ⟨hkept, hoffered, g, htenant, hresolve, hunread, hview⟩ := hlater
  have hget : (later.objects (1 + 2))[key]? = some u.toJson.toVec := by rw [hkept _ _ hkey, hstored]
  simp only [readTemplate, template, hresolve, ok_bind, htenant, hkey, hunread, hoffered, Bool.not_false, ensure_true]
  constructor
  · intro h
    simp only [bind_eq_ok, get_eq_ok] at h
    obtain ⟨data, ⟨hdata, hsize⟩, -⟩ := h
    rw [hget] at hdata
    obtain rfl := Option.some.inj hdata
    exact hsize
  · intro hsize
    rw [get_eq_ok.mpr ⟨hget, hsize⟩, ok_bind, r.roundTrip hlisted, context_some, ok_bind]
    simp only [beq_self_eq_true, Bool.and_self, ensure_true, ok_bind, hseal, hview]
    rfl

/-- A stored template is read back if and only if its text, with the identity,
the owner and the version that were filled in, keeps within the limit of the
reading side. Sealing is idempotent, and versions are as distinct as digests. -/
theorem stored_template_read (r : Reader) (w later : World) (capability viewer uuid : String) (payload : List UInt8)
    (ref : TemplateRef) (objects : Objects) (grant : Grant) (t m u : Template)
    (hput : putManifest r w capability uuid payload = .ok (ref, objects)) (ht : r.fromSlice payload = some t)
    (hm : manifest r w capability uuid t = .ok (grant, m)) (hu : m.seal = .ok u)
    (hdigest : ∀ key old, templateKey grant.tenant u.id u.version = .ok key → (w.objects 7)[key]? = some old →
      sha256 old = sha256 u.toJson.toVec → old = u.toJson.toVec)
    (hlater : Later later objects grant u viewer) :
    (readTemplate r later viewer ref = .ok u ↔ storedSize m ≤ maxProjectBytes * 5) ∧
      u = { t with id := m.id, owner := m.owner, assets := t.assets.mergeSort byPath, version := u.version } ∧
      (t.id ≠ "" → m.id = t.id) ∧ u.seal = .ok u ∧
      ∀ m' u' : Template, m'.seal = .ok u' →
        (sha256 u.core.toJson.toVec = sha256 u'.core.toJson.toVec → u.core.toJson.toVec = u'.core.toJson.toVec) →
        u.version = u'.version → u = u' := by
  have hstored : ∃ key, templateKey grant.tenant u.id u.version = .ok key ∧ objects[key]? = some u.toJson.toVec ∧
      ref = ⟨u.id, u.version⟩ := by
    simp only [putManifest, putTemplate, ht, context_some, ok_bind, hm, hu, bind_eq_ok, pure_eq_ok, Prod.mk.injEq] at hput
    obtain ⟨_, -, _, -, key, hkey, _, hnew, rfl, rfl⟩ := hput
    exact ⟨key, hkey, putNew_stores hnew fun old => hdigest key old hkey, rfl⟩
  obtain ⟨key, hkey, hobject, rfl⟩ := hstored
  obtain ⟨-, hsame, hid⟩ := manifest_eq hm
  have hlisted := manifest_listed hm hu (r.listed ht)
  refine ⟨?_, ?_, hid, seal_seal hu, fun m' u' hu' hdistinct => version_inj hu hu' hdistinct⟩
  · rw [readTemplate_stored hlater hkey hobject hlisted (seal_seal hu), storedSize_eq hu]
  · obtain ⟨-, rfl⟩ := seal_iff.mp hu
    rw [hsame]
    rfl

end Reading

noncomputable def inverse : Reader where
  fromSlice data :=
    haveI := Classical.propDecidable (∃ t, Listed t ∧ t.toJson.toVec = data)
    if h : ∃ t, Listed t ∧ t.toJson.toVec = data then some h.choose else none
  listed := by
    intro data t h
    split at h
    next hex =>
      obtain rfl := Option.some.inj h
      exact hex.choose_spec.1
    next => cases h
  roundTrip := by
    intro t ht
    have hex : ∃ t', Listed t' ∧ t'.toJson.toVec = t.toJson.toVec := ⟨t, ht, rfl⟩
    rw [dif_pos hex, Template.toVec_inj hex.choose_spec.2]

def actor : Grant := ⟨"t", "a", "g", none, none⟩

/-- Everything is granted, and nothing changes between two requests. -/
def still (objects : Objects) : World := ⟨fun _ _ _ => .ok actor, fun _ => objects⟩

def uuid : String := "00000000000000000000000000000000"

theorem authorize_still (objects : Objects) (n : Nat) (capability : String) (action : Action) (policy : TemplatePolicy) :
    authorize ((still objects).auth n) capability actor action policy = .ok () := by
  simp [authorize, still, bind, Except.bind]

def created (t : Template) : Template := { t with id := generatedId uuid, owner := "a" }

def storedKey (u : Template) : String := leading "t" u.id ++ u.version ++ ".json"

theorem templateKey_stamped {t : Template} (h : Valid t) :
    templateKey "t" t.stamped.id t.stamped.version = .ok (storedKey t.stamped) := by
  obtain ⟨hlength, hdigits⟩ := sha256_chars t.core.toJson.toVec
  have hid : validateId t.stamped.id 32 = .ok () := h.id
  rw [templateKey, hid, ok_bind]
  rw [Template.stamped, validateId_digits hlength hdigits]
  rfl

theorem putManifest_created {r : Reader} {t : Template} (hid : t.id = "") (hscope : t.scope = .tenant) (hlisted : Listed t)
    (hvalid : Valid (created t)) (hsize : t.toJson.size ≤ maxProjectBytes * 5) :
    manifest r (still ∅) "c" uuid t = .ok (actor, created t) ∧
      putManifest r (still ∅) "c" uuid t.toJson.toVec = .ok (⟨(created t).stamped.id, (created t).stamped.version⟩,
        (∅ : Objects).insert (storedKey (created t).stamped) (created t).stamped.toJson.toVec) := by
  have hprepare : prepare actor.actor uuid t = .ok ⟨true, created t, .prepared⟩ := by
    have hvalidId : validateId (generatedId uuid) 32 = .ok () := hvalid.id
    simp only [prepare, assignOwner, hid, hscope, beq_self_eq_true, if_true, reduceCtorEq, if_false]
    rw [pure_bind, hvalidId, ok_bind, created, ← hscope]
    rfl
  have hmanifest : manifest r (still ∅) "c" uuid t = .ok (actor, created t) := by
    have hlist : (((still ∅).objects 1).list (leading actor.tenant (created t).id)).head? = none := by
      simp [still, Objects.list]
    have hlineage : lineage r (still ∅) "c" actor ⟨true, created t, .prepared⟩ = .ok (created t) := by
      simp only [lineage, hlist, Bool.true_or, ensure_true, validate_iff.mpr hvalid, authorize_still, ok_bind]
      rfl
    have hresolve : resolve ((still ∅).auth 0) "c" = .ok actor := rfl
    rw [manifest, hresolve, ok_bind, hprepare, ok_bind, hlineage]
    rfl
  refine ⟨hmanifest, ?_⟩
  have hdeleted : ((still ∅).objects 6).contains (deletedKey actor.tenant (created t).stamped.id) = false := by
    simp [still]
  have hkey := templateKey_stamped hvalid
  have hnew : ((still ∅).objects 7).putNew (storedKey (created t).stamped) (created t).stamped.toJson.toVec =
      .ok ((∅ : Objects).insert (storedKey (created t).stamped) (created t).stamped.toJson.toVec) := by
    simp [still, Objects.putNew]
  have hlimit : t.toJson.toVec.length ≤ maxProjectBytes * 5 := hsize
  have hseal : (created t).seal = .ok (created t).stamped := seal_iff.mpr ⟨hvalid, rfl⟩
  rw [putManifest, decide_eq_true hlimit, ensure_true, ok_bind, r.roundTrip hlisted, context_some, ok_bind, putTemplate, hmanifest,
    ok_bind]
  simp only [hseal, hdeleted, Bool.not_false, ensure_true, ok_bind]
  rw [show actor.tenant = "t" from rfl, hkey, ok_bind, hnew]
  rfl

theorem later_still {t : Template} {objects : Objects}
    (hobjects : objects = (∅ : Objects).insert (storedKey t.stamped) t.stamped.toJson.toVec) :
    Later (still objects) objects actor t.stamped "c" where
  kept _ _ _ := rfl
  offered _ := by
    have hkey : storedKey t.stamped ≠ deletedKey "t" t.stamped.id := by
      intro h
      have hchars := congrArg String.toList h
      simp [storedKey, leading, deletedKey] at hchars
    subst hobjects
    simp [still, actor, hkey]
  authorized := ⟨actor, rfl, rfl, authorize_still .., authorize_still ..⟩

def small : Template where
  id := ""
  version := ""
  name := "n"
  description := ""
  scope := .tenant
  owner := ""
  project := none
  plugin := none
  entrypoint := "main.tex"
  assets := [⟨"main.tex", [65]⟩]
  vars := []

theorem small_valid : Valid (created small) := validate_iff.mp (by decide +kernel)

theorem small_read_back : readTemplate inverse (still ((∅ : Objects).insert (storedKey (created small).stamped)
    (created small).stamped.toJson.toVec)) "c" ⟨(created small).stamped.id, (created small).stamped.version⟩ =
      .ok (created small).stamped := by
  have hlisted : Listed small := by decide
  obtain ⟨hmanifest, hput⟩ := putManifest_created (r := inverse) rfl rfl hlisted small_valid (by decide +kernel)
  refine (stored_template_read inverse (still ∅) _ "c" "c" uuid small.toJson.toVec _ _ actor small (created small) _ hput
    (inverse.roundTrip hlisted) hmanifest (seal_iff.mpr ⟨small_valid, rfl⟩) ?_ (later_still rfl)).1.mpr ?_
  · intro key old _ hold
    simp [still] at hold
  · decide +kernel

def filler (choices : Nat) : Variable :=
  ⟨.choice, false, List.replicate choices (String.ofList (List.replicate 256 (Char.ofNat 1)))⟩

def names : List String := ["a", "b", "c", "d", "e", "f", "g", "h", "i", "j", "k", "l", "m", "n", "o", "p", "q", "r", "s", "t", "u"]

def bulky (bytes choices letters : Nat) : Template where
  id := ""
  version := ""
  name := "n"
  description := String.ofList (List.replicate letters 'a')
  scope := .tenant
  owner := ""
  project := none
  plugin := none
  entrypoint := "main.tex"
  assets := [⟨"main.tex", List.replicate bytes 255⟩]
  vars := names.map (fun name => (name, filler 64)) ++ [("v", filler choices)]

theorem size_filler (choices : Nat) : (filler choices).toJson.size = (1539 * choices - 1) + 47 := by
  have hchoice : (Value.string (String.ofList (List.replicate 256 (Char.ofNat 1)))).size = 1538 := by
    have hescape : Value.written (escapeChar (Char.ofNat 1)) = 6 := rfl
    have hmany : ∀ n, Value.written ((List.replicate n (Char.ofNat 1)).flatMap escapeChar) = 6 * n := by
      intro n
      induction n with
      | zero => rfl
      | succ n ih => rw [List.replicate_succ, List.flatMap_cons, Value.written_append, hescape, ih]; omega
    rw [Value.size_string, String.toList_ofList, hmany]
  have hitems : (Value.array ((filler choices).choices.map .string)).size = 2 + (1539 * choices - 1) := by
    have hopen : Value.written ['['] = 1 := rfl
    have hclose : Value.written [']'] = 1 := rfl
    rw [Value.size_array, filler, hopen, hclose]
    simp only [List.map_replicate, hchoice, List.sum_replicate, smul_eq_mul]
    omega
  have hkind : Value.written (quoted "kind") = 6 := rfl
  have hrequired : Value.written (quoted "required") = 10 := rfl
  have hchoices : Value.written (quoted "choices") = 9 := rfl
  have hname : (Value.string (filler choices).kind.name).size = 8 := by
    have hchoice : (filler choices).kind.name = "choice" := rfl
    rw [hchoice]
    exact size_short rfl
  have hfalse : (Value.bool (filler choices).required).size = 5 := rfl
  rw [Variable.toJson, Value.size_object]
  simp only [List.map_cons, List.map_nil, List.sum_cons, List.sum_nil, hkind, hrequired, hchoices, hname, hfalse, hitems]
  omega

theorem size_assets (bytes choices letters : Nat) :
    (Value.array ((bulky bytes choices letters).assets.map Asset.toJson)).size = (4 * bytes - 1) + 31 := by
  have hopen : Value.written ['['] = 1 := rfl
  have hclose : Value.written [']'] = 1 := rfl
  have hbyte : (Value.number (.int (255 : UInt8).toNat)).size = 3 := rfl
  have hpath : Value.written (quoted "path") = 6 := rfl
  have hdata : Value.written (quoted "data") = 6 := rfl
  have hentry : (Value.string "main.tex").size = 10 := size_short rfl
  simp only [bulky, List.map_cons, List.map_nil, Value.size_array, Asset.toJson, Value.size_object, List.sum_cons, List.sum_nil,
      List.map_replicate, List.sum_replicate, smul_eq_mul, hopen, hclose, hbyte, hpath, hdata, hentry]
  omega

theorem size_vars {choices : Nat} (bytes letters : Nat) (h : 0 < choices) :
    (Value.object ((bulky bytes choices letters).vars.map fun v => (v.1, v.2.toJson))).size = 1539 * choices + 2069539 := by
  have hnames : ∀ name ∈ names, Value.written (quoted name) = 3 := by
    intro name hname
    fin_cases hname <;> rfl
  have hfull : (names.map fun name => Value.written (quoted name) + 2 + (1539 * 64 - 1 + 47)).sum = 2069487 := by
    rw [List.map_congr_left fun name hname => by rw [hnames name hname], List.map_const']
    rfl
  have hlast : Value.written (quoted "v") = 3 := rfl
  simp only [bulky, List.map_append, List.map_map, Function.comp_def, List.map_cons, List.map_nil, Value.size_object,
    List.sum_append,
    List.sum_cons, List.sum_nil, hlast, size_filler, hfull]
  omega

theorem size_bulky {bytes choices : Nat} (letters : Nat) (hbytes : 0 < bytes) (hchoices : 0 < choices) :
    (bulky bytes choices letters).toJson.size = 4 * bytes + 1539 * choices + letters + 2069723 := by
  have hnull : (optionalString none).size = 4 := rfl
  have hname : (Value.string "n").size = 3 := size_short rfl
  have hblank : (Value.string "").size = 2 := size_short rfl
  have hscope : (Value.string Scope.tenant.name).size = 8 := size_short rfl
  have hentry : (Value.string "main.tex").size = 10 := size_short rfl
  have hdescription : (Value.string (String.ofList (List.replicate letters 'a'))).size = 2 + letters := by
    rw [Value.size_digits fun c hc => by simp_all [hexDigits], String.toList_ofList, List.length_replicate]
  have hassets := size_assets bytes choices letters
  have hvars := size_vars bytes letters hchoices
  have hsize : (bulky bytes choices letters).toJson.size = 117 + (Value.string "").size + (Value.string "").size +
      (Value.string "n").size + (Value.string (String.ofList (List.replicate letters 'a'))).size +
      (Value.string Scope.tenant.name).size + (Value.string "").size + (optionalString none).size + (optionalString none).size +
      (Value.string "main.tex").size + (Value.array ((bulky bytes choices letters).assets.map Asset.toJson)).size +
      (Value.object ((bulky bytes choices letters).vars.map fun v => (v.1, v.2.toJson))).size := size_toJson _
  omega

theorem filler_valid {name : String} (hname : name ∈ "v" :: names) {n : Nat} (hn : n ≤ 64) :
    validateVariable (name, filler n) = .ok () := by
  have hok : ensure (name != "" && name.utf8ByteSize ≤ 64 && name.toList.all fun c => c.isAlphanum || c == '_')
      "Invalid variable name" = .ok () := by
    fin_cases hname <;> decide +kernel
  have hchoice : (String.ofList (List.replicate 256 (Char.ofNat 1))).utf8ByteSize ≤ 256 := by decide +kernel
  rw [validateVariable, hok, ok_bind, ensure_eq_ok, filler, List.length_replicate, Bool.and_eq_true, List.all_eq_true]
  refine ⟨decide_eq_true hn, fun choice hmem => ?_⟩
  obtain rfl := List.eq_of_mem_replicate hmem
  exact decide_eq_true hchoice

theorem bulky_valid {bytes choices letters : Nat} (hbytes : bytes ≤ maxProjectBytes) (hchoices : choices ≤ 64)
    (hletters : letters ≤ 4096) : Valid (created (bulky bytes choices letters)) where
  id := by
    have hid : validateId (generatedId uuid) 32 = .ok () := by decide +kernel
    exact hid
  metadata := by
    have hdescription : (String.ofList (List.replicate letters 'a')).utf8ByteSize = letters := by
      have hplain : Value.Plain 'a' := ⟨rfl, rfl⟩
      rw [Value.utf8ByteSize_plain fun c hc => ?_, String.toList_ofList, List.length_replicate]
      rw [String.toList_ofList] at hc
      exact List.eq_of_mem_replicate hc ▸ hplain
    have hname : (!Registry.Identity.blank "n" && decide ("n".utf8ByteSize ≤ 256)) = true := by decide +kernel
    have howner : ("a" != "" && decide ("a".utf8ByteSize ≤ 256)) = true := by decide +kernel
    have hmetadata : (!Registry.Identity.blank "n" && decide ("n".utf8ByteSize ≤ 256) &&
        decide ((String.ofList (List.replicate letters 'a')).utf8ByteSize ≤ 4096) && "a" != "" && decide ("a".utf8ByteSize ≤ 256)) =
        true := by
      rw [hdescription, Bool.and_assoc, hname, howner, decide_eq_true hletters]
      rfl
    exact hmetadata
  scope := rfl
  nonempty := List.cons_ne_nil _ _
  fewAssets := by
    have hone : ([(⟨"main.tex", List.replicate bytes 255⟩ : Asset)]).length ≤ 64 := by
      rw [List.length_singleton]
      decide
    exact hone
  fewVariables := by
    have hlength : (names.map (fun name => (name, filler 64)) ++ [("v", filler choices)]).length ≤ 64 := by
      rw [List.length_append, List.length_map, List.length_singleton]
      decide
    exact hlength
  entry := by
    have hpath : validatePath "main.tex" = .ok () := by decide +kernel
    exact hpath
  tex := by
    have htex : ".tex".toList.isSuffixOf "main.tex".toList = true := by decide +kernel
    exact htex
  paths a ha := by
    have hpath : validatePath "main.tex" = .ok () := by decide +kernel
    obtain rfl := List.mem_singleton.mp ha
    exact hpath
  distinct := List.nodup_singleton _
  small := by
    have hsum : ([(⟨"main.tex", List.replicate bytes 255⟩ : Asset)].map fun a => a.data.length).sum ≤ maxProjectBytes := by
      rw [List.map_singleton, List.sum_singleton, List.length_replicate]
      exact hbytes
    exact hsum
  present := List.mem_singleton_self _
  declared v hv := by
    rcases List.mem_append.mp hv with hv | hv
    · obtain ⟨name, hname, rfl⟩ := List.mem_map.mp hv
      exact filler_valid (List.mem_cons_of_mem _ hname) le_rfl
    · obtain rfl := List.mem_singleton.mp hv
      exact filler_valid List.mem_cons_self hchoices

theorem bulky_listed (bytes choices letters : Nat) : Listed (bulky bytes choices letters) := by
  have hnames : (names ++ ["v"]).Pairwise (· < ·) := by decide +kernel
  rw [Listed, bulky, List.map_append, List.map_map, List.map_singleton]
  exact hnames

/-- A manifest without identity, version and owner grows by these three when it
is stored. -/
theorem storedSize_created {t : Template} (hid : t.id = "") (hversion : t.version = "") (howner : t.owner = "") :
    storedSize (created t) = t.toJson.size + 97 := by
  have hblank : (Value.string "").size = 2 := size_short rfl
  have hletter : (Value.string "a").size = 3 := size_short rfl
  have hzeros : (Value.string (String.ofList (List.replicate 64 '0'))).size = 66 := by
    rw [Value.size_digits fun c hc => by simp_all [hexDigits], String.toList_ofList, List.length_replicate]
  have hgenerated : (Value.string (generatedId uuid)).size = 34 := size_short (by decide +kernel)
  rw [storedSize, size_toJson, size_toJson, hid, hversion, howner]
  simp only [created, hblank, hletter, hzeros, hgenerated]
  omega

/-- A manifest whose text is just as long as accepted grows beyond the limit of
the reading side when it is stored. -/
theorem grown_template_lost : ¬ ∀ (r : Reader) (w later : World) (capability viewer uuid : String) (payload : List UInt8)
    (ref : TemplateRef) (objects : Objects) (grant : Grant) (t m u : Template),
    putManifest r w capability uuid payload = .ok (ref, objects) → r.fromSlice payload = some t →
    manifest r w capability uuid t = .ok (grant, m) → m.seal = .ok u →
    (∀ key old, templateKey grant.tenant u.id u.version = .ok key → (w.objects 7)[key]? = some old →
      sha256 old = sha256 u.toJson.toVec → old = u.toJson.toVec) →
    Later later objects grant u viewer → readTemplate r later viewer ref = .ok u := by
  intro h
  obtain ⟨bytes, hbytes⟩ : ∃ bytes, bytes = maxProjectBytes := ⟨_, rfl⟩
  have hpos : 0 < bytes := by
    rw [hbytes]
    decide
  have hsent : (bulky bytes 17 1266).toJson.size = maxProjectBytes * 5 := by
    have hsum : 1539 * 17 + (1266 + 2069723) = 2097152 := by decide
    rw [size_bulky 1266 hpos (by decide : 0 < 17), Nat.add_assoc, Nat.add_assoc, hsum, hbytes]
    rfl
  have hvalid := @bulky_valid bytes 17 1266 hbytes.le (by decide) (by decide)
  have hlisted := bulky_listed bytes 17 1266
  have hstored := storedSize_created (t := bulky bytes 17 1266) rfl rfl rfl
  have hscope : (bulky bytes 17 1266).scope = .tenant := rfl
  have hid : (bulky bytes 17 1266).id = "" := rfl
  generalize bulky bytes 17 1266 = t at hsent hvalid hlisted hstored hscope hid
  obtain ⟨hmanifest, hput⟩ := putManifest_created (r := inverse) hid hscope hlisted hvalid hsent.le
  have hread := h inverse (still ∅) _ "c" "c" uuid t.toJson.toVec _ _ actor t (created t) _ hput (inverse.roundTrip hlisted)
    hmanifest (seal_iff.mpr ⟨hvalid, rfl⟩) (fun key old _ hold => by simp [still] at hold) (later_still rfl)
  have hfits := (readTemplate_stored (later_still rfl) (templateKey_stamped hvalid) ExtTreeMap.getElem?_insert_self
    (manifest_listed hmanifest (seal_iff.mpr ⟨hvalid, rfl⟩) hlisted) (seal_seal (seal_iff.mpr ⟨hvalid, rfl⟩))).mp hread
  rw [storedSize_eq (seal_iff.mpr ⟨hvalid, rfl⟩), hstored, hsent] at hfits
  exact absurd hfits (Nat.not_le.mpr (Nat.lt_add_of_pos_right (by decide)))

end Galadril.Compilation.TemplateObjects
