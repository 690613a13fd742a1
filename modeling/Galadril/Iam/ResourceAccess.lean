import Galadril.Iam.ResourceIds
import Galadril.Lib.Mapping

namespace Galadril.Iam.ResourceAccess

open Lib Lib.Checked Lib.Escapes Lib.Text Registry.Identity

structure AccessTuple where
  resourceType : String
  resourceId : String
  relation : String
  subjectType : String
  subjectId : String
  subjectRelation : String
  deriving DecidableEq

structure ObjectReference where
  objectType : String
  objectId : String
  deriving DecidableEq

structure SubjectReference where
  object : Option ObjectReference
  optionalRelation : String
  deriving DecidableEq

structure Relationship where
  resource : Option ObjectReference
  relation : String
  subject : Option SubjectReference
  deriving DecidableEq

inductive UpdateOperation
  | touch
  | delete
  deriving DecidableEq

structure RelationshipUpdate where
  operation : UpdateOperation
  relationship : Option Relationship
  deriving DecidableEq

def Under (start : String) (r : Relationship) : Prop := ∃ object, r.resource = some object ∧ start.toList <+: object.objectId.toList

/-- The relationship service. A request to write is carried out as a whole or
not at all, and a read that is not cut off by its limit is complete. -/
structure SpiceDb (σ : Type) where
  stored : σ → Relationship → Prop
  checkPermission : σ → String → String → String → String → Except String Bool
  writeRelationships : σ → List RelationshipUpdate → σ × Bool
  readRelationships : σ → String → Nat → Option (List (Option Relationship))
  write_stored : ∀ s updates,
    (∀ r, stored (writeRelationships s updates).1 r ↔
      (⟨.touch, some r⟩ ∈ updates ∨ stored s r ∧ (⟨.delete, some r⟩ : RelationshipUpdate) ∉ updates)) ∨
    (writeRelationships s updates).2 = false ∧ ∀ r, stored (writeRelationships s updates).1 r ↔ stored s r
  read_stored : ∀ s start limit items, readRelationships s start limit = some items →
    ∀ item ∈ items, ∃ r, item = some r ∧ stored s r ∧ Under start r
  read_complete : ∀ s start limit items, readRelationships s start limit = some items →
    ∀ all : List Relationship, (∀ r, stored s r → Under start r → r ∈ all) → all.length ≤ limit →
    ∀ r, stored s r → Under start r → some r ∈ items

def manages (tuple : AccessTuple) : Bool :=
  match tuple.resourceType with
  | "group" => ["reader", "ingester"].contains tuple.relation
  | "project" | "table" | "document" | "ontology" | "conversation" =>
      ["reader", "editor", "administrator"].contains tuple.relation
  | "document_template" => ["reader", "consumer", "editor", "publisher", "administrator"].contains tuple.relation
  | "pipeline" => ["reader", "editor", "executor", "administrator"].contains tuple.relation
  | "entity_state" => ["reader", "editor"].contains tuple.relation
  | "raw" | "event" => tuple.relation == "reader"
  | _ => false

/-- Restricts editable tuples so administrators cannot change tenant
boundaries. -/
def validateResourceAccess (tuple : AccessTuple) : Except String Unit := do
  ensure (manages tuple) "Choose a supported resource permission"
  ensure (validIdentifier tuple.subjectId) "Invalid local identifier"
  ensure ((tuple.subjectType == "user" && tuple.subjectRelation == "") ||
    (tuple.subjectType == "role" && tuple.subjectRelation == "member")) "Choose a person or role as the access recipient"
  ensure (!tuple.resourceId.isEmpty && tuple.resourceId.utf8ByteSize ≤ 512 && !tuple.resourceId.toList.any Characters.isControl &&
    (tuple.resourceId.toList.splitOn '/').all fun part => !part.isEmpty && part != ['.'] && part != ['.', '.'])
    "Invalid resource identifier"

def checkedObject (tenant resourceType resourceId : String) : Except String String := do
  let rid ← tenantQualifiedResourceId tenant resourceType resourceId
  return canonicalSpicedbObjectId rid

def relationshipOf (tenant : String) (tuple : AccessTuple) : Relationship where
  resource := some ⟨tuple.resourceType, canonicalSpicedbObjectId
    (if tuple.resourceType == "tenant" then tenant else tenant ++ "/" ++ tuple.resourceId)⟩
  relation := tuple.relation
  subject := some ⟨some ⟨tuple.subjectType, canonicalSpicedbObjectId
    (if tuple.subjectType == "user" || tuple.subjectType == "tenant" then tuple.subjectId else tenant ++ "/" ++ tuple.subjectId)⟩,
    tuple.subjectRelation⟩

variable {σ : Type} (db : SpiceDb σ)

def setMany (s : σ) (tenantId : String) (tuples : List AccessTuple) (enabled : Bool) : σ × Except String Unit :=
  if 128 < tuples.length then (s, .error "Access changes must contain at most 128 relationships")
  else if tuples.isEmpty then (s, .ok ())
  else
    match validateTenantId tenantId with
    | .error e => (s, .error e)
    | .ok tenant =>
        let updates := tuples.map fun tuple => ⟨if enabled then .touch else .delete, some (relationshipOf tenant tuple)⟩
        let written := db.writeRelationships s updates
        (written.1, ensure written.2 "Access relationships could not be saved")

def readTuple (start : String) (item : Option Relationship) : Except String AccessTuple := do
  let relationship ← context item "Invalid access relationship"
  let resource ← context relationship.resource "Missing access resource"
  ensure (start.toList.isPrefixOf resource.objectId.toList) "Cross-tenant access relationship rejected"
  let subject ← context relationship.subject "Missing access subject"
  let object ← context subject.object "Missing access subject object"
  let inner ← context (stripStart start.toList resource.objectId.toList) "Invalid resource scope"
  let resourceId ← decodeId (String.ofList inner)
  let subjectId ← decodeId ((stripStart start.toList object.objectId.toList).elim object.objectId String.ofList)
  return ⟨resource.objectType, resourceId, relationship.relation, object.objectType, subjectId, subject.optionalRelation⟩

def tuples (s : σ) (tenantId : String) (limit : Nat) : Except String (List AccessTuple) := do
  let tenant ← validateTenantId tenantId
  let start := tenant ++ "/"
  let items ← context (db.readRelationships s start (max 1 (min limit 501))) "Access relationships could not be read"
  items.mapM (readTuple start)

structure Services where
  beginAudit : Except String Unit
  verifyUser : String → String → Except String Unit
  roleExists : String → String → Except String Bool
  /-- The decision of the policies of the tenant. -/
  contextual : String → String → String → String → String → Except String Bool
  record : String → Except String Unit
  configured : Bool

variable (g : Services)

def isAuthorized (s : σ) (user tenant permission resourceType resourceId : String) : Except String Bool := do
  let rid ← checkedObject tenant resourceType resourceId
  let structural ← db.checkPermission s user permission resourceType rid
  if structural then g.contextual user tenant permission resourceType rid else return false

def beginAuthorizedOperation (s : σ) (tenant caller : String) : Except String Unit := do
  g.beginAudit
  match g.verifyUser tenant caller with
  | .error e => do
      g.record "identity_denied"
      .error e
  | .ok _ =>
      match isAuthorized db g s caller tenant "manage" "tenant" tenant with
      | .error e => do
          g.record "authorization_dependency_failed"
          .error e
      | .ok false => do
          g.record "authorization_denied"
          .error ("Caller '" ++ caller ++ "' is not a tenant admin")
      | .ok true => return ()

def verifySubject (tenant : String) (tuple : AccessTuple) : Except String Unit :=
  if tuple.subjectType == "user" then g.verifyUser tenant tuple.subjectId
  else do
    let found ← g.roleExists tenant tuple.subjectId
    ensure found "Role is unavailable"

def admitAccess (s : σ) (tenant user : String) (tuple : AccessTuple) : Except String Unit := do
  verifySubject g tenant tuple
  let authorized ← isAuthorized db g s user tenant "manage" tuple.resourceType (tenant ++ "/" ++ tuple.resourceId)
  ensure authorized "Resource is unavailable or access is denied"
  ensure g.configured "Access management is unavailable"

def setResourceAccess (s : σ) (tenant user : String) (tuple : AccessTuple) (enabled : Bool) : σ × Except String Unit :=
  match validateResourceAccess tuple >>= fun _ => beginAuthorizedOperation db g s tenant user with
  | .error e => (s, .error e)
  | .ok _ =>
      let result : σ × Except String Unit := match admitAccess db g s tenant user tuple with
        | .error e => (s, .error e)
        | .ok _ => setMany db s tenant [tuple] enabled
      match result.2 with
      | .ok _ => (result.1, g.record "succeeded")
      | .error e => (result.1, g.record "resource_access_failed" >>= fun _ => .error e)

variable {tenant : String} {tuple : AccessTuple}

structure Editable (tuple : AccessTuple) : Prop where
  type : tuple.resourceType ≠ "tenant"
  subject : tuple.subjectType = "user" ∧ tuple.subjectRelation = "" ∨ tuple.subjectType = "role" ∧ tuple.subjectRelation = "member"
  identifier : ∀ c ∈ tuple.subjectId.toList, identifierChar c = true

theorem validateResourceAccess_eq_ok (h : validateResourceAccess tuple = .ok ()) : Editable tuple := by
  simp only [validateResourceAccess, bind_eq_ok, ensure_eq_ok, exists_const] at h
  obtain ⟨hmanages, hsubject, hkind, -⟩ := h
  refine ⟨?_, by simpa using hkind, ?_⟩
  · intro htype
    rw [manages, htype] at hmanages
    cases hmanages
  · simp only [validIdentifier, Bool.and_eq_true, List.all_eq_true] at hsubject
    exact hsubject.2

def writtenObject (tenant : String) (tuple : AccessTuple) : String :=
  canonicalSpicedbObjectId (String.ofList (scope tenant ++ tuple.resourceId.toList))

theorem toList_writtenObject (ht : validateTenantId tenant = .ok tenant) :
    (writtenObject tenant tuple).toList = scope tenant ++ escape supported '=' (encode tuple.resourceId.toList) := by
  rw [writtenObject, toList_canonical_scope ht]

theorem scope_text (tenant id : String) : tenant ++ "/" ++ id = String.ofList (scope tenant ++ id.toList) := by
  rw [← String.toList_inj, String.toList_ofList, String.toList_append, String.toList_append]
  rfl

theorem resource_relationshipOf (he : Editable tuple) :
    (relationshipOf tenant tuple).resource = some ⟨tuple.resourceType, writtenObject tenant tuple⟩ := by
  have htype : (tuple.resourceType == "tenant") = false := beq_eq_false_iff_ne.mpr he.type
  rw [relationshipOf, htype, writtenObject, scope_text]
  rfl

theorem checkedObject_eq (ht : validateTenantId tenant = .ok tenant) (he : Editable tuple) :
    checkedObject tenant tuple.resourceType (tenant ++ "/" ++ tuple.resourceId) =
      .ok (canonicalSpicedbObjectId (String.ofList (scope tenant ++ tuple.resourceId.toList.rdropWhile isWhitespace))) := by
  rw [checkedObject, scope_text, tenantQualifiedResourceId_scope ht he.type]
  rfl

def endsBlank (id : String) : Bool := id.toList.getLast?.any isWhitespace

theorem checkedObject_eq_written (ht : validateTenantId tenant = .ok tenant) (he : Editable tuple) :
    checkedObject tenant tuple.resourceType (tenant ++ "/" ++ tuple.resourceId) = .ok (writtenObject tenant tuple) ↔
      endsBlank tuple.resourceId = false := by
  have hend : tuple.resourceId.toList.rdropWhile isWhitespace = tuple.resourceId.toList ↔ endsBlank tuple.resourceId = false := by
    rw [List.rdropWhile_eq_self_iff, endsBlank]
    cases hlast : tuple.resourceId.toList.getLast? with
    | none => simp [List.getLast?_eq_none_iff.mp hlast]
    | some c =>
        obtain ⟨text, htext⟩ := List.getLast?_eq_some_iff.mp hlast
        simp [htext]
  rw [checkedObject_eq ht he, writtenObject, Except.ok.injEq, ← hend]
  constructor
  · intro h
    have htext := congrArg String.toList (canonical_inj h)
    rw [String.toList_ofList, String.toList_ofList] at htext
    exact List.append_cancel_left htext
  · intro h
    rw [h]

def ChecksWritten (tenant : String) (tuple : AccessTuple) : Prop :=
  ∃ id, checkedObject tenant tuple.resourceType (tenant ++ "/" ++ tuple.resourceId) = .ok id ∧
    (relationshipOf tenant tuple).resource = some ⟨tuple.resourceType, id⟩

theorem checksWritten_iff (ht : validateTenantId tenant = .ok tenant) (he : Editable tuple) :
    ChecksWritten tenant tuple ↔ endsBlank tuple.resourceId = false := by
  rw [ChecksWritten, ← checkedObject_eq_written ht he, resource_relationshipOf he]
  constructor
  · rintro ⟨id, hid, hresource⟩
    simp only [Option.some.injEq, ObjectReference.mk.injEq, true_and] at hresource
    rw [hid, hresource]
  · intro h
    exact ⟨_, h, rfl⟩

theorem slash_notMem (ht : validateTenantId tenant = .ok tenant) : '/' ∉ tenant.toList :=
  fun hmem => (identifierChar_facts ((tenant_chars ht).2 _ hmem)).2.2.1 rfl

theorem writtenObject_inj {tenant' : String} {tuple' : AccessTuple} (ht : validateTenantId tenant = .ok tenant)
    (ht' : validateTenantId tenant' = .ok tenant') (h : writtenObject tenant tuple = writtenObject tenant' tuple') :
    tenant = tenant' ∧ tuple.resourceId = tuple'.resourceId := by
  have htext := congrArg String.toList (canonical_inj h)
  rw [String.toList_ofList, String.toList_ofList, scope, scope, List.append_assoc, List.append_assoc] at htext
  have hsplit := congrArg (splitOnce '/') htext
  simp only [List.singleton_append, Characters.splitOnce_append (slash_notMem ht), Characters.splitOnce_append (slash_notMem ht'),
    Option.some.injEq, Prod.mk.injEq] at hsplit
  exact ⟨String.toList_inj.mp hsplit.1, String.toList_inj.mp hsplit.2⟩

def Escaped (r : Relationship) : Prop :=
  ∃ resourceType resourceId relation subjectType subjectId subjectRelation,
    r = ⟨some ⟨resourceType, canonicalSpicedbObjectId resourceId⟩, relation,
      some ⟨some ⟨subjectType, canonicalSpicedbObjectId subjectId⟩, subjectRelation⟩⟩

theorem stripStart_append (start rest : List Char) : stripStart start (start ++ rest) = some rest := by
  rw [stripStart, if_pos (List.isPrefixOf_iff_prefix.mpr (List.prefix_append _ _)), List.drop_left]

theorem scope_toList (tenant : String) : (tenant ++ "/").toList = scope tenant := String.toList_append

theorem decodeId_stripped (ht : validateTenantId tenant = .ok tenant) {id : String} {rest : List Char}
    (h : (canonicalSpicedbObjectId id).toList = scope tenant ++ rest) : Accepts (decodeId (String.ofList rest)) := by
  rw [toList_canonical] at h
  obtain ⟨tail, -, hrest⟩ := supported_lawful.escape_cut (scope_unmarked ht) h
  exact ⟨_, decodeId_eq ((String.toList_ofList).trans hrest)⟩

theorem decodeId_subject (ht : validateTenantId tenant = .ok tenant) (id : String) :
    Accepts (decodeId ((stripStart (scope tenant) (canonicalSpicedbObjectId id).toList).elim (canonicalSpicedbObjectId id)
      String.ofList)) := by
  cases hstrip : stripStart (scope tenant) (canonicalSpicedbObjectId id).toList with
  | none => exact ⟨_, decodeId_canonical id⟩
  | some rest =>
      refine @decodeId_stripped _ ht id _ ?_
      rw [stripStart] at hstrip
      split at hstrip
      · next hstart =>
        obtain ⟨others, hothers⟩ := List.isPrefixOf_iff_prefix.mp hstart
        rw [← hothers, List.drop_left, Option.some.injEq] at hstrip
        rw [← hothers, hstrip]
      · cases hstrip

theorem readTuple_accepts (ht : validateTenantId tenant = .ok tenant) {r : Relationship} (he : Escaped r)
    (hunder : Under (tenant ++ "/") r) : Accepts (readTuple (tenant ++ "/") (some r)) := by
  obtain ⟨resourceType, resourceId, relation, subjectType, subjectId, subjectRelation, rfl⟩ := he
  obtain ⟨object, hobject, hstart⟩ := hunder
  obtain rfl := Option.some.inj hobject
  obtain ⟨rest, hrest⟩ := hstart
  rw [scope_toList] at hrest
  obtain ⟨id, hid⟩ := decodeId_stripped ht hrest.symm
  obtain ⟨subject, hsubject⟩ := decodeId_subject ht subjectId
  have hinside : (scope tenant).isPrefixOf (canonicalSpicedbObjectId resourceId).toList = true := by
    rw [← hrest, List.isPrefixOf_iff_prefix]
    exact List.prefix_append _ _
  refine ⟨⟨resourceType, id, relation, subjectType, subject, subjectRelation⟩, ?_⟩
  simp only [readTuple, context_some, ok_bind, scope_toList, hinside, ensure_true]
  rw [← hrest, stripStart_append]
  simp only [context_some, ok_bind, hid, hsubject]
  rfl

theorem readTuple_relationshipOf (ht : validateTenantId tenant = .ok tenant) (he : Editable tuple) :
    readTuple (tenant ++ "/") (some (relationshipOf tenant tuple)) = .ok tuple := by
  have hresource := @toList_writtenObject _ tuple ht
  have hinside : (scope tenant).isPrefixOf (scope tenant ++ escape supported '=' (encode tuple.resourceId.toList)) = true := by
    rw [List.isPrefixOf_iff_prefix]
    exact List.prefix_append _ _
  have hid : decodeId (String.ofList (escape supported '=' (encode tuple.resourceId.toList))) = .ok tuple.resourceId := by
    rw [decodeId_eq (String.toList_ofList), String.ofList_toList]
  have hshape : relationshipOf tenant tuple = ⟨some ⟨tuple.resourceType, writtenObject tenant tuple⟩, tuple.relation,
      (relationshipOf tenant tuple).subject⟩ := by
    rw [← resource_relationshipOf he]
    rfl
  have hsubject : ∃ object, (relationshipOf tenant tuple).subject = some ⟨some ⟨tuple.subjectType, object⟩, tuple.subjectRelation⟩ ∧
      decodeId ((stripStart (scope tenant) object.toList).elim object String.ofList) = .ok tuple.subjectId := by
    refine ⟨_, rfl, ?_⟩
    rcases he.subject with ⟨hkind, -⟩ | ⟨hkind, -⟩
    · have huser : (tuple.subjectType == "user" || tuple.subjectType == "tenant") = true := by
        rw [hkind]
        rfl
      have hbare : stripStart (scope tenant) (canonicalSpicedbObjectId tuple.subjectId).toList = none := by
        rw [stripStart, if_neg]
        intro hstart
        obtain ⟨rest, hrest⟩ := List.isPrefixOf_iff_prefix.mp hstart
        rw [toList_canonical] at hrest
        obtain ⟨tail, htail, -⟩ := supported_lawful.escape_cut (scope_unmarked ht) hrest.symm
        have hslash := he.identifier '/' (by rw [htail, scope]; simp)
        exact (identifierChar_facts hslash).2.2.1 rfl
      rw [if_pos huser, hbare]
      exact decodeId_canonical _
    · have hrole : (tuple.subjectType == "user" || tuple.subjectType == "tenant") = false := by
        rw [hkind]
        rfl
      rw [hrole, if_neg Bool.false_ne_true, scope_text, toList_canonical_scope ht, stripStart_append]
      change decodeId (String.ofList _) = _
      rw [decodeId_eq (String.toList_ofList), String.ofList_toList]
  obtain ⟨object, hobject, hdecoded⟩ := hsubject
  rw [hshape, hobject]
  simp only [readTuple, context_some, ok_bind, scope_toList, hresource, hinside, ensure_true, stripStart_append, hid, hdecoded]
  rfl

theorem relationshipOf_escaped : Escaped (relationshipOf tenant tuple) := ⟨_, _, _, _, _, _, rfl⟩

inductive Write
  | setMany (tenant : String) (tuples : List AccessTuple) (enabled : Bool)
  | relate (enabled : Bool) (resource : ObjectReference) (relation : String) (subject : ObjectReference) (subjectRelation : String)

def canonical (object : ObjectReference) : ObjectReference := ⟨object.objectType, canonicalSpicedbObjectId object.objectId⟩

def updateOf (enabled : Bool) (r : Relationship) : RelationshipUpdate := ⟨if enabled then .touch else .delete, some r⟩

def Write.apply (s : σ) : Write → σ
  | .setMany tenant tuples enabled => (ResourceAccess.setMany db s tenant tuples enabled).1
  | .relate enabled resource relation subject subjectRelation =>
      (db.writeRelationships s [updateOf enabled ⟨some (canonical resource), relation,
        some ⟨some (canonical subject), subjectRelation⟩⟩]).1

def Write.enabled : Write → Bool
  | .setMany _ _ enabled => enabled
  | .relate enabled .. => enabled

def Write.relationships : Write → List Relationship
  | .setMany tenant tuples _ =>
      match validateTenantId tenant with
      | .ok tenant => tuples.map (relationshipOf tenant)
      | .error _ => []
  | .relate _ resource relation subject subjectRelation =>
      [⟨some (canonical resource), relation, some ⟨some (canonical subject), subjectRelation⟩⟩]

theorem mem_updates {enabled : Bool} {rs : List Relationship} {r : Relationship} :
    ((⟨.touch, some r⟩ : RelationshipUpdate) ∈ rs.map (updateOf enabled) ↔ enabled = true ∧ r ∈ rs) ∧
    ((⟨.delete, some r⟩ : RelationshipUpdate) ∈ rs.map (updateOf enabled) ↔ enabled = false ∧ r ∈ rs) := by
  cases enabled <;> simp [updateOf]

def Written (s s' : σ) (enabled : Bool) (rs : List Relationship) : Prop :=
  ∀ r, db.stored s' r ↔ (enabled = true ∧ r ∈ rs) ∨ db.stored s r ∧ ¬(enabled = false ∧ r ∈ rs)

theorem write_cases (s : σ) (enabled : Bool) (rs : List Relationship) :
    Written db s (db.writeRelationships s (rs.map (updateOf enabled))).1 enabled rs ∨
    (db.writeRelationships s (rs.map (updateOf enabled))).2 = false ∧
      ∀ r, db.stored (db.writeRelationships s (rs.map (updateOf enabled))).1 r ↔ db.stored s r := by
  rcases db.write_stored s (rs.map (updateOf enabled)) with h | h
  · left
    intro r
    rw [h, mem_updates.1, mem_updates.2]
  · exact .inr h

theorem setMany_cases (s : σ) (tenant : String) (tuples : List AccessTuple) (enabled : Bool) :
    (∃ t, validateTenantId tenant = .ok t ∧
      Written db s (setMany db s tenant tuples enabled).1 enabled (tuples.map (relationshipOf t))) ∨
    (tuples ≠ [] → ¬Accepts (setMany db s tenant tuples enabled).2) ∧
      ∀ r, db.stored (setMany db s tenant tuples enabled).1 r ↔ db.stored s r := by
  rw [setMany]
  split
  · exact .inr ⟨fun _ => not_accepts_error _, fun _ => .rfl⟩
  split
  · next hempty => exact .inr ⟨fun hne => absurd (List.isEmpty_iff.mp hempty) hne, fun _ => .rfl⟩
  split
  · exact .inr ⟨fun _ => not_accepts_error _, fun _ => .rfl⟩
  · next t ht =>
    have hupdates : (tuples.map fun tuple =>
      (⟨if enabled then .touch else .delete, some (relationshipOf t tuple)⟩ : RelationshipUpdate)) =
        (tuples.map (relationshipOf t)).map (updateOf enabled) := by
      rw [List.map_map]
      rfl
    simp only [hupdates]
    rcases write_cases db s enabled (tuples.map (relationshipOf t)) with h | ⟨hfailed, h⟩
    · exact .inl ⟨t, ht, h⟩
    · exact .inr ⟨fun _ => by rw [hfailed]; exact not_accepts_error _, h⟩

theorem apply_cases (s : σ) (w : Write) :
    Written db s (w.apply db s) w.enabled w.relationships ∨ ∀ r, db.stored (w.apply db s) r ↔ db.stored s r := by
  cases w with
  | setMany tenant tuples enabled =>
      rcases setMany_cases db s tenant tuples enabled with ⟨t, ht, h⟩ | ⟨-, h⟩
      · left
        have hrs : (Write.setMany tenant tuples enabled).relationships = tuples.map (relationshipOf t) := by
          rw [Write.relationships, ht]
        rw [hrs]
        exact h
      · exact .inr h
  | relate enabled resource relation subject subjectRelation =>
      rcases write_cases db s enabled (Write.relate enabled resource relation subject subjectRelation).relationships with h | ⟨-, h⟩
      · exact .inl h
      · exact .inr h

theorem relationships_escaped (w : Write) : ∀ r ∈ w.relationships, Escaped r := by
  intro r hr
  cases w with
  | setMany tenant tuples enabled =>
      rw [Write.relationships] at hr
      split at hr
      · obtain ⟨tuple, -, rfl⟩ := List.mem_map.mp hr
        exact relationshipOf_escaped
      · cases hr
  | relate enabled resource relation subject subjectRelation =>
      obtain rfl := List.mem_singleton.mp hr
      exact ⟨_, _, _, _, _, _, rfl⟩

def run (s : σ) (ws : List Write) : σ := ws.foldl (fun s w => w.apply db s) s

def AllEscaped (s : σ) : Prop := ∀ r, db.stored s r → Escaped r

theorem apply_escaped {s : σ} (h : AllEscaped db s) (w : Write) : AllEscaped db (w.apply db s) := by
  intro r hr
  rcases apply_cases db s w with hw | hw
  · rcases (hw r).mp hr with ⟨-, hmem⟩ | ⟨hold, -⟩
    · exact relationships_escaped w r hmem
    · exact h r hold
  · exact h r ((hw r).mp hr)

/-- Every relationship that is stored after writes of the gateway is escaped. -/
theorem run_escaped {s : σ} (h : AllEscaped db s) (ws : List Write) : AllEscaped db (run db s ws) := by
  induction ws generalizing s with
  | nil => exact h
  | cons w ws ih => exact ih (apply_escaped db h w)

theorem run_keeps {s : σ} {r : Relationship} (h : db.stored s r) {ws : List Write}
    (hws : ∀ w ∈ ws, ¬(w.enabled = false ∧ r ∈ w.relationships)) : db.stored (run db s ws) r := by
  induction ws generalizing s with
  | nil => exact h
  | cons w ws ih =>
      obtain ⟨hw, hrest⟩ := List.forall_mem_cons.mp hws
      refine ih ?_ hrest
      rcases apply_cases db s w with hc | hc
      · exact (hc r).mpr (.inr ⟨h, hw⟩)
      · exact (hc r).mpr h

theorem tuples_of_stored {s : σ} (hall : AllEscaped db s) {tenant : String} {tuple : AccessTuple}
    (ht : validateTenantId tenant = .ok tenant) (he : Editable tuple)
    (hstored : db.stored s (relationshipOf tenant tuple)) {limit : Nat}
    {all : List Relationship} (hcovers : ∀ r, db.stored s r → Under (tenant ++ "/") r → r ∈ all)
    (hfits : all.length ≤ max 1 (min limit 501))
    (hread : (db.readRelationships s (tenant ++ "/") (max 1 (min limit 501))).isSome) :
    ∃ found, tuples db s tenant limit = .ok found ∧ tuple ∈ found := by
  obtain ⟨items, hitems⟩ := Option.isSome_iff_exists.mp hread
  have hunder : Under (tenant ++ "/") (relationshipOf tenant tuple) := by
    refine ⟨_, resource_relationshipOf he, ?_⟩
    rw [scope_toList, toList_writtenObject ht]
    exact List.prefix_append _ _
  have hmem : some (relationshipOf tenant tuple) ∈ items := db.read_complete _ _ _ _ hitems all hcovers hfits _ hstored hunder
  have hreadable : ∀ item ∈ items, Accepts (readTuple (tenant ++ "/") item) := by
    intro item hitem
    obtain ⟨r, rfl, hr, hstart⟩ := db.read_stored _ _ _ _ hitems item hitem
    exact readTuple_accepts ht (hall r hr) hstart
  obtain ⟨found, hfound⟩ := Mapping.accepts_mapM.mpr hreadable
  refine ⟨found, ?_, ?_⟩
  · rw [tuples, ht]
    simp only [ok_bind, hitems, context_some]
    exact hfound
  · exact (Mapping.mem_mapM hfound).mpr ⟨_, hmem, readTuple_relationshipOf ht he⟩

section Granting

variable {σ : Type} {db : SpiceDb σ} {g : Services} {s : σ} {tenant user : String} {tuple : AccessTuple}

theorem isAuthorized_eq_ok {permission resourceType resourceId : String}
    (h : isAuthorized db g s user tenant permission resourceType resourceId = .ok true) :
    ∃ id, checkedObject tenant resourceType resourceId = .ok id ∧
      db.checkPermission s user permission resourceType id = .ok true := by
  simp only [isAuthorized, bind_eq_ok] at h
  obtain ⟨id, hid, structural, hstructural, h⟩ := h
  cases structural with
  | true => exact ⟨id, hid, hstructural⟩
  | false => cases h

theorem admitAccess_eq_ok (h : admitAccess db g s tenant user tuple = .ok ()) :
    ∃ id, checkedObject tenant tuple.resourceType (tenant ++ "/" ++ tuple.resourceId) = .ok id ∧
      db.checkPermission s user "manage" tuple.resourceType id = .ok true := by
  simp only [admitAccess, bind_eq_ok, ensure_eq_ok] at h
  obtain ⟨_, -, authorized, hauthorized, _, rfl, -⟩ := h
  exact isAuthorized_eq_ok hauthorized

theorem setResourceAccess_changes (ht : validateTenantId tenant = .ok tenant) {enabled : Bool} {r : Relationship}
    (h : ¬(db.stored (setResourceAccess db g s tenant user tuple enabled).1 r ↔ db.stored s r)) :
    r = relationshipOf tenant tuple ∧ admitAccess db g s tenant user tuple = .ok () := by
  rw [setResourceAccess] at h
  split at h
  · exact absurd .rfl h
  · cases hadmitted : admitAccess db g s tenant user tuple with
    | error e =>
        simp only [hadmitted] at h
        exact absurd trivial h
    | ok u =>
        simp only [hadmitted] at h
        refine ⟨?_, rfl⟩
        have hsame : ¬(db.stored (setMany db s tenant [tuple] enabled).1 r ↔ db.stored s r) := by
          split at h <;> simpa only using h
        rcases setMany_cases db s tenant [tuple] enabled with ⟨t, htenant, hwritten⟩ | ⟨-, hkept⟩
        · obtain rfl := Except.ok.inj (ht.symm.trans htenant)
          by_contra hne
          have hmem : r ∉ [tuple].map (relationshipOf tenant) := by simpa using hne
          apply hsame
          rw [hwritten r]
          simp only [hmem, and_false, false_or, not_false_eq_true, and_true]
        · exact absurd (hkept r) hsame

def ReadAgain (tenant : String) (tuple : AccessTuple) : Prop :=
  ∀ (σ : Type) (db : SpiceDb σ) (s : σ) (before later : List Write) (changes : List AccessTuple) (limit : Nat)
    (all : List Relationship), AllEscaped db s → tuple ∈ changes → Accepts (setMany db (run db s before) tenant changes true).2 →
    (∀ w ∈ later, ¬(w.enabled = false ∧ relationshipOf tenant tuple ∈ w.relationships)) →
    let s' := run db (setMany db (run db s before) tenant changes true).1 later
    (∀ r, db.stored s' r → Under (tenant ++ "/") r → r ∈ all) → all.length ≤ max 1 (min limit 501) →
    (db.readRelationships s' (tenant ++ "/") (max 1 (min limit 501))).isSome →
    ∃ found, tuples db s' tenant limit = .ok found ∧ tuple ∈ found

theorem read_again (ht : validateTenantId tenant = .ok tenant) (he : Editable tuple) : ReadAgain tenant tuple := by
  intro σ db s before later changes limit all hall hmem haccepts hlater s' hcovers hfits hread
  have hset : AllEscaped db (setMany db (run db s before) tenant changes true).1 :=
    apply_escaped db (run_escaped db hall before) (.setMany tenant changes true)
  have hstored : db.stored (setMany db (run db s before) tenant changes true).1 (relationshipOf tenant tuple) := by
    rcases setMany_cases db (run db s before) tenant changes true with ⟨t, htenant, hwritten⟩ | ⟨hfailed, -⟩
    · obtain rfl := Except.ok.inj (ht.symm.trans htenant)
      exact (hwritten _).mpr (.inl ⟨rfl, List.mem_map.mpr ⟨tuple, hmem, rfl⟩⟩)
    · exact absurd haccepts (hfailed (List.ne_nil_of_mem hmem))
  exact tuples_of_stored db (run_escaped db hset later) ht he (run_keeps db hstored hlater) hcovers hfits hread

/-- Access is granted on the object that was checked unless the resource id ends
in white space. Whatever was granted is read again as it was written, and an
object belongs to one resource. -/
theorem granted_on_checked (tenant : String) (tuple : AccessTuple) (ht : validateTenantId tenant = .ok tenant)
    (hv : validateResourceAccess tuple = .ok ()) :
    (ChecksWritten tenant tuple ↔ endsBlank tuple.resourceId = false) ∧
    (endsBlank tuple.resourceId = false →
      ∀ (σ : Type) (db : SpiceDb σ) (g : Services) (s : σ) (user : String) (enabled : Bool) (r : Relationship),
        ¬(db.stored (setResourceAccess db g s tenant user tuple enabled).1 r ↔ db.stored s r) →
        ∃ id, r.resource = some ⟨tuple.resourceType, id⟩ ∧ db.checkPermission s user "manage" tuple.resourceType id = .ok true) ∧
    ReadAgain tenant tuple ∧
    ∀ (tenant' : String) (tuple' : AccessTuple), validateTenantId tenant' = .ok tenant' → validateResourceAccess tuple' = .ok () →
      (relationshipOf tenant tuple).resource = (relationshipOf tenant' tuple').resource →
      tenant = tenant' ∧ tuple.resourceId = tuple'.resourceId := by
  have he := validateResourceAccess_eq_ok hv
  have hsame := checksWritten_iff ht he
  refine ⟨hsame, fun hend σ db g s user enabled r hr => ?_, read_again ht he, fun tenant' tuple' ht' hv' h => ?_⟩
  · obtain ⟨rfl, hadmitted⟩ := setResourceAccess_changes ht hr
    obtain ⟨id, hid, hresource⟩ := hsame.mpr hend
    obtain ⟨checked, hchecked, hallowed⟩ := admitAccess_eq_ok hadmitted
    obtain rfl := Except.ok.inj (hid.symm.trans hchecked)
    exact ⟨id, hresource, hallowed⟩
  · have he' := validateResourceAccess_eq_ok hv'
    rw [resource_relationshipOf he, resource_relationshipOf he'] at h
    simp only [Option.some.injEq, ObjectReference.mk.injEq] at h
    exact writtenObject_inj ht ht' h.2

def shared (resourceId : String) : AccessTuple := ⟨"document", resourceId, "reader", "role", "junior", "member"⟩

def under (start : String) (r : Relationship) : Bool := r.resource.any fun object => start.toList.isPrefixOf object.objectId.toList

theorem under_iff {start : String} {r : Relationship} : under start r = true ↔ Under start r := by
  simp only [under, Under, Option.any_eq_true, List.isPrefixOf_iff_prefix]

def relationStore : SpiceDb { rs : List Relationship // rs.Nodup } where
  stored := fun s r => r ∈ s.val
  checkPermission := fun s user permission resourceType id => .ok (permission == "manage" &&
    decide (⟨some ⟨resourceType, id⟩, "administrator", some ⟨some ⟨"user", user⟩, ""⟩⟩ ∈ s.val))
  writeRelationships := fun s updates =>
    (⟨updates.filterMap (fun u => if u.operation = .touch then u.relationship else none) ∪
      s.val.filter fun r => (⟨.delete, some r⟩ : RelationshipUpdate) ∉ updates, (s.property.filter _).union _⟩, true)
  readRelationships := fun s start limit => some ((s.val.filter (under start)).take limit |>.map some)
  write_stored := fun s updates => .inl fun r => by
    have htouched : r ∈ updates.filterMap (fun u => if u.operation = .touch then u.relationship else none) ↔
        (⟨.touch, some r⟩ : RelationshipUpdate) ∈ updates := by
      rw [List.mem_filterMap]
      constructor
      · rintro ⟨⟨operation, relationship⟩, hmem, h⟩
        split at h
        · next htouch =>
            subst htouch h
            exact hmem
        · cases h
      · exact fun hmem => ⟨_, hmem, rfl⟩
    simp only [List.mem_union_iff, htouched, List.mem_filter, decide_eq_true_eq]
  read_stored := by
    rintro s start limit items h item hitem
    obtain rfl := Option.some.inj h
    obtain ⟨r, hr, rfl⟩ := List.mem_map.mp hitem
    obtain ⟨hstored, hunder⟩ := List.mem_filter.mp (List.mem_of_mem_take hr)
    exact ⟨r, rfl, hstored, under_iff.mp hunder⟩
  read_complete := by
    rintro s start limit items h all hcovers hfits r hr hunder
    obtain rfl := Option.some.inj h
    have hlength : (s.val.filter (under start)).length ≤ limit := by
      refine (List.Subperm.length_le ((s.property.filter _).subperm fun r hr => ?_)).trans hfits
      obtain ⟨hstored, hunder⟩ := List.mem_filter.mp hr
      exact hcovers r hstored (under_iff.mp hunder)
    rw [List.take_of_length_le hlength]
    exact List.mem_map_of_mem (List.mem_filter.mpr ⟨hr, under_iff.mpr hunder⟩)

instance (s : { rs : List Relationship // rs.Nodup }) (r : Relationship) : Decidable (relationStore.stored s r) :=
  inferInstanceAs (Decidable (r ∈ s.val))

def administered : { rs : List Relationship // rs.Nodup } :=
  ⟨[⟨some ⟨"tenant", "acme"⟩, "administrator", some ⟨some ⟨"user", "ada"⟩, ""⟩⟩,
    ⟨some ⟨"document", "acme/report=201=2Etxt"⟩, "administrator", some ⟨some ⟨"user", "ada"⟩, ""⟩⟩], by decide⟩

def willing : Services := ⟨.ok (), fun _ _ => .ok (), fun _ _ => .ok true, fun _ _ _ _ _ => .ok true, fun _ => .ok (), true⟩

/-- What Ada grants is granted on the document that she administers, and it is
read again after another role has lost the same access. -/
theorem granted_on_checked_report :
    (setResourceAccess relationStore willing administered "acme" "ada" (shared "report 1.txt") true).2 = .ok () ∧
      relationStore.checkPermission administered "ada" "manage" "document" "acme/report=201=2Etxt" = .ok true ∧
      ∃ found, tuples relationStore (run relationStore
        (setMany relationStore administered "acme" [shared "report 1.txt"] true).1
        [.setMany "acme" [{ shared "report 1.txt" with subjectId := "senior" }] false]) "acme" 10 = .ok found ∧
        shared "report 1.txt" ∈ found := by
  have hgranted : (setResourceAccess relationStore willing administered "acme" "ada" (shared "report 1.txt") true).2 = .ok () := by
    decide +kernel
  obtain ⟨-, hchanged, hread, -⟩ :=
    granted_on_checked "acme" (shared "report 1.txt") (by decide +kernel) (by decide +kernel)
  refine ⟨hgranted, ?_, ?_⟩
  · obtain ⟨id, hid, hallowed⟩ := hchanged (by decide +kernel) _ relationStore willing administered "ada" true
      (relationshipOf "acme" (shared "report 1.txt")) (by decide +kernel)
    have hwritten : (relationshipOf "acme" (shared "report 1.txt")).resource = some ⟨"document", "acme/report=201=2Etxt"⟩ := by
      decide +kernel
    have hsame := Option.some.inj (hid.symm.trans hwritten)
    rw [ObjectReference.mk.injEq] at hsame
    rw [← hsame.2]
    exact hallowed
  · refine hread _ relationStore administered [] [.setMany "acme" [{ shared "report 1.txt" with subjectId := "senior" }] false]
      [shared "report 1.txt"] 10 _ ?_ List.mem_cons_self ⟨(), ?_⟩ ?_ (fun r hr _ => hr) ?_ rfl
    · intro r hr
      rcases List.mem_cons.mp hr with rfl | hr
      · exact ⟨"tenant", "acme", "administrator", "user", "ada", "", by decide +kernel⟩
      · obtain rfl := List.mem_singleton.mp hr
        exact ⟨"document", "acme/report 1.txt", "administrator", "user", "ada", "", by decide +kernel⟩
    · decide +kernel
    · decide +kernel
    · decide +kernel

/-- Whoever manages a document grants access to the document whose id has a
blank at its end. -/
theorem granted_elsewhere : ¬ ∀ (tenant : String) (tuple : AccessTuple), validateTenantId tenant = .ok tenant →
    validateResourceAccess tuple = .ok () → ChecksWritten tenant tuple := by
  intro h
  obtain ⟨id, hid, hresource⟩ := h "acme" (shared "report ") (by decide +kernel) (by decide +kernel)
  have hchecked : checkedObject "acme" "document" ("acme" ++ "/" ++ "report ") = .ok "acme/report" := by decide +kernel
  obtain rfl := Except.ok.inj (hid.symm.trans hchecked)
  revert hresource
  decide +kernel

end Granting

end Galadril.Iam.ResourceAccess
