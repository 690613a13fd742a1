import Galadril.Registry.Runs

namespace Galadril.Registry

open Json Lib.Checked Lib.Revisions Lib.Programs Identity Ontology

theorem branches_withBranch (record : OntologyRecord) (branch key : String) (value : OntologyBranch) :
    (withBranch record branch value).authoring.branches[key]? =
      if branch = key then some value else record.authoring.branches[key]? := Keyed.getElem?_insert _ _ _ _

section Edits

variable (record : OntologyRecord) (expected : String) (now : Int) (input : PutOntology) (state : TenantState)

inductive Tip : String → Value → String → Prop
  | main : Tip "main" record.ontology record.displayName
  | branch {name : String} {value : OntologyBranch} (hmain : name ≠ "main")
      (hvalue : record.authoring.branches[name]? = some value) : Tip name value.definition value.displayName

def CleanMerge (base target source merged : Value) : Prop :=
  ∃ outcome, Ontology.mergeOntology base target source = .ok outcome ∧ outcome.conflicts = [] ∧
    outcome.ontology = some merged

def OntologyBranch.rebased (source : OntologyBranch) (expected : String) : OntologyBranch :=
  { source with
    baseDefinition := source.definition
    baseDisplayName := source.displayName
    baseRevisionId := expected }

inductive Revision : OntologyCommand → OntologyEdit → Prop
  | fork {branch fromBranch name : String} {definition : Value} (hvalid : validBranch branch = true)
      (hmain : branch ≠ "main") (hnew : record.authoring.branches[branch]? = none)
      (hroom : record.authoring.branches.size < 20) (htip : Tip record fromBranch definition name) :
      Revision (.createBranch branch fromBranch) (withBranch record branch {
        parentBranch := fromBranch
        definition
        displayName := name
        baseDefinition := definition
        baseDisplayName := name
        baseRevisionId := expected
        author := input.author
        updatedAtMs := now }, branch)
  | saveMain (valid : validateOntology input.ontology = .ok ())
      (origin : Same (record.ontology.get "plugin_origin") (input.ontology.get "plugin_origin")) :
      Revision (.saveDraft "main")
        ({ record with ontology := input.ontology, displayName := input.displayName }, "main")
  | saveBranch {branch : String} {selected : OntologyBranch} (hmain : branch ≠ "main")
      (hselected : record.authoring.branches[branch]? = some selected)
      (origin : Same (record.ontology.get "plugin_origin") (input.ontology.get "plugin_origin")) :
      Revision (.saveDraft branch) (withBranch record branch {
        selected with
        definition := input.ontology
        displayName := input.displayName
        author := input.author
        updatedAtMs := now }, branch)
  | mergeMain {branch name : String} {source : OntologyBranch} {merged : Value} (hmain : branch ≠ "main")
      (hsource : record.authoring.branches[branch]? = some source) (hparent : source.parentBranch = "main")
      (hmerged : CleanMerge source.baseDefinition record.ontology source.definition merged) :
      Revision (.merge branch)
        ({ withBranch record branch (source.rebased expected) with ontology := merged, displayName := name },
          source.parentBranch)
  | mergeBranch {branch name : String} {source parent target : OntologyBranch} {merged : Value}
      (hmain : branch ≠ "main") (hsource : record.authoring.branches[branch]? = some source)
      (hparent : source.parentBranch ≠ "main")
      (htarget : record.authoring.branches[source.parentBranch]? = some target)
      (hmerged : CleanMerge source.baseDefinition target.definition source.definition merged)
      (hrebased : (withBranch record branch (source.rebased expected)).authoring.branches[source.parentBranch]? =
        some parent) :
      Revision (.merge branch) (withBranch (withBranch record branch (source.rebased expected)) source.parentBranch {
        parent with
        definition := merged
        displayName := name
        author := input.author
        updatedAtMs := now }, source.parentBranch)
  | remove {branch : String} (hmain : branch ≠ "main")
      (hchildren : ∀ (key : String) (child : OntologyBranch), record.authoring.branches[key]? = some child →
        child.parentBranch ≠ branch) :
      Revision (.deleteBranch branch) ({ record with
        authoring := { record.authoring with branches := record.authoring.branches.erase branch } }, branch)
  | delete (origin : record.ontology.get "plugin_origin" = none)
      (unbound : ∀ (key : String) (b : OntologyBindingRecord), state.bindings[key]? = some b →
        b.ontologyId ≠ record.ontologyId)
      (untargeted : ∀ (key : String) (other : OntologyRecord), state.ontologies[key]? = some other →
        targets record.ontologyId other = false) :
      Revision .delete ({ record with
        authoring := { record.authoring with deletedAtMs := some now }
        productionPublication := none }, "main")
  | restore (deleted : record.authoring.deletedAtMs ≠ none) :
      Revision .restore ({ record with authoring := { record.authoring with deletedAtMs := none } }, "main")

variable {record expected now input state} {s : Branchline}

theorem tip_of_query {branch : String} {found : Value × String} (h : (tip record branch).query backend s = .ok found) :
    Tip record branch found.1 found.2 := by
  unfold tip at h
  split at h
  · next hmain =>
      subst hmain
      obtain rfl := Except.ok.inj h
      exact .main
  · next hmain =>
      simp at h
      obtain ⟨value, hvalue, rfl⟩ := h
      exact .branch hmain hvalue

theorem mergeBranch_revision {branch : String} {edited : OntologyEdit}
    (h : (mergeBranch record expected input.author now branch).query backend s = .ok edited) :
    Revision record expected now input state (.merge branch) edited := by
  simp [mergeBranch] at h
  obtain ⟨hmain, source, hsource, target, name, htip, -, outcome, houtcome, hclean, merged, hmerged, after, hafter,
    rfl⟩ := h
  have hmerge : CleanMerge source.baseDefinition target source.definition merged := ⟨outcome, houtcome, hclean, hmerged⟩
  unfold mergeInto at hafter
  split at hafter
  · next hparent =>
      obtain rfl := Except.ok.inj hafter
      have hfound := tip_of_query htip
      rw [hparent] at hfound
      cases hfound with
      | main => exact .mergeMain hmain hsource hparent hmerge
      | branch hne hvalue => exact absurd rfl hne
  · next hparent =>
      simp at hafter
      obtain ⟨parent, hrebased, rfl⟩ := hafter
      generalize hname : source.parentBranch = parentName at htip hparent
      cases tip_of_query htip with
      | main => exact absurd rfl hparent
      | branch hne hvalue =>
          subst hname
          exact .mergeBranch hmain hsource hparent hvalue hmerge hrebased

theorem applyOntologyCommand_revision {command : OntologyCommand} {edited : OntologyEdit}
    (h : (applyOntologyCommand record expected now input state command).query backend s = .ok edited) :
    Revision record expected now input state command edited := by
  cases command with
  | createBranch branch fromBranch =>
      simp [applyOntologyCommand, fork] at h
      obtain ⟨⟨⟨hvalid, hmain⟩, hnew⟩, hroom, definition, name, htip, rfl⟩ := h
      exact .fork hvalid hmain (Std.ExtTreeMap.getElem?_eq_none hnew) hroom (tip_of_query htip)
  | saveDraft branch =>
      simp [applyOntologyCommand, saveBranch] at h
      obtain ⟨-, -, ⟨_, valid⟩, origin, saved, hsaved, rfl⟩ := h
      unfold saveInto at hsaved
      split at hsaved
      · next hmain =>
          subst hmain
          obtain rfl := Except.ok.inj hsaved
          exact .saveMain valid origin
      · next hmain =>
          simp at hsaved
          obtain ⟨selected, hselected, rfl⟩ := hsaved
          exact .saveBranch hmain hselected origin
  | merge branch => exact mergeBranch_revision h
  | deleteBranch branch =>
      simp [applyOntologyCommand, removeBranch] at h
      obtain ⟨⟨hmain, -⟩, hchildren, rfl⟩ := h
      exact .remove hmain fun key child hchild => hchildren child (Keyed.mem_values.mpr ⟨key, hchild⟩)
  | delete =>
      simp [applyOntologyCommand, deleteOntology] at h
      obtain ⟨origin, unbound, untargeted, rfl⟩ := h
      exact .delete origin (fun key b hb => unbound b (Keyed.mem_values.mpr ⟨key, hb⟩))
        fun key other hother => untargeted other (Keyed.mem_values.mpr ⟨key, hother⟩)
  | restore =>
      simp [applyOntologyCommand, restoreOntology] at h
      obtain ⟨deleted, rfl⟩ := h
      exact .restore (Option.isSome_iff_ne_none.mp deleted)

end Edits

variable {clock : Nat → Int} {tenantId : String} {s : Branchline} {op : Operation} {state : TenantState}

inductive Revises (clock : Nat → Int) (tenantId : String) (s : Branchline) (id : String) :
    Operation → OntologyRecord → Prop
  | put {input : PutOntology} (hid : input.ontologyId = id)
      (haddress : validTenant tenantId = true ∧ validIdentity id = true)
      (valid : validateOntology input.ontology = .ok ())
      (creates : input.createOnly = s.head.state.ontologies[id]?.isNone)
      (replaces : ∀ old, s.head.state.ontologies[id]? = some old → old.authoring.deletedAtMs = none ∧
        ∀ origin, old.ontology.get "plugin_origin" = some origin →
          Same (input.ontology.get "plugin_origin") (some origin)) :
      Revises clock tenantId s id (.putOntology input)
        (replacedOntology clock s.head.revisionId input s.head.state.ontologies[id]?)
  | merge {input : MergeRevisions} {merged : PutOntology} {record : OntologyRecord}
      (merges : Merges tenantId s input merged) (h : Revises clock tenantId s id (.putOntology merged) record) :
      Revises clock tenantId s id (.mergeOntology input) record
  | publish {input : PublishOntology} {old : OntologyRecord} {pinned : OntologyView} {version : String}
      (hid : input.ontologyId = id) (hold : s.head.state.ontologies[id]? = some old)
      (live : old.authoring.deletedAtMs = none)
      (hpinned : (ontologyAt tenantId id input.revisionId).query backend s = .ok pinned) :
      Revises clock tenantId s id (.publishOntology input) (old.publishedAs s.head.revisionId input.displayName
        (publicationOf input pinned.record version (clock 0)) (clock 1))
  | retire {publicationId revisionId : String} {old : OntologyRecord} {publication : OntologyPublicationRecord}
      (hold : s.head.state.ontologies[id]? = some old) (hpublication : old.productionPublication = some publication) :
      Revises clock tenantId s id (.retireOntology id publicationId revisionId)
        (old.retired s.head.revisionId publication (clock 0) (clock 1))
  | author {input : PutOntology} {command : OntologyCommand} {old : OntologyRecord} {edited : OntologyEdit}
      (hid : input.ontologyId = id) (hold : s.head.state.ontologies[id]? = some old)
      (live : old.authoring.deletedAtMs = none ∨ command.restores = true)
      (hedited : Revision old s.head.revisionId (clock 0) input (s.head.state.withoutOntology id) command edited) :
      Revises clock tenantId s id (.authorOntology input command)
        (edited.1.stampedBy s.head.revisionId edited.2 command input.author (clock 1))

def Operation.ontology : Operation → Option String
  | .putOntology input => some input.ontologyId
  | .publishOntology input => some input.ontologyId
  | .retireOntology ontologyId _ _ => some ontologyId
  | .mergeOntology input => some input.ontologyId
  | .authorOntology input _ => some input.ontologyId
  | _ => none

theorem Revises.addressed {id : String} {record : OntologyRecord} (h : Revises clock tenantId s id op record) :
    op.ontology = some id := by
  cases h with
  | put hid haddress valid creates replaces => exact congrArg some hid
  | merge merges h =>
      cases h with
      | put hid haddress valid creates replaces => exact congrArg some (merges.addressed.symm.trans hid)
  | publish hid hold live hpinned => exact congrArg some hid
  | retire hold hpublication => rfl
  | author hid hold live hedited => exact congrArg some hid

theorem query_replaceable {input : PutOntology} {old : OntologyRecord}
    (h : (replaceable input old).query backend s = .ok ()) : old.authoring.deletedAtMs = none ∧
      ∀ origin, old.ontology.get "plugin_origin" = some origin →
        Same (input.ontology.get "plugin_origin") (some origin) := by
  simp [replaceable] at h
  refine ⟨h.1, fun origin horigin => ?_⟩
  have hsame := h.2
  rw [horigin] at hsame
  simpa using hsame

/-- An operation writes the record of the ontology it addresses and no other. -/
theorem Effect.ontology_step (h : Effect clock tenantId s op state) (id : String) :
    op.ontology ≠ some id ∧ state.ontologies[id]? = s.head.state.ontologies[id]? ∨
      op.ontology = some id ∧ ∃ record, state.ontologies[id]? = some record ∧ Revises clock tenantId s id op record := by
  induction h with
  | putPipeline hid unmanaged creates => exact .inl ⟨nofun, rfl⟩
  | publishPipeline hold live unmanaged runs => exact .inl ⟨nofun, rfl⟩
  | deletePipeline hold => exact .inl ⟨nofun, rfl⟩
  | @putOntology input hid valid creates replaces =>
      rw [TenantState.withOntology_ontologies]
      split
      · next hk =>
          subst hk
          exact .inr ⟨rfl, _, rfl, .put rfl hid valid creates fun old hold => query_replaceable (replaces old hold)⟩
      · next hk => exact .inl ⟨fun he => hk (Option.some.inj he), rfl⟩
  | @publishOntology input old pinned version hold live hpinned =>
      rw [TenantState.withOntology_ontologies]
      split
      · next hk =>
          subst hk
          exact .inr ⟨rfl, _, rfl, .publish rfl hold live hpinned⟩
      · next hk => exact .inl ⟨fun he => hk (Option.some.inj he), rfl⟩
  | @retireOntology ontologyId publicationId revisionId old publication hold hpublication =>
      rw [TenantState.withOntology_ontologies]
      split
      · next hk =>
          subst hk
          exact .inr ⟨rfl, _, rfl, .retire hold hpublication⟩
      · next hk => exact .inl ⟨fun he => hk (Option.some.inj he), rfl⟩
  | putBinding hid hblock hpipeline hpublished => exact .inl ⟨nofun, rfl⟩
  | @mergeOntology input merged state merges h ih =>
      have haddressed : (Operation.mergeOntology input).ontology = (Operation.putOntology merged).ontology :=
        congrArg some merges.addressed.symm
      rw [haddressed]
      rcases ih with hkept | ⟨hid, record, hrecord, hrevised⟩
      · exact .inl hkept
      · exact .inr ⟨hid, record, hrecord, .merge merges hrevised⟩
  | authorPipeline hid creates edits hedited => exact .inl ⟨nofun, rfl⟩
  | @authorOntology input command old edited hold live hedited =>
      rw [TenantState.withOntology_ontologies]
      split
      · next hk =>
          subst hk
          exact .inr ⟨rfl, _, rfl, .author rfl hold live (applyOntologyCommand_revision hedited)⟩
      · next hk => exact .inl ⟨fun he => hk (Option.some.inj he), rfl⟩

theorem Effect.ontology_cases (h : Effect clock tenantId s op state) {id : String} {record : OntologyRecord}
    (hrecord : state.ontologies[id]? = some record) :
    s.head.state.ontologies[id]? = some record ∨ Revises clock tenantId s id op record := by
  rcases h.ontology_step id with ⟨-, hkept⟩ | ⟨-, written, hwritten, hrevised⟩
  · exact .inl (hkept.symm.trans hrecord)
  · obtain rfl := Option.some.inj (hwritten.symm.trans hrecord)
    exact .inr hrevised

theorem Effect.ontology_present (h : Effect clock tenantId s op state) {id : String} {old : OntologyRecord}
    (hold : s.head.state.ontologies[id]? = some old) : ∃ new, state.ontologies[id]? = some new := by
  rcases h.ontology_step id with ⟨-, hkept⟩ | ⟨-, written, hwritten, -⟩
  · exact ⟨old, hkept.trans hold⟩
  · exact ⟨written, hwritten⟩

def bareModel (more : Members) : Value := .object ([("version", .string "1"), ("resources", .array [])] ++ more)

def modelInput (id : String) (more : Members) (expected : Option String) : PutOntology where
  ontologyId := id
  displayName := id
  ontology := bareModel more
  author := "author"
  message := "message"
  expectedRevisionId := expected
  createOnly := expected.isNone

def modelCommand (n : Nat) (id : String) (more : Members) (command : OntologyCommand) : Call :=
  callOf (n + 1) (.authorOntology (modelInput id more (some (revisionOf n))) command)

end Galadril.Registry
