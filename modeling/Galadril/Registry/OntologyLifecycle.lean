import Galadril.Registry.Bindings
import Galadril.Registry.OntologyCommands

namespace Galadril.Registry

open Json Lib.Checked Lib.Revisions Lib.Programs Identity Ontology

variable {clock : Nat → Int} {tenantId genesis : String} {s : Branchline} {op : Operation} {state : TenantState}

theorem Revision.ontologyId {record : OntologyRecord} {expected : String} {now : Int} {input : PutOntology}
    {command : OntologyCommand} {edited : OntologyEdit} (h : Revision record expected now input state command edited) :
    edited.1.ontologyId = record.ontologyId := by
  cases h <;> rfl

def OntologiesKeyed (tenantId : String) (s : Branchline) : Prop :=
  ∀ (id : String) (record : OntologyRecord), s.head.state.ontologies[id]? = some record →
    record.ontologyId = id ∧ validTenant tenantId = true ∧ validIdentity id = true

theorem Revises.keyed {id : String} {record : OntologyRecord} (h : Revises clock tenantId s id op record)
    (hs : OntologiesKeyed tenantId s) : record.ontologyId = id ∧ validTenant tenantId = true ∧ validIdentity id = true := by
  induction h with
  | put hid haddress valid creates replaces => exact ⟨hid, haddress⟩
  | merge merges h ih => exact ih
  | @publish input old pinned version hid hold live hpinned => exact hs id old hold
  | @retire publicationId revisionId old publication hold hpublication => exact hs id old hold
  | @author input command old edited hid hold live hedited =>
      obtain ⟨hkey, haddress⟩ := hs id old hold
      exact ⟨hedited.ontologyId.trans hkey, haddress⟩

theorem OntologiesKeyed.step {fresh : String} {hfresh : fresh ∉ s.ids} (hs : OntologiesKeyed tenantId s)
    (heffect : Effect clock tenantId s op state) : OntologiesKeyed tenantId (s.push fresh state hfresh) := by
  intro id record hrecord
  rcases heffect.ontology_cases hrecord with hkept | hrevised
  · exact hs id record hkept
  · exact hrevised.keyed hs

theorem ontologiesKeyed_init : OntologiesKeyed tenantId (Store.init genesis {}) := by
  intro id record h
  simp [Store.init] at h

theorem history_ontologiesKeyed (calls : List Call) : OntologiesKeyed tenantId (history tenantId genesis calls) :=
  history_invariant ontologiesKeyed_init (fun _ _ _ _ _ hs heffect _ _ => hs.step heffect) calls

/-- What deletion checked of the ontology it takes out of use. -/
structure Withdrawn (s : Branchline) (id : String) (old record : OntologyRecord) : Prop where
  hold : s.head.state.ontologies[id]? = some old
  live : old.authoring.deletedAtMs = none
  origin : old.ontology.get "plugin_origin" = none
  unbound : ∀ (key : String) (b : OntologyBindingRecord), s.head.state.bindings[key]? = some b →
    b.ontologyId ≠ old.ontologyId
  untargeted : ∀ (key : String) (other : OntologyRecord), key ≠ id → s.head.state.ontologies[key]? = some other →
    targets old.ontologyId other = false
  publication : record.productionPublication = none

/-- Only the deletion command leaves a record deleted, unless the record was in
production and deleted before. -/
theorem Revises.deleted_cases {id : String} {record : OntologyRecord} (h : Revises clock tenantId s id op record) :
    record.authoring.deletedAtMs = none ∨
      (∃ old, Withdrawn s id old record) ∨
      ∃ old, s.head.state.ontologies[id]? = some old ∧ old.authoring.deletedAtMs = record.authoring.deletedAtMs ∧
        old.productionPublication ≠ none := by
  induction h with
  | @put input hid haddress valid creates replaces =>
      left
      cases hold : s.head.state.ontologies[id]? with
      | none => rfl
      | some old => exact (replaces old hold).1
  | merge merges h ih => exact ih
  | publish hid hold live hpinned => exact .inl live
  | @retire publicationId revisionId old publication hold hpublication =>
      exact .inr (.inr ⟨old, hold, rfl, by simp [hpublication]⟩)
  | @author input command old edited hid hold live hedited =>
      cases hedited with
      | restore deleted => exact .inl rfl
      | delete origin unbound untargeted =>
          have live' : old.authoring.deletedAtMs = none := by simpa [OntologyCommand.restores] using live
          refine .inr (.inl ⟨old, hold, live', origin, unbound, fun key other hne hother => ?_, rfl⟩)
          refine untargeted key other ?_
          simpa [TenantState.withoutOntology, Ne.symm hne] using hother
      | _ =>
          have live' : old.authoring.deletedAtMs = none := by simpa [OntologyCommand.restores] using live
          exact .inl live'

structure Attached (s : Branchline) : Prop where
  unpublished : ∀ (id : String) (record : OntologyRecord), s.head.state.ontologies[id]? = some record →
    record.authoring.deletedAtMs ≠ none → record.productionPublication = none
  bound : ∀ (key : String) (b : OntologyBindingRecord), s.head.state.bindings[key]? = some b →
    ∃ record, s.head.state.ontologies[b.ontologyId]? = some record ∧ record.authoring.deletedAtMs = none

theorem Revises.live_or_withdrawn {id : String} {record : OntologyRecord} (h : Revises clock tenantId s id op record)
    (hs : Attached s) : record.authoring.deletedAtMs = none ∨ ∃ old, Withdrawn s id old record := by
  rcases h.deleted_cases with hlive | hwithdrawn | ⟨old, hold, hsame, hpublication⟩
  · exact .inl hlive
  · exact .inr hwithdrawn
  · left
    rw [← hsame]
    by_contra hdeleted
    exact hpublication (hs.unpublished id old hold hdeleted)

theorem validatePublishedBinding_production {b : OntologyBindingRecord}
    (h : (validatePublishedBinding tenantId state b).query backend s = .ok ()) :
    ∃ record, state.ontologies[b.ontologyId]? = some record ∧ record.productionPublication ≠ none := by
  simp [validatePublishedBinding] at h
  obtain ⟨-, publication, hpublication, -⟩ := h
  rw [production, Option.filter_eq_some_iff, Option.bind_eq_some_iff] at hpublication
  obtain ⟨⟨record, hrecord, hsome⟩, -⟩ := hpublication
  exact ⟨record, hrecord, by simp [hsome]⟩

theorem Binds.published {b : OntologyBindingRecord} (h : Binds clock tenantId s op b) :
    ∃ record, s.head.state.ontologies[b.ontologyId]? = some record ∧ record.productionPublication ≠ none := by
  cases h with
  | put hid hblock hpipeline hpublished => exact validatePublishedBinding_production hpublished
  | author hid hblock hrecord hpublished => exact validatePublishedBinding_production hpublished

/-- An operation that writes a binding leaves the ontologies alone. -/
theorem Revises.not_binds {id : String} {record : OntologyRecord} (h : Revises clock tenantId s id op record)
    {b : OntologyBindingRecord} (hb : Binds clock tenantId s op b) : False := by
  cases hb <;> cases h

theorem Attached.step {fresh : String} {hfresh : fresh ∉ s.ids} (hkeyed : OntologiesKeyed tenantId s)
    (hs : Attached s) (heffect : Effect clock tenantId s op state) : Attached (s.push fresh state hfresh) := by
  refine ⟨fun id record hrecord hdeleted => ?_, fun key b hb => ?_⟩
  · rcases heffect.ontology_cases hrecord with hkept | hrevised
    · exact hs.unpublished id record hkept hdeleted
    · rcases hrevised.live_or_withdrawn hs with hlive | ⟨old, hwithdrawn⟩
      · exact absurd hlive hdeleted
      · exact hwithdrawn.publication
  · -- The ontology was in use before, and deletion would have seen the binding.
    have hbefore : ∃ record, s.head.state.ontologies[b.ontologyId]? = some record ∧
        record.authoring.deletedAtMs = none ∧
        ((∃ key : String, s.head.state.bindings[key]? = some b) ∨ Binds clock tenantId s op b) := by
      rcases heffect.bindings_cases with hkept | ⟨new, hnew, hinsert, -⟩
      · have hb' : s.head.state.bindings[key]? = some b := hkept ▸ hb
        obtain ⟨record, hrecord, hlive⟩ := hs.bound key b hb'
        exact ⟨record, hrecord, hlive, .inl ⟨key, hb'⟩⟩
      · change state.bindings[key]? = some b at hb
        rw [hinsert, Keyed.getElem?_insert] at hb
        split at hb
        · obtain rfl := Option.some.inj hb
          obtain ⟨record, hrecord, hpublication⟩ := hnew.published
          refine ⟨record, hrecord, ?_, .inr hnew⟩
          by_contra hdeleted
          exact hpublication (hs.unpublished _ record hrecord hdeleted)
        · obtain ⟨record, hrecord, hlive⟩ := hs.bound key b hb
          exact ⟨record, hrecord, hlive, .inl ⟨key, hb⟩⟩
    obtain ⟨old, hold, hlive, hcause⟩ := hbefore
    obtain ⟨new, hnew⟩ := heffect.ontology_present hold
    refine ⟨new, hnew, ?_⟩
    rcases heffect.ontology_cases hnew with hkept | hrevised
    · obtain rfl := Option.some.inj (hold.symm.trans hkept)
      exact hlive
    · rcases hrevised.live_or_withdrawn hs with hlive' | ⟨old', hwithdrawn⟩
      · exact hlive'
      · rcases hcause with ⟨key, hb⟩ | hbinds
        · have hkey := (hkeyed _ old' hwithdrawn.hold).1
          exact absurd hkey.symm (hwithdrawn.unbound key b hb)
        · exact (hrevised.not_binds hbinds).elim

theorem history_attached (calls : List Call) : Attached (history tenantId genesis calls) := by
  have hboth : OntologiesKeyed tenantId (history tenantId genesis calls) ∧ Attached (history tenantId genesis calls) := by
    refine history_invariant (P := fun s => OntologiesKeyed tenantId s ∧ Attached s)
      ⟨ontologiesKeyed_init, ⟨?_, ?_⟩⟩ ?_ calls
    · intro id record h
      simp [Store.init] at h
    · intro key b h
      simp [Store.init] at h
    · rintro s clock op state fresh ⟨hkeyed, hs⟩ heffect - hfresh
      exact ⟨hkeyed.step heffect, hs.step hkeyed heffect⟩
  exact hboth.2

/-- In every reachable state each binding names an ontology that exists and is
not deleted, and no deleted ontology has a publication. -/
theorem bindings_attached (tenantId genesis : String) (calls : List Call) :
    (∀ (key : String) (b : OntologyBindingRecord), (history tenantId genesis calls).head.state.bindings[key]? = some b →
      ∃ record, (history tenantId genesis calls).head.state.ontologies[b.ontologyId]? = some record ∧
        record.authoring.deletedAtMs = none) ∧
    (∀ (id : String) (record : OntologyRecord),
      (history tenantId genesis calls).head.state.ontologies[id]? = some record →
        record.authoring.deletedAtMs.isSome = true → record.productionPublication = none) := by
  have hattached : Attached (history tenantId genesis calls) := history_attached calls
  exact ⟨hattached.bound, fun id record hrecord hdeleted =>
    hattached.unpublished id record hrecord (Option.isSome_iff_ne_none.mp hdeleted)⟩

def attachedCalls : List Call :=
  [callOf 6 (.authorOntology { bookInput with
      ontologyId := "draft", expectedRevisionId := some (revisionOf 5), createOnly := false } .delete),
    callOf 5 (.putOntology { bookInput with ontologyId := "draft" }),
    callOf 4 (.putBinding (revisionOf 3) (bookBinding ["person"] true)),
    callOf 3 (.putPipeline (mailInput [] none))] ++ bookCalls

theorem bindings_attached_book :
    (history "tenant" (revisionOf 0) attachedCalls).head.state.bindings[bindingKey "mail" "score"]? =
      some (bookBinding ["person"] true) ∧
    ((history "tenant" (revisionOf 0) attachedCalls).head.state.ontologies["draft"]?.any fun record =>
      record.authoring.deletedAtMs.isSome) = true ∧
    ∃ record, (history "tenant" (revisionOf 0) attachedCalls).head.state.ontologies[
      (bookBinding ["person"] true).ontologyId]? = some record ∧ record.authoring.deletedAtMs = none := by
  have hrun : (history "tenant" (revisionOf 0) attachedCalls).head.state.bindings[bindingKey "mail" "score"]? =
        some (bookBinding ["person"] true) ∧
      ((history "tenant" (revisionOf 0) attachedCalls).head.state.ontologies["draft"]?.any fun record =>
        record.authoring.deletedAtMs.isSome) = true := by
    decide +kernel
  exact ⟨hrun.1, hrun.2, (bindings_attached "tenant" (revisionOf 0) attachedCalls).1 _ _ hrun.1⟩

end Galadril.Registry
