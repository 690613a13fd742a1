import Galadril.Registry.MergeParts
import Galadril.Registry.OntologyLifecycle

namespace Galadril.Registry

open Json Lib.Checked Lib.Revisions Lib.Programs Lib.Replays Identity Ontology

variable {clock : Nat → Int} {tenantId genesis : String} {s : Branchline} {op : Operation} {state : TenantState}

def targetOf (model : Value) : Option String := (model.pointer "target_origin" "ontology_id").bind Value.asStr

def Deleted (state : TenantState) (id : String) : Prop :=
  (state.ontologies[id]?.any fun record => record.authoring.deletedAtMs.isSome) = true

def Live (state : TenantState) (id : String) : Prop :=
  (state.ontologies[id]?.any fun record => record.authoring.deletedAtMs.isNone) = true

instance (state : TenantState) (id : String) : Decidable (Deleted state id) := inferInstanceAs (Decidable (_ = true))

instance (state : TenantState) (id : String) : Decidable (Live state id) := inferInstanceAs (Decidable (_ = true))

theorem Live.not_deleted {id : String} (h : Live state id) : ¬ Deleted state id := by
  simp only [Live, Deleted, Option.any_eq_true] at h ⊢
  rintro ⟨other, hother, hdeleted⟩
  obtain ⟨record, hrecord, hlive⟩ := h
  obtain rfl := Option.some.inj (hrecord.symm.trans hother)
  simp [Option.isNone_iff_eq_none.mp hlive] at hdeleted

def OriginsLive (s : Branchline) : Prop :=
  ∀ (id : String) (record : OntologyRecord), s.head.state.ontologies[id]? = some record →
    record.authoring.deletedAtMs = none → ∀ target, targetOf record.ontology = some target →
      ¬ Deleted s.head.state target

def NamesLive (state : TenantState) (model : Value) : Prop := ∀ target ∈ targetOf model, Live state target

def WritesLive (tenantId : String) (s : Branchline) : Operation → Prop
  | .putOntology input => NamesLive s.head.state input.ontology
  | .mergeOntology input => ∀ merged, Merges tenantId s input merged → NamesLive s.head.state merged.ontology
  | .authorOntology input (.saveDraft _) => NamesLive s.head.state input.ontology
  | _ => True

def RevivesNone (s : Branchline) : Operation → Prop
  | .authorOntology input .restore => ∀ record ∈ s.head.state.ontologies[input.ontologyId]?,
      ∀ target ∈ targetOf record.ontology, target = input.ontologyId ∨ ¬ Deleted s.head.state target
  | .authorOntology input (.merge branch) => ∀ record ∈ s.head.state.ontologies[input.ontologyId]?,
      ∀ source ∈ record.authoring.branches[branch]?, source.parentBranch = "main" →
        ∀ target ∈ targetOf source.definition,
          target ∈ targetOf source.baseDefinition ∨ ¬ Deleted s.head.state target
  | _ => True

instance (state : TenantState) (model : Value) : Decidable (NamesLive state model) :=
  inferInstanceAs (Decidable (∀ target ∈ targetOf model, Live state target))

instance (s : Branchline) : (op : Operation) → Decidable (RevivesNone s op)
  | .authorOntology input command =>
      match command with
      | .restore => inferInstanceAs (Decidable (∀ record ∈ s.head.state.ontologies[input.ontologyId]?, _))
      | .merge _ => inferInstanceAs (Decidable (∀ record ∈ s.head.state.ontologies[input.ontologyId]?, _))
      | .createBranch _ _ | .saveDraft _ | .deleteBranch _ | .delete => isTrue trivial
  | .putBinding _ _ | .publishPipeline _ _ | .deletePipeline _ _ | .putOntology _ | .publishOntology _
  | .retireOntology _ _ _ | .mergeOntology _ | .authorPipeline _ _ | .putPipeline _ => isTrue trivial

theorem targetOf_eq_some {model : Value} {target : String} :
    targetOf model = some target ↔ descend (model.get "target_origin") ["ontology_id"] = some (.string target) := by
  rw [targetOf, Value.pointer]
  cases model.get "target_origin" with
  | none => simp
  | some v =>
      simp only [Option.bind_some, descend]
      cases v.get "ontology_id" with
      | none => simp
      | some w => cases w <;> simp [Value.asStr]

/-- The target of a merged model is that of the model merged into, or one that
the branch introduced. -/
theorem CleanMerge.target {base main source merged : Value} (h : CleanMerge base main source merged) {target : String}
    (ht : targetOf merged = some target) :
    targetOf main = some target ∨ targetOf source = some target ∧ targetOf base ≠ some target := by
  obtain ⟨outcome, houtcome, -, hmerged⟩ := h
  rw [targetOf_eq_some] at ht
  rcases merged_string houtcome hmerged (by decide) ht with hmain | hsource
  · exact .inl (targetOf_eq_some.mpr hmain)
  · by_cases hbase : targetOf base = some target
    · left
      have hlaw := (mergedAt_root houtcome hmerged (show "target_origin" ≠ "resources" by decide)
        ["ontology_id"]).right_unchanged
      rw [hsource, targetOf_eq_some.mp hbase, ht] at hlaw
      exact targetOf_eq_some.mpr (same_string.mp (hlaw (.refl _)).symm)
    · exact .inr ⟨targetOf_eq_some.mpr hsource, hbase⟩

theorem Effect.deleted_cases (h : Effect clock tenantId s op state) (hs : Attached s) {id : String}
    (hdeleted : Deleted state id) :
    Deleted s.head.state id ∨ op.ontology = some id ∧ ∃ old record, Withdrawn s id old record := by
  obtain ⟨record, hrecord, hsome⟩ := (Option.any_eq_true _ _).mp hdeleted
  rcases h.ontology_cases hrecord with hkept | hrevised
  · exact .inl ((Option.any_eq_true _ _).mpr ⟨record, hkept, hsome⟩)
  · rcases hrevised.live_or_withdrawn hs with hlive | ⟨old, hwithdrawn⟩
    · simp [hlive] at hsome
    · exact .inr ⟨hrevised.addressed, old, record, hwithdrawn⟩

/-- The target that a write leaves in a model in use is the model itself, or
not deleted, or the target it had. -/
theorem Revises.target_cases {id : String} {record : OntologyRecord} (h : Revises clock tenantId s id op record)
    (hwrites : WritesLive tenantId s op) (hrevives : RevivesNone s op) {target : String}
    (hlive : record.authoring.deletedAtMs = none) (ht : targetOf record.ontology = some target) :
    target = id ∨ ¬ Deleted s.head.state target ∨
      ∃ old, s.head.state.ontologies[id]? = some old ∧ old.authoring.deletedAtMs = none ∧
        targetOf old.ontology = some target := by
  induction h with
  | put hid haddress valid creates replaces => exact .inr (.inl (hwrites target ht).not_deleted)
  | @merge input merged record merges h ih => exact ih (hwrites merged merges) trivial hlive ht
  | @publish input old pinned version hid hold live hpinned => exact .inr (.inr ⟨old, hold, live, ht⟩)
  | @retire publicationId revisionId old publication hold hpublication => exact .inr (.inr ⟨old, hold, hlive, ht⟩)
  | @author input command old edited hid hold live hedited =>
      subst hid
      cases hedited with
      | saveMain valid origin => exact .inr (.inl (hwrites target ht).not_deleted)
      | @mergeMain branch name source merged hmain hsource hparent hmerged =>
          rcases hmerged.target ht with hold' | ⟨hsource', hbase⟩
          · exact .inr (.inr ⟨old, hold, hlive, hold'⟩)
          · rcases hrevives old hold source hsource hparent target hsource' with hbase' | hnot
            · exact absurd hbase' hbase
            · exact .inr (.inl hnot)
      | delete origin unbound untargeted => cases hlive
      | restore deleted =>
          rcases hrevives old hold target ht with hself | hnot
          · exact .inl hself
          · exact .inr (.inl hnot)
      | _ => exact .inr (.inr ⟨old, hold, hlive, ht⟩)

theorem OriginsLive.step {fresh : String} {hfresh : fresh ∉ s.ids} (hkeyed : OntologiesKeyed tenantId s)
    (hattached : Attached s) (hs : OriginsLive s) (hwrites : WritesLive tenantId s op) (hrevives : RevivesNone s op)
    (heffect : Effect clock tenantId s op state) : OriginsLive (s.push fresh state hfresh) := by
  intro id record hrecord hlive target ht hdeleted
  change state.ontologies[id]? = some record at hrecord
  change Deleted state target at hdeleted
  have hne : target ≠ id := by
    rintro rfl
    simp [Deleted, hrecord, hlive] at hdeleted
  -- Deletion looked at every other model in use.
  have hnone : ∀ (key : String) (other : OntologyRecord), key ≠ target → s.head.state.ontologies[key]? = some other →
      other.authoring.deletedAtMs = none → targetOf other.ontology = some target → False := by
    intro key other hkey hother hlive' ht'
    rcases heffect.deleted_cases hattached hdeleted with hbefore | ⟨-, old, new, hwithdrawn⟩
    · exact hs key other hother hlive' target ht' hbefore
    · have hfalse := hwithdrawn.untargeted key other hkey hother
      rw [(hkeyed target old hwithdrawn.hold).1] at hfalse
      rw [targetOf] at ht'
      simp [targets, hlive', ht'] at hfalse
  rcases heffect.ontology_cases hrecord with hkept | hrevised
  · exact hnone id record hne.symm hkept hlive ht
  · rcases hrevised.target_cases hwrites hrevives hlive ht with hself | hnot | ⟨old, hold, hlive', ht'⟩
    · exact hne hself
    · rcases heffect.deleted_cases hattached hdeleted with hbefore | ⟨haddressed, -⟩
      · exact hnot hbefore
      · exact hne (Option.some.inj (haddressed.symm.trans hrevised.addressed))
    · exact hnone id old hne.symm hold hlive' ht'

/-- In every run whose writes name ontologies in use and whose committed
restorations and merges revive no reference to a deleted one, no model in use
derives from a deleted ontology. -/
theorem origins_live (tenantId genesis : String) (calls : List Call)
    (hwrites : EachStep (fun earlier call => WritesLive tenantId (history tenantId genesis earlier) call.operation) calls)
    (hrevives : EachStep (fun earlier call => call.Moves tenantId genesis earlier →
      RevivesNone (history tenantId genesis earlier) call.operation) calls) :
    OriginsLive (history tenantId genesis calls) := by
  induction calls with
  | nil =>
      intro id record h
      simp [history, Store.init] at h
  | cons call earlier ih =>
      have hs := ih hwrites.2 hrevives.2
      rcases history_cons call earlier with hsame | ⟨-, state, heffect, hfresh, hpush⟩
      · rw [hsame]
        exact hs
      · rw [hpush]
        exact hs.step (history_ontologiesKeyed earlier) (history_attached earlier) hwrites.1
          (hrevives.1 (moves_of_push hpush)) heffect

def derivedCalls : List Call :=
  [callOf 2 (.putOntology (modelInput "crm" [("target_origin", .object [("ontology_id", .string "base")])] none)),
    callOf 1 (.putOntology (modelInput "base" [] none))]

theorem namesLive_put {id : String} {more : Members} {expected : Option String}
    (h : NamesLive s.head.state (bareModel more)) : WritesLive tenantId s (.putOntology (modelInput id more expected)) := h

theorem namesLive_save {n : Nat} {id branch : String} {more : Members} (h : NamesLive s.head.state (bareModel more)) :
    WritesLive tenantId s (modelCommand n id more (.saveDraft branch)).operation := h

theorem origins_live_restored :
    OriginsLive (history "tenant" (revisionOf 0)
      ([modelCommand 3 "crm" [] .restore, modelCommand 2 "crm" [] .delete] ++ derivedCalls)) := by
  have hrevives : EachStep (fun earlier call => RevivesNone (history "tenant" (revisionOf 0) earlier) call.operation)
      ([modelCommand 3 "crm" [] .restore, modelCommand 2 "crm" [] .delete] ++ derivedCalls) := by
    decide +kernel
  refine origins_live _ _ _
    ⟨trivial, trivial, namesLive_put (by decide +kernel), namesLive_put (by decide +kernel), trivial⟩
    (hrevives.of _)

def restoredCalls : List Call :=
  [modelCommand 4 "crm" [] .restore, modelCommand 3 "base" [] .delete, modelCommand 2 "crm" [] .delete] ++ derivedCalls

def mergedCalls : List Call :=
  [modelCommand 5 "crm" [] (.merge "edit"), modelCommand 4 "base" [] .delete,
    modelCommand 3 "crm" [("target_origin", .object [("ontology_id", .string "base")])] (.saveDraft "edit"),
    modelCommand 2 "crm" [] (.createBranch "edit" "main"),
    callOf 2 (.putOntology (modelInput "crm" [] none)), callOf 1 (.putOntology (modelInput "base" [] none))]

theorem not_originsLive {s : Branchline} (h : (s.head.state.ontologies["crm"]?.any fun record =>
    record.authoring.deletedAtMs.isNone && targetOf record.ontology == some "base") = true)
    (hdeleted : Deleted s.head.state "base") : ¬ OriginsLive s := by
  intro hs
  obtain ⟨record, hrecord, hcond⟩ := (Option.any_eq_true _ _).mp h
  simp only [Bool.and_eq_true, Option.isNone_iff_eq_none, beq_iff_eq] at hcond
  exact hs "crm" record hrecord hcond.1 "base" hcond.2 hdeleted

theorem origins_revived :
    (EachStep (fun earlier call => WritesLive "tenant" (history "tenant" (revisionOf 0) earlier) call.operation)
      restoredCalls ∧ ¬ OriginsLive (history "tenant" (revisionOf 0) restoredCalls)) ∧
    EachStep (fun earlier call => WritesLive "tenant" (history "tenant" (revisionOf 0) earlier) call.operation)
      mergedCalls ∧ ¬ OriginsLive (history "tenant" (revisionOf 0) mergedCalls) := by
  have hbare (s : Branchline) : NamesLive s.head.state (bareModel []) := by
    have hnone : targetOf (bareModel []) = none := by decide +kernel
    intro target htarget
    simp [hnone] at htarget
  have hrestored : NamesLive (history "tenant" (revisionOf 0) [callOf 1 (.putOntology (modelInput "base" [] none))]).head.state
        (bareModel [("target_origin", .object [("ontology_id", .string "base")])]) ∧
      ((history "tenant" (revisionOf 0) restoredCalls).head.state.ontologies["crm"]?.any fun record =>
        record.authoring.deletedAtMs.isNone && targetOf record.ontology == some "base") = true ∧
      Deleted (history "tenant" (revisionOf 0) restoredCalls).head.state "base" := by
    decide +kernel
  have hmerged : NamesLive (history "tenant" (revisionOf 0) [modelCommand 2 "crm" [] (.createBranch "edit" "main"),
        callOf 2 (.putOntology (modelInput "crm" [] none)), callOf 1 (.putOntology (modelInput "base" [] none))]).head.state
        (bareModel [("target_origin", .object [("ontology_id", .string "base")])]) ∧
      ((history "tenant" (revisionOf 0) mergedCalls).head.state.ontologies["crm"]?.any fun record =>
        record.authoring.deletedAtMs.isNone && targetOf record.ontology == some "base") = true ∧
      Deleted (history "tenant" (revisionOf 0) mergedCalls).head.state "base" := by
    decide +kernel
  exact ⟨⟨⟨trivial, trivial, trivial, namesLive_put hrestored.1, namesLive_put (hbare _), trivial⟩,
      not_originsLive hrestored.2.1 hrestored.2.2⟩,
    ⟨trivial, trivial, namesLive_save hmerged.1, trivial, namesLive_put (hbare _), namesLive_put (hbare _), trivial⟩,
    not_originsLive hmerged.2.1 hmerged.2.2⟩

end Galadril.Registry
