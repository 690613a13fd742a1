import Galadril.Registry.MergeParts
import Galadril.Registry.OntologyLifecycle

namespace Galadril.Registry

open Json Lib.Checked Lib.Revisions Lib.Programs Lib.Replays Identity Ontology

variable {clock : Nat → Int} {tenantId genesis : String} {s : Branchline} {op : Operation} {state : TenantState}

def origin (model : Value) : Option Value := model.get "plugin_origin"

/-- A branch has either no provenance or that of the main model, and its base
has none that its tip lacks. -/
structure Inherits (main tip base : Option Value) : Prop where
  inherited : tip = none ∨ Same tip main
  based : base = none ∨ Same base tip

section Branches

variable {main main' tip base target source merged : Option Value}

theorem Inherits.congr (h : Inherits main tip base) (hm : Same main main') : Inherits main' tip base :=
  ⟨h.inherited.imp_right fun hs => hs.trans hm, h.based⟩

/-- While the main model has no provenance, no branch has any. -/
theorem Inherits.of_none (h : Inherits none tip base) : Inherits main tip base := by
  have htip : tip = none := by simpa using h.inherited
  exact ⟨.inl htip, h.based⟩

theorem Inherits.fork (h : tip = none ∨ Same tip main) : Inherits main tip tip := ⟨h, .inr (.refl _)⟩

theorem Inherits.save (h : Inherits main tip base) (hs : Same main source) : Inherits main source base := by
  refine ⟨.inr hs.symm, ?_⟩
  rcases h.based with hbase | hbase
  · exact .inl hbase
  · rcases h.inherited with htip | htip
    · subst htip
      exact .inl (by simpa using hbase)
    · exact .inr (hbase.trans (htip.trans hs))

/-- A merge into the main model keeps its provenance. -/
theorem Inherits.merge_main (h : MergedAt base main source merged) (hi : Inherits main source base) :
    Same merged main := by
  rcases hi.based with hbase | hbase
  · rcases hi.inherited with htip | htip
    · exact h.right_unchanged (by simp [htip, hbase])
    · exact h.agreed htip.symm
  · exact h.right_unchanged hbase.symm

theorem Inherits.merge_branch (h : MergedAt base target source merged) (hi : Inherits main source base)
    {parentBase : Option Value} (hp : Inherits main target parentBase) : Inherits main merged parentBase := by
  by_cases hkept : Same merged target
  · refine ⟨?_, hp.based.imp_right fun hs => hs.trans hkept.symm⟩
    rcases hp.inherited with htip | htip
    · subst htip
      exact .inl (by simpa using hkept)
    · exact .inr (hkept.trans htip)
  · -- Only a provenance new to the target can have changed it.
    have hbase : base = none := by
      rcases hi.based with hbase | hbase
      · exact hbase
      · exact absurd (h.right_unchanged hbase.symm) hkept
    have hsource : Same source main := by
      rcases hi.inherited with htip | htip
      · exact absurd (h.right_unchanged (by simp [htip, hbase])) hkept
      · exact htip
    have htarget : target = none := by
      rcases hp.inherited with htip | htip
      · exact htip
      · exact absurd (h.agreed (htip.trans hsource.symm)) hkept
    subst hbase htarget
    refine ⟨.inr ((h.left_unchanged (.refl _)).trans hsource), .inl ?_⟩
    simpa using hp.based

end Branches

/-- The provenance of a model reaches its branches and protects it from
deletion. -/
structure Traced (record : OntologyRecord) : Prop where
  protect : origin record.ontology ≠ none → record.authoring.deletedAtMs = none
  branches : ∀ (key : String) (b : OntologyBranch), record.authoring.branches[key]? = some b →
    Inherits (origin record.ontology) (origin b.definition) (origin b.baseDefinition)

theorem CleanMerge.mergedAt {base target source merged : Value} (h : CleanMerge base target source merged) :
    MergedAt (origin base) (origin target) (origin source) (origin merged) := by
  obtain ⟨outcome, houtcome, -, hmerged⟩ := h
  exact mergedAt_root houtcome hmerged (by decide) []

variable {record : OntologyRecord} {expected : String} {now : Int} {input : PutOntology}
  {command : OntologyCommand} {edited : OntologyEdit}

theorem Traced.tip (h : Traced record) {branch name : String} {definition : Value} (htip : Tip record branch definition name) :
    origin definition = none ∨ Same (origin definition) (origin record.ontology) := by
  cases htip with
  | main => exact .inr (.refl _)
  | branch hmain hvalue => exact (h.branches _ _ hvalue).inherited

theorem Traced.withBranch (h : Traced record) {branch : String} {value : OntologyBranch}
    (hvalue : Inherits (origin record.ontology) (origin value.definition) (origin value.baseDefinition)) :
    Traced (Registry.withBranch record branch value) := by
  refine ⟨h.protect, fun key b hb => ?_⟩
  rw [branches_withBranch] at hb
  split at hb
  · obtain rfl := Option.some.inj hb
    exact hvalue
  · exact h.branches key b hb

theorem Traced.rebased (h : Traced record) {branch : String} {source : OntologyBranch}
    (hsource : record.authoring.branches[branch]? = some source) :
    Traced (Registry.withBranch record branch (source.rebased expected)) :=
  h.withBranch (.fork (h.branches branch source hsource).inherited)

/-- Every command keeps the provenance of the main model. -/
theorem Revision.traced (h : Revision record expected now input state command edited) (hr : Traced record)
    (live : record.authoring.deletedAtMs = none ∨ command.restores = true) :
    Traced edited.1 ∧ Same (origin edited.1.ontology) (origin record.ontology) := by
  cases h with
  | fork hvalid hmain hnew hroom htip => exact ⟨hr.withBranch (.fork (hr.tip htip)), .refl _⟩
  | saveMain valid horigin =>
      refine ⟨⟨fun _ => ?_, fun key b hb => (hr.branches key b hb).congr horigin⟩, horigin.symm⟩
      simpa [OntologyCommand.restores] using live
  | saveBranch hmain hselected horigin => exact ⟨hr.withBranch ((hr.branches _ _ hselected).save horigin), .refl _⟩
  | mergeMain hmain hsource hparent hmerged =>
      have hsame := Inherits.merge_main hmerged.mergedAt (hr.branches _ _ hsource)
      refine ⟨⟨fun _ => ?_, fun key b hb => ((hr.rebased hsource).branches key b hb).congr hsame.symm⟩, hsame⟩
      have live' : record.authoring.deletedAtMs = none := by simpa [OntologyCommand.restores] using live
      exact live'
  | @mergeBranch branch name source parent target merged hmain hsource hparent htarget hmerged hrebased =>
      refine ⟨(hr.rebased hsource).withBranch (.merge_branch hmerged.mergedAt (hr.branches _ _ hsource) ?_), .refl _⟩
      -- The parent is another branch, or the branch itself after its rebase.
      rw [branches_withBranch] at hrebased
      split at hrebased
      · next hself =>
          obtain rfl := Option.some.inj hrebased
          obtain rfl := Option.some.inj (hsource.symm.trans (hself ▸ htarget))
          exact .fork (hr.branches _ _ hsource).inherited
      · obtain rfl := Option.some.inj (htarget.symm.trans hrebased)
        exact hr.branches _ _ htarget
  | remove hmain hchildren =>
      refine ⟨⟨hr.protect, fun key b hb => ?_⟩, .refl _⟩
      rw [Keyed.getElem?_erase] at hb
      split at hb
      · cases hb
      · exact hr.branches key b hb
  | delete horigin unbound untargeted => exact ⟨⟨fun hsome => absurd horigin hsome, hr.branches⟩, .refl _⟩
  | restore deleted => exact ⟨⟨fun _ => rfl, hr.branches⟩, .refl _⟩

/-- Every write of an ontology keeps the provenance it had. -/
theorem Revises.traced {id : String} (h : Revises clock tenantId s id op record)
    (hs : ∀ old, s.head.state.ontologies[id]? = some old → Traced old) :
    Traced record ∧ ∀ old, s.head.state.ontologies[id]? = some old → origin old.ontology ≠ none →
      Same (origin record.ontology) (origin old.ontology) := by
  induction h with
  | @put input hid haddress valid creates replaces =>
      cases hold : s.head.state.ontologies[id]? with
      | none =>
          refine ⟨⟨fun _ => rfl, fun key b hb => ?_⟩, fun old h => by cases h⟩
          simp [replacedOntology, OntologyAuthoringState.touch] at hb
      | some old =>
          obtain ⟨live, hkept⟩ := replaces old hold
          have hold' := hs old hold
          refine ⟨⟨fun _ => live, fun key b hb => ?_⟩, fun old' h hsome => ?_⟩
          · have hb' := hold'.branches key b hb
            cases horigin : origin old.ontology with
            | none =>
                rw [horigin] at hb'
                exact hb'.of_none
            | some o =>
                rw [horigin] at hb'
                exact hb'.congr (hkept o horigin).symm
          · obtain rfl := Option.some.inj h
            obtain ⟨o, ho⟩ := Option.ne_none_iff_exists'.mp hsome
            rw [ho]
            exact hkept o ho
  | merge merges h ih => exact ih
  | @publish input old pinned version hid hold live hpinned =>
      refine ⟨⟨fun _ => live, (hs old hold).branches⟩, fun old' h _ => ?_⟩
      obtain rfl := Option.some.inj (hold.symm.trans h)
      exact .refl _
  | @retire publicationId revisionId old publication hold hpublication =>
      refine ⟨⟨(hs old hold).protect, (hs old hold).branches⟩, fun old' h _ => ?_⟩
      obtain rfl := Option.some.inj (hold.symm.trans h)
      exact .refl _
  | @author input command old edited hid hold live hedited =>
      obtain ⟨⟨hprotect, hbranches⟩, hsame⟩ := hedited.traced (hs old hold) live
      refine ⟨⟨hprotect, hbranches⟩, fun old' h _ => ?_⟩
      obtain rfl := Option.some.inj (hold.symm.trans h)
      exact hsame

theorem history_traced (calls : List Call) (id : String) (record : OntologyRecord)
    (h : (history tenantId genesis calls).head.state.ontologies[id]? = some record) : Traced record := by
  refine history_invariant (P := fun s => ∀ (id : String) (record : OntologyRecord),
    s.head.state.ontologies[id]? = some record → Traced record) ?_ ?_ calls id record h
  · intro id record h
    simp [Store.init] at h
  · intro s clock op state fresh hs heffect _ hfresh id record hrecord
    rcases heffect.ontology_cases hrecord with hkept | hrevised
    · exact hs id record hkept
    · exact (hrevised.traced fun old hold => hs id old hold).1

/-- Once the main model names the plugin it was installed by, it names that
plugin in every later state and is never deleted. -/
theorem provenance_kept (tenantId genesis : String) (calls later : List Call) (id : String) (record : OntologyRecord)
    (plugin : Value) (hrecord : (history tenantId genesis calls).head.state.ontologies[id]? = some record)
    (horigin : record.ontology.get "plugin_origin" = some plugin) :
    ∃ kept, (history tenantId genesis (later ++ calls)).head.state.ontologies[id]? = some kept ∧
      Same (kept.ontology.get "plugin_origin") (some plugin) ∧ kept.authoring.deletedAtMs = none := by
  induction later with
  | nil =>
      refine ⟨record, hrecord, horigin ▸ .refl _, (history_traced calls id record hrecord).protect ?_⟩
      simp [origin, horigin]
  | cons call earlier ih =>
      obtain ⟨old, hold, hsame, hlive⟩ := ih
      rcases history_cons call (earlier ++ calls) with hunmoved | ⟨-, state, heffect, hfresh, hpush⟩
      · rw [List.cons_append, hunmoved]
        exact ⟨old, hold, hsame, hlive⟩
      · have hsome : origin old.ontology ≠ none := by
          intro hnone
          rw [show old.ontology.get "plugin_origin" = none from hnone] at hsame
          simp at hsame
        obtain ⟨new, hnew⟩ := heffect.ontology_present hold
        have hnew' : (history tenantId genesis ((call :: earlier) ++ calls)).head.state.ontologies[id]? = some new := by
          rw [List.cons_append, hpush]
          exact hnew
        have hkept : Same (origin new.ontology) (origin old.ontology) := by
          rcases heffect.ontology_cases hnew with hkept | hrevised
          · obtain rfl := Option.some.inj (hold.symm.trans hkept)
            exact .refl _
          · exact (hrevised.traced fun old' hold' => history_traced _ id old' hold').2 old hold hsome
        refine ⟨new, hnew', hkept.trans hsame, (history_traced _ id new hnew').protect fun hnone => ?_⟩
        rw [hnone, same_none_left] at hkept
        exact hsome hkept

/-- A model installed by a plugin, then edited on a branch, merged and refused
for deletion. -/
theorem provenance_kept_mail :
    ∃ kept, (history "tenant" (revisionOf 0)
      ([modelCommand 4 "crm" [] .delete, modelCommand 3 "crm" [] (.merge "edit"),
        modelCommand 2 "crm" [("plugin_origin", .string "mail"), ("note", .null)] (.saveDraft "edit"),
        modelCommand 1 "crm" [] (.createBranch "edit" "main")] ++
        [callOf 1 (.putOntology (modelInput "crm" [("plugin_origin", .string "mail")] none))])).head.state.ontologies[
          "crm"]? = some kept ∧
      Same (kept.ontology.get "plugin_origin") (some (.string "mail")) ∧ kept.authoring.deletedAtMs = none := by
  have hcreated : ((history "tenant" (revisionOf 0) [callOf 1 (.putOntology
      (modelInput "crm" [("plugin_origin", .string "mail")] none))]).head.state.ontologies["crm"]?.any fun record =>
        decide (record.ontology.get "plugin_origin" = some (.string "mail"))) = true := by
    decide +kernel
  obtain ⟨record, hrecord, horigin⟩ := (Option.any_eq_true _ _).mp hcreated
  exact provenance_kept _ _ _ _ _ record _ hrecord (of_decide_eq_true horigin)

end Galadril.Registry
