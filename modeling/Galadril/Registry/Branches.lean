import Galadril.Lib.Rooted
import Galadril.Registry.OntologyLifecycle
import Galadril.Registry.Rejections

namespace Galadril.Registry

open Json Lib.Checked Lib.Revisions Lib.Programs Lib.Rooted Identity Ontology Pipeline

variable {clock : Nat → Int} {tenantId genesis : String} {s : Branchline} {op : Operation} {state : TenantState}

variable {α : Type} {link : α → Option String} {m : Keyed α} {key : String}

def parents (link : α → Option String) (m : Keyed α) (key : String) : Option String := m[key]?.bind link

theorem parents_insert (value : α) : parents link (m.insert key value) = Function.update (parents link m) key (link value) := by
  funext k
  by_cases hk : k = key
  · subst hk
    simp [parents]
  · rw [Function.update_of_ne hk, parents, parents, Keyed.getElem?_insert, if_neg (Ne.symm hk)]

theorem parents_erase : parents link (m.erase key) = Function.update (parents link m) key none := by
  funext k
  by_cases hk : k = key
  · subst hk
    simp [parents]
  · rw [Function.update_of_ne hk, parents, parents, Keyed.getElem?_erase, if_neg (Ne.symm hk)]

/-- Rewriting a branch under the same parent leaves the forest alone. -/
theorem parents_revised {old new : α} (hold : m[key]? = some old) (hlink : link new = link old) :
    parents link (m.insert key new) = parents link m := by
  rw [parents_insert, hlink, Function.update_eq_self_iff, parents, hold]
  rfl

section Shapes

structure Branched {α : Type} (link : α → Option String) (most : Nat) (m : Keyed α) : Prop where
  unnamed : m["main"]? = none
  linked : ∀ (key : String) (b : α), m[key]? = some b → (link b).isSome = true
  forest : Forest "main" (parents link m)
  bounded : m.size ≤ most

variable {α : Type} {link : α → Option String} {most : Nat} {m : Keyed α} {key : String}

theorem branched_empty : Branched link most ∅ :=
  ⟨Keyed.getElem?_empty _, fun key b h => by simp at h, by
    convert forest_empty using 1
    funext key
    simp [parents], by simp⟩

theorem Branched.insert (h : Branched link most m) {value : α} {parent : String} (hmain : key ≠ "main")
    (hnew : m[key]? = none) (hroom : m.size < most) (hlink : link value = some parent)
    (hparent : parent = "main" ∨ m[parent]?.isSome = true) : Branched link most (m.insert key value) := by
  refine ⟨by simp [hmain, h.unnamed], fun k b hb => ?_, ?_, ?_⟩
  · rw [Keyed.getElem?_insert] at hb
    split at hb
    · obtain rfl := Option.some.inj hb
      simp [hlink]
    · exact h.linked k b hb
  · rw [parents_insert, hlink]
    refine h.forest.attach (by simp [parents, hnew]) hmain (hparent.imp_right fun hsome => ?_)
    obtain ⟨b, hb⟩ := Option.isSome_iff_exists.mp hsome
    simpa [parents, hb] using h.linked parent b hb
  · exact Std.ExtTreeMap.size_insert_le.trans hroom

theorem Branched.revise (h : Branched link most m) {old new : α} (hold : m[key]? = some old)
    (hlink : link new = link old) : Branched link most (m.insert key new) := by
  have hmem : m.contains key = true := by
    rw [Std.ExtTreeMap.contains_eq_isSome_getElem?, hold]
    rfl
  refine ⟨?_, fun k b hb => ?_, ?_, ?_⟩
  · rw [Keyed.getElem?_insert, if_neg, h.unnamed]
    rintro rfl
    simp [h.unnamed] at hold
  · rw [Keyed.getElem?_insert] at hb
    split at hb
    · obtain rfl := Option.some.inj hb
      rw [hlink]
      exact h.linked key old hold
    · exact h.linked k b hb
  · rw [parents_revised hold hlink]
    exact h.forest
  · rw [Std.ExtTreeMap.size_insert, if_pos hmem]
    exact h.bounded

theorem Branched.erase (h : Branched link most m)
    (hchildless : ∀ (k : String) (child : α), m[k]? = some child → link child ≠ some key) :
    Branched link most (m.erase key) := by
  refine ⟨?_, fun k b hb => ?_, ?_, Std.ExtTreeMap.size_erase_le.trans h.bounded⟩
  · rw [Keyed.getElem?_erase, h.unnamed, ite_self]
  · rw [Keyed.getElem?_erase] at hb
    split at hb
    · cases hb
    · exact h.linked k b hb
  · rw [parents_erase]
    refine h.forest.prune fun k hk => ?_
    obtain ⟨child, hchild, hlink⟩ := Option.bind_eq_some_iff.mp hk
    exact hchildless k child hchild hlink

end Shapes

variable {record : OntologyRecord} {expected : String} {now : Int} {input : PutOntology}
  {command : OntologyCommand} {edited : OntologyEdit}

/-- The branches of an ontology form a forest below its main model. -/
def OntologyShaped (a : OntologyAuthoringState) : Prop := Branched (fun b => some b.parentBranch) 20 a.branches

theorem Tip.known {branch name : String} {definition : Value} (h : Tip record branch definition name) :
    branch = "main" ∨ record.authoring.branches[branch]?.isSome = true := by
  cases h with
  | main => exact .inl rfl
  | branch hmain hvalue => exact .inr (by simp [hvalue])

theorem Revision.shaped (h : Revision record expected now input state command edited)
    (hr : OntologyShaped record.authoring) : OntologyShaped edited.1.authoring := by
  cases h with
  | fork hvalid hmain hnew hroom htip => exact Branched.insert hr hmain hnew hroom rfl htip.known
  | saveMain valid origin => exact hr
  | saveBranch hmain hselected origin => exact Branched.revise hr hselected rfl
  | mergeMain hmain hsource hparent hmerged => exact Branched.revise hr hsource rfl
  | @mergeBranch branch name source parent target merged hmain hsource hparent htarget hmerged hrebased =>
      have hr' : OntologyShaped (withBranch record branch (source.rebased expected)).authoring :=
        Branched.revise hr hsource rfl
      exact Branched.revise hr' hrebased rfl
  | remove hmain hchildren =>
      exact Branched.erase hr fun key child hchild hlink => hchildren key child hchild (Option.some.inj hlink)
  | delete origin unbound untargeted => exact hr
  | restore deleted => exact hr

theorem Revises.shaped {id : String} (h : Revises clock tenantId s id op record)
    (hs : ∀ old, s.head.state.ontologies[id]? = some old → OntologyShaped old.authoring) :
    OntologyShaped record.authoring := by
  induction h with
  | @put input hid haddress valid creates replaces =>
      cases hold : s.head.state.ontologies[id]? with
      | none => exact branched_empty
      | some old => exact hs old hold
  | merge merges h ih => exact ih
  | @publish input old pinned version hid hold live hpinned => exact hs old hold
  | @retire publicationId revisionId old publication hold hpublication => exact hs old hold
  | @author input command old edited hid hold live hedited => exact hedited.shaped (hs old hold)

theorem history_ontologyShaped (calls : List Call) (id : String) (record : OntologyRecord)
    (h : (history tenantId genesis calls).head.state.ontologies[id]? = some record) : OntologyShaped record.authoring := by
  refine history_invariant (P := fun s => ∀ (id : String) (record : OntologyRecord),
    s.head.state.ontologies[id]? = some record → OntologyShaped record.authoring) ?_ ?_ calls id record h
  · intro id record h
    simp [Store.init] at h
  · intro s clock op state fresh hs heffect _ hfresh id record hrecord
    rcases heffect.ontology_cases hrecord with hkept | hrevised
    · exact hs id record hkept
    · exact hrevised.shaped fun old hold => hs id old hold

section Pipelines

/-- The branches of a pipeline form a forest below its main draft, and every
proposal is that of an existing branch. -/
structure Shaped (a : AuthoringState) : Prop where
  branches : Branched Branch.parentBranch 32 a.branches
  proposed : ∀ (key : String) (p : MergeProposal), a.proposals[key]? = some p →
    p.sourceBranch = key ∧ a.branches[key]?.isSome = true
  bounded : a.proposals.size ≤ 32

theorem shaped_empty {a : AuthoringState} (hbranches : a.branches = ∅) (hproposals : a.proposals = ∅) : Shaped a := by
  refine ⟨hbranches ▸ branched_empty, fun key p hp => ?_, by simp [hproposals]⟩
  simp [hproposals] at hp

theorem Shaped.congr {a b : AuthoringState} (h : Shaped a) (hbranches : b.branches = a.branches)
    (hproposals : b.proposals = a.proposals) : Shaped b :=
  ⟨hbranches ▸ h.branches, hproposals ▸ hbranches ▸ h.proposed, hproposals ▸ h.bounded⟩

variable {input : PutPipeline} {record : PipelineRecord} {edited : Workspace} {now : Int} {revisionId : String}

theorem insert_isSome {α : Type} {m : Keyed α} {key k : String} {value : α} (h : m[k]?.isSome = true) :
    (m.insert key value)[k]?.isSome = true := by
  rw [Keyed.getElem?_insert]
  split
  · rfl
  · exact h

theorem forkOf_known {fromBranch : String} {found : Value × Value × String}
    (h : (forkOf revisionId record fromBranch).query backend s = .ok found) :
    fromBranch = "main" ∨ record.authoring.branches[fromBranch]?.isSome = true := by
  unfold forkOf at h
  split at h
  · next hmain => exact .inl hmain
  · simp at h
    obtain ⟨parent, hparent, -⟩ := h
    exact .inr (by simp [hparent])

theorem createBranch_shaped {branch fromBranch : String} {edited : PipelineRecord}
    (h : (createBranch input now revisionId record branch fromBranch).query backend s = .ok edited)
    (hr : Shaped record.authoring) : Shaped edited.authoring := by
  simp [createBranch] at h
  obtain ⟨⟨-, hmain⟩, ⟨hroom, hnew⟩, definition, base, revision, hfork, rfl⟩ := h
  refine ⟨hr.branches.insert hmain (Std.ExtTreeMap.getElem?_eq_none hnew) hroom rfl (forkOf_known hfork),
    fun key p hp => ?_, hr.bounded⟩
  obtain ⟨hkey, hsome⟩ := hr.proposed key p hp
  exact ⟨hkey, insert_isSome hsome⟩

theorem deleteBranch_shaped {branch : String} {edited : PipelineRecord}
    (h : (deleteBranch record branch).query backend s = .ok edited) (hr : Shaped record.authoring) :
    Shaped edited.authoring := by
  simp [deleteBranch] at h
  obtain ⟨-, -, hchildren, hproposals, rfl⟩ := h
  refine ⟨hr.branches.erase fun key child hchild => hchildren child (Keyed.mem_values.mpr ⟨key, hchild⟩),
    fun key p hp => ?_, hr.bounded⟩
  obtain ⟨hkey, hsome⟩ := hr.proposed key p hp
  have hne : branch ≠ key := fun he => hproposals p (Keyed.mem_values.mpr ⟨key, hp⟩) (hkey.trans he.symm)
  exact ⟨hkey, by rwa [Keyed.getElem?_erase, if_neg hne]⟩

theorem proposeMerge_shaped {sourceBranch : String} {edited : PipelineRecord}
    (h : (proposeMerge input now record sourceBranch).query backend s = .ok edited) (hr : Shaped record.authoring) :
    Shaped edited.authoring := by
  simp [proposeMerge] at h
  obtain ⟨source, hsource, hroom, rfl⟩ := h
  refine ⟨hr.branches, fun key p hp => ?_, ?_⟩
  · change (record.authoring.proposals.insert sourceBranch _)[key]? = some p at hp
    rw [Keyed.getElem?_insert] at hp
    split at hp
    · next hkey =>
        obtain rfl := Option.some.inj hp
        exact ⟨hkey, by simp [← hkey, hsource]⟩
    · exact hr.proposed key p hp
  · change (record.authoring.proposals.insert sourceBranch _).size ≤ 32
    rw [Std.ExtTreeMap.size_insert]
    split
    · exact hr.bounded
    · next hnew =>
        rcases hroom with hroom | hmem
        · exact hroom
        · exact absurd (Std.ExtTreeMap.contains_iff_mem.mpr hmem) hnew

theorem mergeProposal_shaped {proposalId : String} {resolutions : Resolutions} {edited : PipelineRecord}
    (h : (mergeProposal revisionId record proposalId resolutions).query backend s = .ok edited)
    (hr : Shaped record.authoring) : Shaped edited.authoring := by
  simp [mergeProposal] at h
  obtain ⟨proposal, hproposal, _, -, -, preview, -, -, -, name, -, merged, hmerged, rfl⟩ := h
  refine ⟨hr.branches.revise hmerged rfl, fun key p hp => ?_, Std.ExtTreeMap.size_erase_le.trans hr.bounded⟩
  change (record.authoring.proposals.erase proposalId)[key]? = some p at hp
  rw [Keyed.getElem?_erase] at hp
  split at hp
  · cases hp
  · obtain ⟨hkey, hsome⟩ := hr.proposed key p hp
    exact ⟨hkey, insert_isSome hsome⟩

theorem saveDraft_shaped {branch : String} {edited : PipelineRecord}
    (h : (saveDraft input now record branch).query backend s = .ok edited) (hr : Shaped record.authoring) :
    Shaped edited.authoring := by
  simp [saveDraft] at h
  obtain ⟨-, -, h⟩ := h
  split at h
  · obtain rfl := Except.ok.inj h
    exact hr.congr rfl rfl
  · simp [saveBranchDraft] at h
    obtain ⟨selected, hselected, rfl⟩ := h
    refine ⟨hr.branches.revise hselected rfl, fun key p hp => ?_, hr.bounded⟩
    obtain ⟨hkey, hsome⟩ := hr.proposed key p hp
    exact ⟨hkey, insert_isSome hsome⟩

theorem applyCommand_shaped {command : AuthoringCommand}
    (h : (applyCommand clock tenantId input s.head record command).query backend s = .ok edited)
    (hr : Shaped record.authoring) : Shaped edited.record.authoring := by
  cases command with
  | bindOntology blockId ontologyId =>
      simp [applyCommand, bindOntologyDraft] at h
      obtain ⟨-, -, definition, -, -, rfl⟩ := h
      exact hr.congr rfl rfl
  | deleteBranch branch =>
      obtain ⟨r, hr', rfl⟩ := query_keepBindings.mp h
      exact deleteBranch_shaped hr' hr
  | saveDraft branch =>
      obtain ⟨r, hr', rfl⟩ := query_keepBindings.mp h
      exact saveDraft_shaped hr' hr
  | createBranch branch fromBranch =>
      obtain ⟨r, hr', rfl⟩ := query_keepBindings.mp h
      exact createBranch_shaped hr' hr
  | proposeMerge sourceBranch =>
      obtain ⟨r, hr', rfl⟩ := query_keepBindings.mp h
      exact proposeMerge_shaped hr' hr
  | merge proposalId resolutions =>
      obtain ⟨r, hr', rfl⟩ := query_keepBindings.mp h
      exact mergeProposal_shaped hr' hr
  | approve =>
      obtain ⟨r, hr', rfl⟩ := query_keepBindings.mp h
      simp [approve] at hr'
      obtain ⟨-, -, -, rfl⟩ := hr'
      exact hr.congr rfl rfl
  | publish =>
      obtain ⟨r, hr', rfl⟩ := query_keepBindings.mp h
      simp [publish] at hr'
      obtain ⟨_, -, -, -, rfl⟩ := hr'
      exact hr.congr rfl rfl
  | deploy =>
      obtain ⟨r, hr', rfl⟩ := query_keepBindings.mp h
      simp [deploy] at hr'
      obtain ⟨_, -, -, rfl⟩ := hr'
      exact hr.congr rfl rfl

theorem managedRecord_shaped {id : String} (hs : ∀ old, s.head.state.pipelines[id]? = some old → Shaped old.authoring) :
    Shaped (managedRecord input now s.head.state.pipelines[id]?).authoring := by
  cases hold : s.head.state.pipelines[id]? with
  | none => exact shaped_empty rfl rfl
  | some old => exact (hs old hold).congr rfl rfl

theorem Rewrites.shaped {id : String} (h : Rewrites clock tenantId s id op record)
    (hs : ∀ old, s.head.state.pipelines[id]? = some old → Shaped old.authoring) : Shaped record.authoring := by
  cases h with
  | put hid unmanaged creates => exact shaped_empty rfl rfl
  | @publish revisionId old hold live unmanaged runs => exact hs old hold
  | @delete expected old hold => exact hs old hold
  | @author input command edited hid creates edits hedited =>
      exact applyCommand_shaped hedited (managedRecord_shaped hs)

theorem history_shaped (calls : List Call) (id : String) (record : PipelineRecord)
    (h : (history tenantId genesis calls).head.state.pipelines[id]? = some record) : Shaped record.authoring := by
  refine history_invariant (P := fun s => ∀ (id : String) (record : PipelineRecord),
    s.head.state.pipelines[id]? = some record → Shaped record.authoring) ?_ ?_ calls id record h
  · intro id record h
    simp [Store.init] at h
  · intro s clock op state fresh hs heffect _ hfresh id record hrecord
    rcases heffect.pipeline_cases hrecord with hkept | hrewritten
    · exact hs id record hkept
    · exact hrewritten.shaped fun old hold => hs id old hold

end Pipelines

section Errors

/-- The error that a merge would report for a branch it depends on. -/
def Dangling (e : Failure) : Prop :=
  e = ⟨.pipelineService, "pipeline branch unavailable"⟩ ∨ e = ⟨.ontologyService, "parent ontology branch unavailable"⟩

variable {fresh : String}

attribute [local simp] blames_step require_some

@[simp] theorem dangling_mk {origin : Origin} {text : String} : Dangling ⟨origin, text⟩ ↔
    origin = .pipelineService ∧ text = "pipeline branch unavailable" ∨
      origin = .ontologyService ∧ text = "parent ontology branch unavailable" := by
  simp [Dangling]

theorem commits_not_dangling {expected : String} {state : TenantState} {author message : String} :
    Blames backend fresh (¬ Dangling ·) (Prog.commits expected state author message) s :=
  blames_commits (by simp [backend])

/-- A proposal always finds its branch, under either of its two names. -/
theorem mergeProposal_finds {record : PipelineRecord} (hr : Shaped record.authoring) (revisionId proposalId : String)
    (resolutions : Resolutions) :
    Blames backend fresh (¬ Dangling ·) (mergeProposal revisionId record proposalId resolutions) s := by
  have hfound : ∀ p, record.authoring.proposals[proposalId]? = some p →
      record.authoring.branches[p.sourceBranch]?.isSome = true ∧ record.authoring.branches[proposalId]?.isSome = true := by
    intro p hp
    obtain ⟨hkey, hsome⟩ := hr.proposed proposalId p hp
    exact ⟨hkey ▸ hsome, hsome⟩
  simp only [mergeProposal, blames_step, pinned_require, pinned_check, pinned_reported, blames_require, query_require,
    blames_check, blames_reported, blames_pure, dangling_mk]
  refine ⟨by simp, fun p hp => ⟨fun hnone => ?_, fun _ _ => ⟨by simp, fun _ _ => ⟨by simp, fun _ _ => ⟨by simp,
    fun _ _ => ⟨by simp, fun _ _ => ⟨by simp, fun _ _ => ⟨fun hnone => ?_, fun _ _ => trivial⟩⟩⟩⟩⟩⟩⟩⟩
  · exact absurd (hfound p hp).1 (by simp [hnone])
  · exact absurd (hfound p hp).2 (by simp [hnone])

theorem prepareCreation_finds (command : AuthoringCommand) :
    Blames backend fresh (¬ Dangling ·) (prepareCreation command) s := by
  simp [prepareCreation]

theorem authorPipeline_finds (hs : ∀ (id : String) (old : PipelineRecord), s.head.state.pipelines[id]? = some old →
    Shaped old.authoring) (input : PutPipeline) (proposalId : String) (resolutions : Resolutions) :
    Blames backend fresh (¬ Dangling ·) (authorPipeline clock tenantId input (.merge proposalId resolutions)) s := by
  have hmerge : Blames backend fresh (¬ Dangling ·) (mergeProposal s.head.revisionId
      (managedRecord input (clock 0) s.head.state.pipelines[input.pipelineId]?) proposalId resolutions) s :=
    mergeProposal_finds (managedRecord_shaped fun old hold => hs input.pipelineId old hold) _ _ _
  simp [authorPipeline, applyCommand, keepBindings, prepareCreation_finds, pinned_mergeProposal, hmerge,
    commits_not_dangling]

theorem tip_finds {record : OntologyRecord} {branch : String}
    (h : branch = "main" ∨ record.authoring.branches[branch]?.isSome = true) :
    Blames backend fresh (¬ Dangling ·) (tip record branch) s := by
  unfold tip
  split
  · simp
  · next hmain =>
      obtain ⟨b, hb⟩ := Option.isSome_iff_exists.mp (h.resolve_left hmain)
      simp [hb]

theorem mergeInto_finds {record : OntologyRecord} {parent author name : String} {now : Int} {merged : Value}
    (h : parent = "main" ∨ record.authoring.branches[parent]?.isSome = true) :
    Blames backend fresh (¬ Dangling ·) (mergeInto record author now parent merged name) s := by
  unfold mergeInto
  split
  · simp
  · next hmain =>
      obtain ⟨b, hb⟩ := Option.isSome_iff_exists.mp (h.resolve_left hmain)
      simp [hb]

theorem OntologyShaped.parent_known {a : OntologyAuthoringState} (h : OntologyShaped a) {branch : String}
    {b : OntologyBranch} (hb : a.branches[branch]? = some b) :
    b.parentBranch = "main" ∨ a.branches[b.parentBranch]?.isSome = true := by
  have hlink : parents (fun b => some b.parentBranch) a.branches branch = some b.parentBranch := by simp [parents, hb]
  refine (h.forest.parent_known hlink).imp_right fun hsome => ?_
  obtain ⟨p, hp⟩ := Option.isSome_iff_exists.mp hsome
  obtain ⟨parent, hparent, -⟩ := Option.bind_eq_some_iff.mp hp
  simp [hparent]

theorem mergeBranch_finds {record : OntologyRecord} (hr : OntologyShaped record.authoring) (expected author : String)
    (now : Int) (branch : String) :
    Blames backend fresh (¬ Dangling ·) (mergeBranch record expected author now branch) s := by
  simp only [mergeBranch, blames_step, pinned_require, pinned_check, pinned_reported, pinned_tip, pinned_mergeInto,
    blames_require, query_require, blames_check, blames_reported, blames_pure, dangling_mk]
  refine ⟨by simp, fun _ _ => ⟨by simp, fun source hsource => ⟨tip_finds (hr.parent_known hsource), fun _ _ => ⟨by simp,
    fun _ _ => ⟨by simp, fun _ _ => ⟨by simp, fun _ _ => ⟨by simp, fun merged _ => ⟨mergeInto_finds ?_,
      fun _ _ => trivial⟩⟩⟩⟩⟩⟩⟩⟩
  exact (hr.parent_known hsource).imp_right insert_isSome

theorem authorOntology_finds (hs : ∀ (id : String) (old : OntologyRecord), s.head.state.ontologies[id]? = some old →
    OntologyShaped old.authoring) (input : PutOntology) (branch : String) :
    Blames backend fresh (¬ Dangling ·) (authorOntology clock tenantId input (.merge branch)) s := by
  simp [authorOntology, applyOntologyCommand, validateIdentity, pinned_mergeBranch, commits_not_dangling,
    OntologyRecord.validateWorkspaceSize]
  intro _ _ _ _ _ expected _ _ _ old hold _
  exact mergeBranch_finds (hs _ old hold) expected input.author (clock 0) branch

end Errors

/-- What the branches of a workspace look like: none is the main line, every
recorded parent exists, and following parents leads to the main line. -/
structure RootedAtMain {α : Type} (link : α → Option String) (m : Keyed α) : Prop where
  main : m["main"]? = none
  parent : ∀ (key : String) (b : α), m[key]? = some b →
    ∃ p, link b = some p ∧ (p = "main" ∨ m[p]?.isSome = true)
  reaches : ∀ (key : String) (b : α), m[key]? = some b → Reaches "main" (parents link m) key

theorem Branched.rootedAtMain {α : Type} {link : α → Option String} {most : Nat} {m : Keyed α}
    (h : Branched link most m) : RootedAtMain link m := by
  have hparent : ∀ (key : String) (b : α), m[key]? = some b → ∃ p, link b = some p ∧ parents link m key = some p := by
    intro key b hb
    obtain ⟨p, hp⟩ := Option.isSome_iff_exists.mp (h.linked key b hb)
    exact ⟨p, hp, by simp [parents, hb, hp]⟩
  refine ⟨h.unnamed, fun key b hb => ?_, fun key b hb => ?_⟩
  · obtain ⟨p, hp, hkey⟩ := hparent key b hb
    refine ⟨p, hp, (h.forest.parent_known hkey).imp_right fun hsome => ?_⟩
    obtain ⟨q, hq⟩ := Option.isSome_iff_exists.mp hsome
    obtain ⟨b', hb', -⟩ := Option.bind_eq_some_iff.mp hq
    simp [hb']
  · obtain ⟨p, -, hkey⟩ := hparent key b hb
    exact h.forest.reaches_node hkey

/-- In every reachable state the branches of each pipeline and of each ontology
form a forest rooted at the main line, within their limits, and every proposal
is that of an existing branch under its own name; a merge never reports a
missing branch of its own. -/
theorem branches_rooted (tenantId genesis : String) (calls : List Call) :
    (∀ (id : String) (record : PipelineRecord),
      (history tenantId genesis calls).head.state.pipelines[id]? = some record →
        RootedAtMain Branch.parentBranch record.authoring.branches ∧
        (∀ (key : String) (p : MergeProposal), record.authoring.proposals[key]? = some p →
          p.sourceBranch = key ∧ record.authoring.branches[key]?.isSome = true) ∧
        record.authoring.branches.size ≤ 32 ∧ record.authoring.proposals.size ≤ 32) ∧
    (∀ (id : String) (record : OntologyRecord),
      (history tenantId genesis calls).head.state.ontologies[id]? = some record →
        RootedAtMain (fun b => some b.parentBranch) record.authoring.branches ∧
        record.authoring.branches.size ≤ 20) ∧
    (∀ clock fresh input proposalId resolutions,
      Blames backend fresh (· ≠ ⟨.pipelineService, "pipeline branch unavailable"⟩)
        (program clock tenantId (.authorPipeline input (.merge proposalId resolutions)))
        (history tenantId genesis calls)) ∧
    (∀ clock fresh input branch,
      Blames backend fresh (· ≠ ⟨.ontologyService, "parent ontology branch unavailable"⟩)
        (program clock tenantId (.authorOntology input (.merge branch))) (history tenantId genesis calls)) := by
  refine ⟨fun id record hrecord => ?_, fun id record hrecord => ?_, fun clock fresh input proposalId resolutions => ?_,
    fun clock fresh input branch => ?_⟩
  · have hshaped : Shaped record.authoring := history_shaped calls id record hrecord
    exact ⟨hshaped.branches.rootedAtMain, hshaped.proposed, hshaped.branches.bounded, hshaped.bounded⟩
  · have hshaped : OntologyShaped record.authoring := history_ontologyShaped calls id record hrecord
    exact ⟨hshaped.rootedAtMain, hshaped.bounded⟩
  · have hfinds : Blames backend fresh (¬ Dangling ·)
        (program clock tenantId (.authorPipeline input (.merge proposalId resolutions))) (history tenantId genesis calls) := by
      simpa [program, answered] using authorPipeline_finds (fun id old => history_shaped calls id old) input proposalId
        resolutions
    exact fun e he hdangling => hfinds e he (.inl hdangling)
  · have hfinds : Blames backend fresh (¬ Dangling ·)
        (program clock tenantId (.authorOntology input (.merge branch))) (history tenantId genesis calls) := by
      simpa [program, answered] using authorOntology_finds (fun id old => history_ontologyShaped calls id old) input branch
    exact fun e he hdangling => hfinds e he (.inr hdangling)

end Galadril.Registry
