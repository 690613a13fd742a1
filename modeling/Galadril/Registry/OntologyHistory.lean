import Galadril.Registry.OntologyLifecycle

namespace Galadril.Registry

open Json Lib.Checked Lib.Revisions Lib.Programs Identity Ontology

variable {clock : Nat → Int} {tenantId genesis id : String} {s t : Branchline} {op : Operation} {state : TenantState}

variable {snap : Snapshot String TenantState} {items : List OntologyHistoryItem}

/-- The entries met by following the recorded predecessors of a snapshot. -/
inductive Trail (s : Branchline) (id : String) : Snapshot String TenantState → List OntologyHistoryItem → Prop
  | first {snap : Snapshot String TenantState} {record : OntologyRecord}
      (hrecord : snap.state.ontologies[id]? = some record) (hprevious : record.authoring.previousRevisionId = none) :
      Trail s id snap [historyItem snap.revisionId record]
  | next {snap older : Snapshot String TenantState} {record : OntologyRecord} {items : List OntologyHistoryItem}
      (hrecord : snap.state.ontologies[id]? = some record)
      (hprevious : record.authoring.previousRevisionId = some older.revisionId)
      (holder : s.find older.revisionId = some older) (htrail : Trail s id older items) :
      Trail s id snap (historyItem snap.revisionId record :: items)

theorem Trail.mono (h : Trail s id snap items) (hst : s.Extends t) : Trail t id snap items := by
  induction h with
  | first hrecord hprevious => exact .first hrecord hprevious
  | next hrecord hprevious holder _ ih => exact .next hrecord hprevious (hst.find holder) ih

theorem Trail.head (h : Trail s id snap items) : items.head?.map (·.revisionId) = some snap.revisionId := by
  cases h <;> rfl

/-- An unrelated commit repeats the record under a new identity. -/
theorem Trail.relocate (h : Trail s id snap items) {other : Snapshot String TenantState}
    (hsame : other.state.ontologies[id]? = snap.state.ontologies[id]?) :
    ∃ item rest, items = item :: rest ∧ Trail s id other ({ item with revisionId := other.revisionId } :: rest) := by
  cases h with
  | first hrecord hprevious => exact ⟨_, _, rfl, .first (hsame.trans hrecord) hprevious⟩
  | next hrecord hprevious holder htrail =>
      exact ⟨_, _, rfl, .next (hsame.trans hrecord) hprevious holder htrail⟩

theorem Trail.drop (h : Trail s id snap items) {k : Nat} (hk : k + 1 < items.length) :
    ∃ older, s.find older.revisionId = some older ∧ Trail s id older (items.drop (k + 1)) := by
  induction h generalizing k with
  | first hrecord hprevious => simp at hk
  | @next snap older record items hrecord hprevious holder htrail ih =>
      cases k with
      | zero => exact ⟨older, holder, htrail⟩
      | succ k => exact ih (by simpa using hk)

/-- A page takes the next entries and names the revision of the first entry
that did not fit. -/
theorem Trail.page (h : Trail s id snap items) {room : Nat} {after : Option String} {visited : List String}
    (hload : (loadAt after).query backend s = .ok snap) (hdistinct : (items.map (·.revisionId)).Nodup)
    (hunseen : ∀ item ∈ items, item.revisionId ∉ visited) :
    (historyItems id (room + 1) after visited).query backend s =
      .ok ⟨items.take (room + 1), (items.drop (room + 1)).head?.map (·.revisionId)⟩ := by
  induction h generalizing room after visited with
  | @first snap record hrecord hprevious =>
      have hnew : snap.revisionId ∉ visited := hunseen _ List.mem_cons_self
      simp [historyItems, hload, check, require, hnew, hrecord, hprevious]
  | @next snap older record items hrecord hprevious holder htrail ih =>
      have hnew : snap.revisionId ∉ visited := hunseen _ List.mem_cons_self
      rw [List.map_cons, List.nodup_cons] at hdistinct
      cases room with
      | zero => simp [historyItems, hload, check, require, hnew, hrecord, hprevious, htrail.head]
      | succ room =>
          have hpinned : (loadAt (some older.revisionId)).query backend s = .ok older := by
            simp [loadAt, holder]
          have hrest : ∀ item ∈ items, item.revisionId ∉ snap.revisionId :: visited := by
            intro item hitem hseen
            rcases List.mem_cons.mp hseen with hself | hseen
            · exact hdistinct.1 (List.mem_map.mpr ⟨item, hitem, hself⟩)
            · exact hunseen item (List.mem_cons_of_mem _ hitem) hseen
          have hpage : (historyItems id (room + 1) (some older.revisionId) (snap.revisionId :: visited)).query backend s =
              .ok ⟨items.take (room + 1), (items.drop (room + 1)).head?.map (·.revisionId)⟩ :=
            ih hpinned hdistinct.2 hrest
          rw [historyItems]
          simp [hload, check, require, hnew, hrecord, hprevious, hpage]

section Following

/-- The outcome of fetching page after page, each with its own limit, until no
further revision is named. -/
inductive Follows (s : Branchline) (tenantId id : String) (limits : Nat → Nat) :
    Nat → Option String → Except Failure (List OntologyHistoryItem) → Prop
  | failed {i : Nat} {after : Option String} {e : Failure}
      (h : (ontologyHistory tenantId id after (limits i)).query backend s = .error e) :
      Follows s tenantId id limits i after (.error e)
  | last {i : Nat} {after : Option String} {items : List OntologyHistoryItem}
      (h : (ontologyHistory tenantId id after (limits i)).query backend s = .ok ⟨items, none⟩) :
      Follows s tenantId id limits i after (.ok items)
  | more {i : Nat} {after : Option String} {items : List OntologyHistoryItem} {next : String}
      {rest : Except Failure (List OntologyHistoryItem)}
      (h : (ontologyHistory tenantId id after (limits i)).query backend s = .ok ⟨items, some next⟩)
      (hrest : Follows s tenantId id limits (i + 1) (some next) rest) :
      Follows s tenantId id limits i after (rest.map (items ++ ·))

variable {limits : Nat → Nat} {i : Nat} {after : Option String} {items : List OntologyHistoryItem}
  {snap : Snapshot String TenantState}

theorem Follows.unique {r q : Except Failure (List OntologyHistoryItem)} (h : Follows s tenantId id limits i after r)
    (h' : Follows s tenantId id limits i after q) : r = q := by
  induction h generalizing q with
  | failed h =>
      cases h' with
      | failed h' =>
          cases h.symm.trans h'
          rfl
      | last h' => cases h.symm.trans h'
      | more h' _ => cases h.symm.trans h'
  | last h =>
      cases h' with
      | failed h' => cases h.symm.trans h'
      | last h' =>
          cases h.symm.trans h'
          rfl
      | more h' _ => cases h.symm.trans h'
  | more h hrest ih =>
      cases h' with
      | failed h' => cases h.symm.trans h'
      | last h' => cases h.symm.trans h'
      | more h' hrest' =>
          cases h.symm.trans h'
          rw [ih hrest']

/-- Following a trail of valid revisions returns exactly its entries. -/
theorem Trail.follows (h : Trail s id snap items) (hload : (loadAt after).query backend s = .ok snap)
    (htenant : validTenant tenantId = true) (hid : validIdentity id = true)
    (hlimits : ∀ i, 1 ≤ limits i ∧ limits i ≤ 100) (hafter : after.all validRevision = true)
    (hdistinct : (items.map (·.revisionId)).Nodup) (hvalid : ∀ item ∈ items, validRevision item.revisionId = true) :
    Follows s tenantId id limits i after (.ok items) := by
  induction hn : items.length using Nat.strong_induction_on generalizing i after items snap with
  | h n ih =>
      obtain ⟨room, hroom⟩ : ∃ room, limits i = room + 1 := ⟨limits i - 1, by have := (hlimits i).1; omega⟩
      have hpage : (ontologyHistory tenantId id after (limits i)).query backend s =
          .ok ⟨items.take (room + 1), (items.drop (room + 1)).head?.map (·.revisionId)⟩ := by
        have hsmall : room + 1 ≤ 100 := hroom ▸ (hlimits i).2
        have hitems : (historyItems id (room + 1) after []).query backend s =
            .ok ⟨items.take (room + 1), (items.drop (room + 1)).head?.map (·.revisionId)⟩ :=
          h.page hload hdistinct fun _ _ => List.not_mem_nil
        simp [ontologyHistory, validateIdentity, check, htenant, hid, hroom, hsmall, hafter, hitems]
      by_cases hend : items.length ≤ room + 1
      · rw [List.take_of_length_le hend, List.drop_of_length_le hend] at hpage
        exact .last hpage
      · obtain ⟨older, holder, htrail⟩ := h.drop (Nat.lt_of_not_le hend)
        have hnext := htrail.head
        rw [hnext] at hpage
        have hsuffix : (items.drop (room + 1)).Sublist items := List.drop_sublist _ _
        have hvalid' : ∀ item ∈ items.drop (room + 1), validRevision item.revisionId = true :=
          fun item hitem => hvalid item (hsuffix.subset hitem)
        have holder' : validRevision older.revisionId = true := by
          obtain ⟨item, hitem, hrevision⟩ := Option.map_eq_some_iff.mp hnext
          rw [← hrevision]
          exact hvalid' item (List.mem_of_mem_head? hitem)
        have hload' : (loadAt (some older.revisionId)).query backend s = .ok older := by simp [loadAt, holder]
        have hrest : Follows s tenantId id limits (i + 1) (some older.revisionId) (.ok (items.drop (room + 1))) :=
          ih (items.drop (room + 1)).length (by simp; omega) htrail hload' (by simpa using holder')
            (hdistinct.sublist (hsuffix.map _)) hvalid' rfl
        have hall := Follows.more hpage hrest
        rwa [Except.map, List.take_append_drop] at hall

end Following

def Operation.recorded : Operation → String × String
  | .putOntology input => ("save_draft", input.author)
  | .mergeOntology input => ("save_draft", input.author)
  | .publishOntology _ => ("publish", "registry")
  | .retireOntology _ _ _ => ("retire", "registry")
  | .authorOntology input command => (command.operationName, input.author)
  | _ => ("", "")

def mutations (tenantId genesis id : String) : List Call → List (String × String)
  | [] => []
  | call :: earlier =>
      if call.operation.ontology = some id ∧ (history tenantId genesis (call :: earlier)).head.revisionId ≠
          (history tenantId genesis earlier).head.revisionId then
        call.operation.recorded :: mutations tenantId genesis id earlier
      else mutations tenantId genesis id earlier

def OntologyHistoryItem.mutation (item : OntologyHistoryItem) : String × String := (item.operation, item.author)

theorem historyItem_mutation {record : OntologyRecord} (hauthor : record.authoring.lastAuthor = record.author)
    (hoperation : record.authoring.lastOperation ≠ "") (revisionId : String) :
    (historyItem revisionId record).mutation = (record.authoring.lastOperation, record.author) := by
  rw [OntologyHistoryItem.mutation, historyItem, hauthor, if_neg hoperation, ite_self]

theorem OntologyCommand.operationName_ne (command : OntologyCommand) : command.operationName ≠ "" := by
  cases command <;> simp [operationName]

/-- Every mutation links to the head it was applied to and leaves its own
operation and author. -/
theorem Revises.recorded {record : OntologyRecord} (h : Revises clock tenantId s id op record) :
    record.authoring.previousRevisionId = (s.head.state.ontologies[id]?.map fun _ => s.head.revisionId) ∧
      ∀ revisionId, (historyItem revisionId record).mutation = op.recorded := by
  induction h with
  | @put input hid haddress valid creates replaces =>
      constructor
      · change (if input.createOnly then none else some s.head.revisionId) = _
        rw [creates]
        cases s.head.state.ontologies[id]? <;> rfl
      · exact historyItem_mutation rfl (show "save_draft" ≠ "" by decide)
  | @merge input merged record merges h ih =>
      refine ⟨ih.1, fun revisionId => ?_⟩
      rw [ih.2, Operation.recorded, Operation.recorded, merges.author]
  | publish hid hold live hpinned =>
      rw [hold]
      exact ⟨rfl, fun _ => rfl⟩
  | retire hold hpublication =>
      rw [hold]
      exact ⟨rfl, fun _ => rfl⟩
  | @author input command old edited hid hold live hedited =>
      rw [hold]
      exact ⟨rfl, historyItem_mutation rfl command.operationName_ne⟩

structure Chronicle (s : Branchline) (id : String) (items : List OntologyHistoryItem) : Prop where
  trail : Trail s id s.head items
  known : ∀ item ∈ items, item.revisionId ∈ s.ids
  distinct : (items.map (·.revisionId)).Nodup
  valid : ∀ item ∈ items, validRevision item.revisionId = true

section Steps

variable {fresh : String} {hfresh : fresh ∉ s.ids} {items : List OntologyHistoryItem}

/-- A commit to something else keeps the entries under a new first revision. -/
theorem Chronicle.relocate (h : Chronicle s id items) (hfresh : fresh ∉ s.ids) (hvalid : validRevision fresh = true)
    (hsame : state.ontologies[id]? = s.head.state.ontologies[id]?) :
    ∃ moved, Chronicle (s.push fresh state hfresh) id moved ∧
      moved.map OntologyHistoryItem.mutation = items.map OntologyHistoryItem.mutation := by
  have hmoved : (⟨fresh, state⟩ : Snapshot String TenantState).state.ontologies[id]? = s.head.state.ontologies[id]? := hsame
  obtain ⟨item, rest, rfl, htrail⟩ := h.trail.relocate hmoved
  have hdistinct := h.distinct
  rw [List.map_cons, List.nodup_cons] at hdistinct
  refine ⟨_, ⟨htrail.mono (s.extends_push _ _ _), ?_, ?_, ?_⟩, rfl⟩
  · rintro entry (_ | ⟨_, hentry⟩)
    · exact List.mem_cons_self
    · exact List.mem_cons_of_mem _ (h.known entry (List.mem_cons_of_mem _ hentry))
  · rw [List.map_cons, List.nodup_cons]
    refine ⟨fun hm => hfresh ?_, hdistinct.2⟩
    obtain ⟨entry, hentry, hrevision⟩ := List.mem_map.mp hm
    rw [show fresh = entry.revisionId from hrevision.symm]
    exact h.known entry (List.mem_cons_of_mem _ hentry)
  · rintro entry (_ | ⟨_, hentry⟩)
    · exact hvalid
    · exact h.valid entry (List.mem_cons_of_mem _ hentry)

theorem Chronicle.create {record : OntologyRecord} (hvalid : validRevision fresh = true)
    (hrecord : state.ontologies[id]? = some record) (hprevious : record.authoring.previousRevisionId = none) :
    Chronicle (s.push fresh state hfresh) id [historyItem fresh record] := by
  refine ⟨.first hrecord hprevious, ?_, by simp, ?_⟩
  · rintro entry (_ | ⟨_, hentry⟩)
    · exact List.mem_cons_self
    · cases hentry
  · rintro entry (_ | ⟨_, hentry⟩)
    · exact hvalid
    · cases hentry

theorem Chronicle.extend (h : Chronicle s id items) {record : OntologyRecord} (hvalid : validRevision fresh = true)
    (hrecord : state.ontologies[id]? = some record)
    (hprevious : record.authoring.previousRevisionId = some s.head.revisionId) :
    Chronicle (s.push fresh state hfresh) id (historyItem fresh record :: items) := by
  have hextends := s.extends_push fresh state hfresh
  refine ⟨.next hrecord hprevious (hextends.find s.find_head) (h.trail.mono hextends), ?_, ?_, ?_⟩
  · rintro entry (_ | ⟨_, hentry⟩)
    · exact List.mem_cons_self
    · exact List.mem_cons_of_mem _ (h.known entry hentry)
  · rw [List.map_cons, List.nodup_cons]
    refine ⟨fun hm => hfresh ?_, h.distinct⟩
    obtain ⟨entry, hentry, hrevision⟩ := List.mem_map.mp hm
    rw [show fresh = entry.revisionId from hrevision.symm]
    exact h.known entry hentry
  · rintro entry (_ | ⟨_, hentry⟩)
    · exact hvalid
    · exact h.valid entry hentry

end Steps

/-- Every reachable ontology has its chronicle, and an ontology that does not
exist was never mutated. -/
theorem history_chronicle (tenantId genesis id : String) (calls : List Call) :
    ((history tenantId genesis calls).head.state.ontologies[id]? = none → mutations tenantId genesis id calls = []) ∧
      ((history tenantId genesis calls).head.state.ontologies[id]? ≠ none →
        ∃ items, Chronicle (history tenantId genesis calls) id items ∧
          items.map OntologyHistoryItem.mutation = mutations tenantId genesis id calls) := by
  induction calls with
  | nil => exact ⟨fun _ => rfl, fun h => absurd (by simp [history, Store.init]) h⟩
  | cons call earlier ih =>
      rcases history_cons call earlier with hsame | ⟨hvalid, state, heffect, hfresh, hpush⟩
      · rw [mutations, if_neg (fun h => h.2 (by rw [hsame])), hsame]
        exact ih
      · have hmoved : (history tenantId genesis (call :: earlier)).head.revisionId ≠
            (history tenantId genesis earlier).head.revisionId := by
          rw [hpush]
          exact fresh_ne_head hfresh
        rcases heffect.ontology_step id with ⟨hother, hkept⟩ | ⟨haddressed, record, hrecord, hrevised⟩
        · rw [mutations, if_neg fun h => hother h.1, hpush]
          refine ⟨fun hnone => ih.1 (hkept.symm.trans hnone), fun hsome => ?_⟩
          obtain ⟨items, hitems, hmutations⟩ := ih.2 fun hnone => hsome (hkept.trans hnone)
          obtain ⟨moved, hchronicle, hmap⟩ := hitems.relocate hfresh hvalid hkept
          exact ⟨moved, hchronicle, hmap.trans hmutations⟩
        · rw [mutations, if_pos ⟨haddressed, hmoved⟩, hpush]
          obtain ⟨hprevious, hrecorded⟩ := hrevised.recorded
          refine ⟨fun hnone => absurd (hrecord.symm.trans hnone) (by simp), fun _ => ?_⟩
          by_cases hold : (history tenantId genesis earlier).head.state.ontologies[id]? = none
          · rw [hold] at hprevious
            refine ⟨_, .create hvalid hrecord hprevious, ?_⟩
            rw [ih.1 hold, List.map_singleton, hrecorded]
          · obtain ⟨old, hold'⟩ := Option.ne_none_iff_exists'.mp hold
            obtain ⟨items, hitems, hmutations⟩ := ih.2 hold
            rw [hold'] at hprevious
            refine ⟨_, hitems.extend hvalid hrecord hprevious, ?_⟩
            rw [List.map_cons, hrecorded, hmutations]

/-- Fetching the history of an ontology page by page from the head never fails,
ends, and returns one entry per committed mutation, the latest first, with the
operation and the author of that mutation. -/
theorem history_complete (tenantId genesis id : String) (calls : List Call) (record : OntologyRecord)
    (hrecord : (history tenantId genesis calls).head.state.ontologies[id]? = some record) (limits : Nat → Nat)
    (hlimits : ∀ i, 1 ≤ limits i ∧ limits i ≤ 100) :
    ∃ items, (∀ r, Follows (history tenantId genesis calls) tenantId id limits 0 none r ↔ r = .ok items) ∧
      items.map (fun item => (item.operation, item.author)) = mutations tenantId genesis id calls := by
  obtain ⟨items, hitems, hmutations⟩ := (history_chronicle tenantId genesis id calls).2 (by simp [hrecord])
  obtain ⟨-, htenant, hid⟩ := history_ontologiesKeyed calls id record hrecord
  have hfollows : Follows (history tenantId genesis calls) tenantId id limits 0 none (.ok items) :=
    hitems.trail.follows rfl htenant hid hlimits rfl hitems.distinct hitems.valid
  refine ⟨items, fun r => ⟨fun h => h.unique hfollows, ?_⟩, hmutations⟩
  rintro rfl
  exact hfollows

def interleavedCalls : List Call :=
  [callOf 4 (.putOntology (modelInput "base" [] none)), modelCommand 2 "crm" [] (.createBranch "edit" "main"),
    callOf 2 (.putPipeline (mailInput [] none)), callOf 1 (.putOntology (modelInput "crm" [] none))]

theorem history_complete_interleaved :
    ∃ items, (∀ r, Follows (history "tenant" (revisionOf 0) interleavedCalls) "tenant" "crm" (fun _ => 1) 0 none r ↔
        r = .ok items) ∧
      items.map (fun item => (item.operation, item.author)) = [("create_branch", "author"), ("save_draft", "author")] := by
  have hrun : (history "tenant" (revisionOf 0) interleavedCalls).head.state.ontologies["crm"]?.isSome = true ∧
      mutations "tenant" (revisionOf 0) "crm" interleavedCalls =
        [("create_branch", "author"), ("save_draft", "author")] := by
    decide +kernel
  obtain ⟨hpresent, hmutations⟩ := hrun
  obtain ⟨record, hrecord⟩ := Option.isSome_iff_exists.mp hpresent
  rw [← hmutations]
  exact history_complete _ _ _ _ record hrecord _ fun _ => ⟨by decide, by decide⟩

end Galadril.Registry
