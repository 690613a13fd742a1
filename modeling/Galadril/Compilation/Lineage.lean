import Galadril.Compilation.Templates
import Galadril.Lib.Transitions

namespace Galadril.Compilation.Templates

open Lib Lib.Checked Lib.Transitions

structure Lineage where
  scope : Scope
  project : Option String
  plugin : Option String
  owner : String
  deriving DecidableEq

def Template.lineage (t : Template) : Lineage := ⟨t.scope, t.project, t.plugin, t.owner⟩

def PluginOwned (t : Template) : Prop :=
  t.scope = .plugin ∧ t.project = none ∧ ∃ plugin, t.plugin = some plugin ∧ t.owner = "plugin:" ++ plugin

theorem PluginOwned.lineage_eq {a b : Template} (ha : PluginOwned a) (hb : PluginOwned b) (h : a.plugin = b.plugin) :
    a.lineage = b.lineage := by
  obtain ⟨has, hap, p, hpa, hoa⟩ := ha
  obtain ⟨hbs, hbp, q, hqb, hob⟩ := hb
  obtain rfl : p = q := by simpa [hpa, hqb] using h
  simp [Template.lineage, has, hbs, hap, hbp, hpa, hqb, hoa, hob]

theorem PluginOwned.of_lineage {a b : Template} (ha : PluginOwned a) (h : b.lineage = a.lineage) : PluginOwned b := by
  simp only [Template.lineage, Lineage.mk.injEq] at h
  obtain ⟨hs, hp, hg, ho⟩ := h
  simpa [PluginOwned, hs, hp, hg, ho] using ha

def Stage.verdict : Stage → Option (Option Template)
  | .prepared | .listed _ => none
  | .decided existing | .sealed existing => some existing

def chosen (id : String) : Prop := id.toList.head? = some 'f'

theorem generatedId_not_chosen (uuid : String) : ¬ chosen (generatedId uuid) := by
  simp [chosen, generatedId]

theorem seal_eq_ok {t u : Template} (h : t.seal = .ok u) : u.id = t.id ∧ u.lineage = t.lineage := by
  simp only [Template.seal, bind_eq_ok, pure_eq_ok] at h
  obtain ⟨_, -, rfl⟩ := h
  exact ⟨rfl, rfl⟩

theorem validate_scope {t : Template} (h : t.validate = .ok ()) : scopeConsistent t = true := by
  simp only [Template.validate, bind_eq_ok, ensure_eq_ok] at h
  obtain ⟨_, -, _, -, _, hs, -⟩ := h
  exact hs

theorem assignOwner_eq_ok {actor : String} {creating : Bool} {t u : Template} (h : assignOwner actor creating t = .ok u) :
    u.id = t.id ∧ (u.scope = .plugin → ∃ plugin, u.plugin = some plugin ∧ u.owner = "plugin:" ++ plugin) := by
  rw [assignOwner] at h
  split at h
  · simp only [bind_eq_ok, context_eq_ok, pure_eq_ok] at h
    obtain ⟨plugin, hp, rfl⟩ := h
    exact ⟨rfl, fun _ => ⟨plugin, hp, rfl⟩⟩
  · next hs =>
      simp only [pure_eq_ok] at h
      subst h
      cases creating
      · exact ⟨rfl, fun h => absurd h hs⟩
      · exact ⟨rfl, fun h => absurd h hs⟩

/-- What a call knows about itself before its first request. -/
structure Prepared (uuid : String) (t : Template) (call : Call) : Prop where
  creating : call.creating = (t.id == "")
  generated : call.creating = true → call.template.id = generatedId uuid
  owner : call.template.scope = .plugin →
    ∃ plugin, call.template.plugin = some plugin ∧ call.template.owner = "plugin:" ++ plugin
  stage : call.stage = .prepared

theorem prepare_eq_ok {actor uuid : String} {t : Template} {call : Call} (h : prepare actor uuid t = .ok call) :
    Prepared uuid t call := by
  simp only [prepare, bind_eq_ok, pure_eq_ok] at h
  obtain ⟨u, hu, _, -, rfl⟩ := h
  obtain ⟨hid, howner⟩ := assignOwner_eq_ok hu
  refine ⟨rfl, fun hc => ?_, howner, rfl⟩
  rw [hid, if_pos hc]

theorem readTemplate_eq_ok {c : Catalog} {id version : String} {t : Template} (h : readTemplate c id version = .ok t) :
    ∃ r ∈ c.revisions, r.id = id ∧ t.id = id ∧ t.lineage = r.lineage := by
  simp only [readTemplate, bind_eq_ok, context_eq_ok, ensure_eq_ok, pure_eq_ok] at h
  obtain ⟨_, -, r, hr, u, hu, _, -, rfl⟩ := h
  obtain ⟨hmem, hid⟩ := List.mem_filter.mp (List.mem_of_find?_eq_some hr)
  have hid : r.id = id := by simpa using hid
  obtain ⟨huid, hlineage⟩ := seal_eq_ok hu
  exact ⟨r, hmem, hid, huid.trans hid, hlineage⟩

inductive Decision (c : Catalog) (call call' : Call) : Prop
  | follows (existing r : Template) (hr : r ∈ c.revisions) (hid : r.id = call'.template.id)
      (hl : call'.template.lineage = r.lineage) (hs : call'.stage = .decided (some existing))
  | first (hc : call'.creating = true ∨
        (chosen call'.template.id ∧ call'.template.scope = .plugin ∧ call'.template.project = none))
      (ht : call'.template = call.template) (hs : call'.stage = .decided none)

theorem decideLineage_eq_ok {c : Catalog} {call call' : Call} {previous : Option String}
    (h : decideLineage c call previous = .ok call') :
    call'.creating = call.creating ∧ call'.template.id = call.template.id ∧ Decision c call call' := by
  cases previous with
  | some version =>
      simp only [decideLineage, bind_eq_ok, ensure_eq_ok, pure_eq_ok] at h
      obtain ⟨existing, hread, _, hscope, rfl⟩ := h
      obtain ⟨r, hr, hrid, -, hlineage⟩ := readTemplate_eq_ok hread
      simp only [sameScope, Bool.and_eq_true, beq_iff_eq] at hscope
      obtain ⟨⟨hs, hp⟩, hg⟩ := hscope
      refine ⟨rfl, rfl, .follows existing r hr hrid ?_ rfl⟩
      rw [← hlineage]
      simp [Template.lineage, hs, hp, hg]
  | none =>
      simp only [decideLineage, bind_eq_ok, ensure_eq_ok, pure_eq_ok] at h
      obtain ⟨_, hallowed, _, hvalid, rfl⟩ := h
      refine ⟨rfl, rfl, .first ?_ rfl rfl⟩
      rcases Bool.or_eq_true_iff.mp hallowed with hc | hc
      · exact .inl hc
      · simp only [Bool.and_eq_true, beq_iff_eq] at hc
        have hscope := validate_scope hvalid
        simp only [scopeConsistent, hc.1, Bool.and_eq_true, Option.isNone_iff_eq_none] at hscope
        exact .inr ⟨hc.2, hc.1, hscope.1⟩

theorem sealCall_eq_ok {c : Catalog} {call call' : Call} {existing : Option Template}
    (h : sealCall c call existing = .ok call') :
    call'.creating = call.creating ∧ call'.template.id = call.template.id ∧
      call'.template.lineage = call.template.lineage ∧ call'.stage = .sealed existing := by
  simp only [sealCall, bind_eq_ok, pure_eq_ok] at h
  obtain ⟨t, ht, _, -, rfl⟩ := h
  obtain ⟨hid, hlineage⟩ := seal_eq_ok ht
  exact ⟨rfl, hid, hlineage, rfl⟩

structure CallOk (revisions : List Template) (call : Call) : Prop where
  generated : call.creating = true → ¬ chosen call.template.id ∧ ∀ r ∈ revisions, r.id ≠ call.template.id
  owner : call.stage.verdict = none → call.template.scope = .plugin →
    ∃ plugin, call.template.plugin = some plugin ∧ call.template.owner = "plugin:" ++ plugin
  follows : ∀ existing, call.stage.verdict = some (some existing) →
    ∃ r ∈ revisions, r.id = call.template.id ∧ call.template.lineage = r.lineage
  first : call.stage.verdict = some none → call.creating = true ∨ (chosen call.template.id ∧ PluginOwned call.template)

structure Settled (c : Catalog) : Prop where
  same : ∀ a ∈ c.revisions, ∀ b ∈ c.revisions, a.id = b.id → a.lineage = b.lineage
  plugin : ∀ a ∈ c.revisions, chosen a.id → PluginOwned a
  calls : ∀ n call, c.calls n = some call → CallOk c.revisions call
  distinct : ∀ m n a b, c.calls m = some a → c.calls n = some b → a.creating = true → b.creating = true →
    a.template.id = b.template.id → m = n

/-- Generated ids do not repeat, and when a call that found no revision writes
its template, no revision of that id names another plugin. -/
def Undisputed (c : Catalog) : Request → Prop
  | .began _ _ uuid t => t.id = "" → (∀ r ∈ c.revisions, r.id ≠ generatedId uuid) ∧
      ∀ m call, c.calls m = some call → call.creating = true → call.template.id ≠ generatedId uuid
  | .written n => ∀ call, c.calls n = some call → call.stage = .sealed none →
      ∀ r ∈ c.revisions, r.id = call.template.id → r.plugin = call.template.plugin
  | _ => True

variable {c : Catalog}

theorem setCall_calls {n m : Nat} {call : Option Call} {a : Call} (h : (c.setCall n call).calls m = some a) :
    (m = n ∧ call = some a) ∨ (m ≠ n ∧ c.calls m = some a) := by
  by_cases hm : m = n
  · subst hm
    exact .inl ⟨rfl, by simpa [Catalog.setCall] using h⟩
  · exact .inr ⟨hm, by simpa [Catalog.setCall, Function.update_of_ne hm] using h⟩

theorem Settled.setCall (h : Settled c) {n : Nat} {call : Option Call} (hok : ∀ x, call = some x → CallOk c.revisions x)
    (hdistinct : ∀ x, call = some x → x.creating = true → ∀ m a, m ≠ n → c.calls m = some a → a.creating = true →
      a.template.id ≠ x.template.id) : Settled (c.setCall n call) := by
  refine ⟨h.same, h.plugin, fun m a ha => ?_, fun l m a b ha hb hca hcb hid => ?_⟩
  · rcases setCall_calls ha with ⟨-, hx⟩ | ⟨-, hx⟩
    · exact hok a hx
    · exact h.calls m a hx
  · rcases setCall_calls ha with ⟨hl, hx⟩ | ⟨hl, hx⟩
    · rcases setCall_calls hb with ⟨hm, hy⟩ | ⟨hm, hy⟩
      · exact hl.trans hm.symm
      · exact absurd hid.symm (hdistinct a hx hca m b hm hy hcb)
    · rcases setCall_calls hb with ⟨hm, hy⟩ | ⟨hm, hy⟩
      · exact absurd hid (hdistinct b hy hcb l a hl hx hca)
      · exact h.distinct l m a b hx hy hca hcb hid

theorem Settled.replace (h : Settled c) {n : Nat} {old : Call} (hold : c.calls n = some old) {new : Option Call}
    (hnew : ∀ x, new = some x → CallOk c.revisions x ∧ x.creating = old.creating ∧ x.template.id = old.template.id) :
    Settled (c.setCall n new) := by
  refine h.setCall (fun x hx => (hnew x hx).1) fun x hx hc m a hm ha hca hid => ?_
  obtain ⟨-, hcreating, hid'⟩ := hnew x hx
  exact hm (h.distinct m n a old ha hold hca (hcreating ▸ hc) (hid.trans hid'))

theorem Settled.drop (h : Settled c) (n : Nat) : Settled (c.setCall n none) :=
  h.setCall (fun x hx => by cases hx) fun x hx => by cases hx

theorem Settled.began (h : Settled c) {n : Nat} {actor uuid : String} {t : Template}
    (hu : Undisputed c (.began n actor uuid t)) : Settled (c.step (.began n actor uuid t)) := by
  simp only [Catalog.step]
  split
  · exact h
  · cases hp : prepare actor uuid t with
    | error e => exact h.drop n
    | ok call =>
        have hprep := prepare_eq_ok hp
        have hfresh : call.creating = true → (∀ r ∈ c.revisions, r.id ≠ generatedId uuid) ∧
            ∀ m a, c.calls m = some a → a.creating = true → a.template.id ≠ generatedId uuid := by
          intro hc
          rw [hprep.creating, beq_iff_eq] at hc
          exact hu hc
        refine h.setCall ?_ ?_
        · rintro x ⟨⟩
          refine ⟨fun hc => ?_, fun _ => hprep.owner, fun e he => ?_, fun he => ?_⟩
          · rw [hprep.generated hc]
            exact ⟨generatedId_not_chosen uuid, (hfresh hc).1⟩
          · simp [hprep.stage, Stage.verdict] at he
          · simp [hprep.stage, Stage.verdict] at he
        · rintro x ⟨⟩ hc m a - ha hca
          rw [hprep.generated hc]
          exact (hfresh hc).2 m a ha hca

theorem Settled.listed (h : Settled c) (n : Nat) : Settled (c.step (.listed n)) := by
  simp only [Catalog.step]
  split
  · next creating t hcall =>
      have hok := h.calls n _ hcall
      refine h.replace hcall ?_
      rintro x ⟨⟩
      refine ⟨⟨hok.generated, fun _ => hok.owner rfl, fun e he => ?_, fun he => ?_⟩, rfl, rfl⟩
      · cases he
      · cases he
  · exact h

theorem Settled.decided (h : Settled c) (n : Nat) : Settled (c.step (.decided n)) := by
  simp only [Catalog.step]
  split
  · next creating t previous hcall =>
      have hok := h.calls n _ hcall
      cases hd : decideLineage c ⟨creating, t, .listed previous⟩ previous with
      | error e => exact h.drop n
      | ok call =>
          obtain ⟨hcreating, hid, hdecision⟩ := decideLineage_eq_ok hd
          have hgenerated : call.creating = true →
              ¬ chosen call.template.id ∧ ∀ r ∈ c.revisions, r.id ≠ call.template.id := by
            rw [hid, hcreating]
            exact hok.generated
          refine h.replace hcall ?_
          rintro x ⟨⟩
          refine ⟨?_, hcreating, hid⟩
          cases hdecision with
          | follows existing r hr hrid hl hs =>
              refine ⟨hgenerated, fun hv => ?_, fun _ _ => ⟨r, hr, hrid, hl⟩, fun hv => ?_⟩
              · simp [hs, Stage.verdict] at hv
              · simp [hs, Stage.verdict] at hv
          | first hc ht hs =>
              refine ⟨hgenerated, fun hv => ?_, fun e hv => ?_, fun _ => ?_⟩
              · simp [hs, Stage.verdict] at hv
              · simp [hs, Stage.verdict] at hv
              · rcases hc with hc | ⟨hchosen, hscope, hproject⟩
                · exact .inl hc
                · refine .inr ⟨hchosen, hscope, hproject, ?_⟩
                  rw [ht] at hscope ⊢
                  exact hok.owner rfl hscope
  · exact h

theorem Settled.sealed (h : Settled c) (n : Nat) : Settled (c.step (.sealed n)) := by
  simp only [Catalog.step]
  split
  · next creating t existing hcall =>
      have hok := h.calls n _ hcall
      cases hd : sealCall c ⟨creating, t, .decided existing⟩ existing with
      | error e => exact h.drop n
      | ok call =>
          obtain ⟨hcreating, hid, hlineage, hstage⟩ := sealCall_eq_ok hd
          refine h.replace hcall ?_
          rintro x ⟨⟩
          refine ⟨⟨?_, fun hv => ?_, fun e hv => ?_, fun hv => ?_⟩, hcreating, hid⟩
          · rw [hid, hcreating]
            exact hok.generated
          · simp [hstage, Stage.verdict] at hv
          · rw [hid, hlineage]
            exact hok.follows e (by simpa [hstage, Stage.verdict] using hv)
          · rw [hid, hcreating]
            refine (hok.first (by simpa [hstage, Stage.verdict] using hv)).imp_right fun hc => ?_
            exact ⟨hc.1, hc.2.of_lineage hlineage⟩
  · exact h

/-- A revision that agrees with the stored ones of its id and is no other call's
generated id may be added. -/
theorem Settled.write (h : Settled c) {t : Template} (hsame : ∀ r ∈ c.revisions, r.id = t.id → r.lineage = t.lineage)
    (hplugin : chosen t.id → PluginOwned t)
    (hother : ∀ n call, c.calls n = some call → call.creating = true → t.id ≠ call.template.id) :
    Settled { c with revisions := t :: c.revisions } := by
  refine ⟨fun a ha b hb hid => ?_, fun a ha hc => ?_, fun n call hcall => ?_, h.distinct⟩
  · rcases List.mem_cons.mp ha with hat | ha
    · rcases List.mem_cons.mp hb with hbt | hb
      · rw [hat, hbt]
      · exact hat ▸ (hsame b hb (hid.symm.trans (congrArg _ hat))).symm
    · rcases List.mem_cons.mp hb with hbt | hb
      · exact hbt ▸ hsame a ha (hid.trans (congrArg _ hbt))
      · exact h.same a ha b hb hid
  · rcases List.mem_cons.mp ha with rfl | ha
    · exact hplugin hc
    · exact h.plugin a ha hc
  · have hok := h.calls n call hcall
    refine ⟨fun hc => ⟨(hok.generated hc).1, fun r hr => ?_⟩, hok.owner, fun e he => ?_, hok.first⟩
    · rcases List.mem_cons.mp hr with rfl | hr
      · exact hother n call hcall hc
      · exact (hok.generated hc).2 r hr
    · obtain ⟨r, hr, hrest⟩ := hok.follows e he
      exact ⟨r, List.mem_cons_of_mem _ hr, hrest⟩

theorem Settled.written (h : Settled c) {n : Nat} (hu : Undisputed c (.written n)) : Settled (c.step (.written n)) := by
  simp only [Catalog.step]
  split
  · next creating t existing hcall =>
      have hok := h.calls n _ hcall
      have hdrop := h.drop n
      rw [putRevision]
      split
      · exact hdrop
      · refine hdrop.write ?_ ?_ ?_
        · intro r hr hid
          cases existing with
          | some e =>
              obtain ⟨s, hs, hsid, hlineage⟩ := hok.follows e rfl
              exact (h.same r hr s hs (hid.trans hsid.symm)).trans hlineage.symm
          | none =>
              rcases hok.first rfl with hc | ⟨hchosen, howned⟩
              · exact absurd hid ((hok.generated hc).2 r hr)
              · exact (h.plugin r hr (hid ▸ hchosen)).lineage_eq howned (hu _ hcall rfl r hr hid)
        · intro hchosen
          cases existing with
          | some e =>
              obtain ⟨s, hs, hsid, hlineage⟩ := hok.follows e rfl
              exact (h.plugin s hs (hsid ▸ hchosen)).of_lineage hlineage
          | none =>
              rcases hok.first rfl with hc | ⟨-, howned⟩
              · exact absurd hchosen (hok.generated hc).1
              · exact howned
        · intro m call hm hc hid
          rcases setCall_calls hm with ⟨-, hnone⟩ | ⟨hne, hm⟩
          · cases hnone
          · have hother := (h.calls m call hm).generated hc
            cases existing with
            | some e =>
                obtain ⟨s, hs, hsid, -⟩ := hok.follows e rfl
                exact hother.2 s hs (hsid.trans hid)
            | none =>
                rcases hok.first rfl with hc' | ⟨hchosen, -⟩
                · exact hne (h.distinct m n call _ hm hcall hc hc' hid.symm)
                · exact hother.1 (hid ▸ hchosen)
  · exact h

theorem Settled.step (h : Settled c) {r : Request} (hu : Undisputed c r) : Settled (c.step r) := by
  cases r with
  | began n actor uuid t => exact h.began hu
  | listed n => exact h.listed n
  | decided n => exact h.decided n
  | sealed n => exact h.sealed n
  | written n => exact h.written hu
  | lost n => exact h.drop n
  | removed id => exact ⟨h.same, h.plugin, h.calls, h.distinct⟩

theorem settled_empty : Settled Catalog.empty := by
  refine ⟨?_, ?_, ?_, ?_⟩ <;> simp [Catalog.empty]

/-- A template keeps its owner as long as no two first writers of an id chosen
by its callers name different plugins. -/
theorem lineage_kept (requests : List Request) (h : Along Catalog.step Undisputed .empty requests) :
    ∀ a ∈ (run Catalog.step .empty requests).revisions, ∀ b ∈ (run Catalog.step .empty requests).revisions,
      a.id = b.id → a.lineage = b.lineage :=
  (run_invariant (fun _ _ hc hu => hc.step hu) settled_empty h).same

def sampleTemplate (plugin name : String) : Template where
  id := "ffffffffffffffffffffffffffffffff"
  version := ""
  name := name
  description := ""
  scope := .plugin
  owner := ""
  project := none
  plugin := some plugin
  entrypoint := "main.tex"
  assets := [⟨"main.tex", [120]⟩]
  vars := []

def samplePair (plugin : String) : List Request :=
  [.began 0 "ada" "" (sampleTemplate "a" "Letter"), .began 1 "bob" "" (sampleTemplate plugin "Memo"), .listed 0, .listed 1,
    .decided 0, .decided 1, .sealed 0, .sealed 1, .written 0, .written 1]

def sampleCatalog (requests : List Request) : Catalog := run Catalog.step .empty requests

theorem lineage_kept_pair :
    (sampleCatalog (samplePair "a")).revisions.map Template.name = ["Memo", "Letter"] ∧
    ∀ a ∈ (sampleCatalog (samplePair "a")).revisions, ∀ b ∈ (sampleCatalog (samplePair "a")).revisions,
      a.id = b.id → a.lineage = b.lineage := by
  have hrun : (sampleCatalog (samplePair "a")).revisions.map Template.name = ["Memo", "Letter"] ∧
      (∀ r ∈ (sampleCatalog ((samplePair "a").take 9)).revisions, r.plugin = some "a") ∧
      ((sampleCatalog ((samplePair "a").take 9)).calls 1).map (fun call => call.template.plugin) = some (some "a") := by
    decide +kernel
  obtain ⟨hnames, hplugin, hcall⟩ := hrun
  refine ⟨hnames, lineage_kept (samplePair "a") ?_⟩
  refine ⟨fun h => absurd h (by decide), fun h => absurd h (by decide), trivial, trivial, trivial, trivial, trivial,
    trivial, ?_, ?_, trivial⟩
  · intro call _ _ r hr
    cases hr
  · intro call hc _ r hr _
    obtain ⟨other, ho, hp⟩ := Option.map_eq_some_iff.mp hcall
    obtain rfl : call = other := Option.some.inj (hc.symm.trans ho)
    exact (hplugin r hr).trans hp.symm

theorem plugin_template_disputed :
    (sampleCatalog (samplePair "b")).revisions.map (fun t => (t.id, t.plugin, t.owner)) =
      [("ffffffffffffffffffffffffffffffff", some "b", "plugin:b"),
        ("ffffffffffffffffffffffffffffffff", some "a", "plugin:a")] ∧
    ¬ ∀ a ∈ (sampleCatalog (samplePair "b")).revisions, ∀ b ∈ (sampleCatalog (samplePair "b")).revisions,
      a.id = b.id → a.lineage = b.lineage := by
  decide +kernel

end Galadril.Compilation.Templates
