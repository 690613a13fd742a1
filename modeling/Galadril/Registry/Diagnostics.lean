import Galadril.Registry.Commands
import Galadril.Registry.PipelineValidity

namespace Galadril.Registry.Pipeline

open Json Lib.Checked Lib.Programs Identity Ontology

/-- A configuration issue, under a key that clients localize. -/
structure PipelineDiagnostic where
  code : String
  nodeId : Option String
  field : Option String
  deriving DecidableEq

def reportIf (flag : Bool) (code : String) (nodeId field : Option String) : List PipelineDiagnostic :=
  if flag then [⟨code, nodeId, field⟩] else []

def sourceDiagnostics (source : Value) : List PipelineDiagnostic :=
  ["topic", "match_pattern", "schema_path"].flatMap fun field =>
    reportIf (!textField source field) "field" (source.getStr "id") (some field)

def usesConditions (step : Value) (kind : String) : Bool := kind == "filter" || step.getStr "routing" == some "conditions"

def stepDiagnostics (known : List String) (step : Value) : List PipelineDiagnostic :=
  let id := step.getStr "step"
  let kind := (step.getStr "type").getD ""
  let inputs := step.getArray "input_from"
  let conditions := (step.pointer "params" "conditions").bind Value.asArray
  reportIf (!scheduled step && inputs.all List.isEmpty) "input" id (some "input_from") ++
    reportIf (scheduled step && inputs.any fun items => !items.isEmpty) "connection" id (some "input_from") ++
    reportIf (param step "trigger" == some "cron" && (param step "cron").all blank) "field" id (some "cron") ++
    reportIf (inputs.any fun items => items.any fun input => input.asStr.all fun name => !known.contains name)
      "connection" id (some "input_from") ++
    reportIf ((inputs.any fun items => decide (items.length > 1)) && !(kind == "forward" && param step "merge" == some "union"))
      "join" id (some "input_from") ++
    reportIf (kind == "inference" && nullOrAbsent step "model" && nullOrAbsent step "capability_id")
      "model" id (some "model") ++
    reportIf (kind == "pipeline" && nullOrAbsent step "pipeline_ref") "reference" id (some "pipeline_ref") ++
    reportIf (usesConditions step kind &&
        !conditions.any fun rules => !rules.isEmpty && rules.all fun rule => textField rule "value")
      "field" id (some "conditions")

def diagnoseDefinition (definition : Value) : Except String (List PipelineDiagnostic) := do
  validateDraft definition
  let sources ← context (definition.getArray "sources") "pipeline sources missing"
  let steps ← context (definition.getArray "pipeline") "pipeline steps missing"
  return reportIf (sources.isEmpty && !steps.any scheduled) "source" none none ++ sources.flatMap sourceDiagnostics ++
    steps.flatMap (stepDiagnostics (nodeIds sources steps))

theorem reportIf_eq_nil {flag : Bool} {code : String} {nodeId field : Option String} :
    reportIf flag code nodeId field = [] ↔ flag = false := by
  cases flag <;> simp [reportIf]

theorem executableSource_diagnostics {source : Value} (h : executableSource source = .ok ()) : sourceDiagnostics source = [] := by
  simp only [executableSource, bind_eq_ok, forM_eq_ok, ensure_eq_ok] at h
  obtain ⟨-, -, hfields⟩ := h
  rw [sourceDiagnostics, List.flatMap_eq_nil_iff]
  intro field hfield
  rw [reportIf_eq_nil, hfields field hfield]
  rfl

theorem nullOrAbsent_of_text {v : Value} {key : String} (h : nullOrAbsent v key = true) : v.getStr key = none := by
  rw [nullOrAbsent, Option.all_eq_true] at h
  rw [Value.getStr, Option.bind_eq_none_iff]
  intro value hvalue
  cases value with
  | null => rfl
  | _ => cases h _ hvalue

theorem parseReference_null {v : Value} (h : v.isNull = true) : parseReference v = none := by
  cases v with
  | null => rfl
  | _ => cases h

/-- A transfer block without a reference is not admitted. -/
theorem nodeReference_named {steps : List Value} {found found' : List PipelineReference} {node : Value}
    (h : nodeReference steps found node = .ok found') (hkind : node.getStr "type" = some "pipeline") :
    nullOrAbsent node "pipeline_ref" = false := by
  simp only [nodeReference, if_pos hkind, transferReference, bind_eq_ok, context_eq_ok] at h
  obtain ⟨_, -, _, -, _, ⟨_, -, value, hvalue, _, hparsed, -⟩, -⟩ := h
  rw [nullOrAbsent, hvalue, Option.all_some, ← Bool.not_eq_true]
  intro hnull
  rw [parseReference_null hnull] at hparsed
  cases hparsed

theorem conditions_text {step : Value} {kind : String} (h : executableConditions step kind = .ok ())
    (huses : usesConditions step kind = true) : ((step.pointer "params" "conditions").bind Value.asArray).any fun rules =>
      !rules.isEmpty && rules.all fun rule => textField rule "value" := by
  rw [usesConditions, Bool.or_eq_true, beq_iff_eq, beq_iff_eq] at huses
  simp only [executableConditions, if_pos huses, bind_eq_ok, context_eq_ok, ensure_eq_ok, Bool.and_eq_true, forM_eq_ok] at h
  obtain ⟨rules, hrules, _, ⟨hsome, -⟩, hall⟩ := h
  rw [hrules, Option.any_some, hsome, Bool.true_and, List.all_eq_true]
  intro rule hrule
  have hchecked := hall rule hrule
  simp only [executableCondition, bind_eq_ok, ensure_eq_ok] at hchecked
  obtain ⟨_, -, _, -, hvalue⟩ := hchecked
  rw [Option.any_eq_true] at hvalue
  obtain ⟨text, htext, hshort⟩ := hvalue
  rw [Bool.and_eq_true] at hshort
  rw [textField, htext, Option.any_some, hshort.1]

theorem stepDiagnostics_eq_nil {known : List String} {step : Value} {id kind : String} {inputs : List String}
    (hb : Block step id kind inputs) (hclean : stepIssues step id kind = []) (hknown : ∀ u ∈ inputs, u ∈ known)
    (hexecutable : executableStep step = .ok ()) (hreference : kind = "pipeline" → nullOrAbsent step "pipeline_ref" = false) :
    stepDiagnostics known step = [] := by
  simp only [executableStep, bind_eq_ok, context_eq_ok, ensure_eq_ok, hb.kind_eq, hb.inputs_eq, Option.some.injEq] at hexecutable
  obtain ⟨_, -, _, rfl, _, rfl, _, hcron, _, hcount, hconditions⟩ := hexecutable
  have hmodel : ¬ (kind = "inference" ∧ step.getStr "model" = none ∧ step.getStr "capability_id" = none) := by
    rintro ⟨rfl, hmodel, hcapability⟩
    simp [stepIssues, hmodel, hcapability] at hclean
  simp only [stepDiagnostics, hb.id_eq, hb.kind_eq, hb.inputs_eq, List.append_eq_nil_iff, reportIf_eq_nil, Option.getD_some,
    Option.all_some, Option.any_some]
  refine ⟨⟨⟨⟨⟨⟨⟨?input, ?detached⟩, ?cron⟩, ?known⟩, ?join⟩, ?model⟩, ?reference⟩, ?conditions⟩
  case input =>
    cases hs : scheduled step <;> simp_all
  case detached =>
    cases hs : scheduled step <;> simp_all
  case cron =>
    cases hc : param step "cron" <;> simp_all
    exact hcron.resolve_left ∘ not_not_intro
  case known =>
    simpa [Value.asStr] using hknown
  case join =>
    cases hs : scheduled step <;> simp_all
    exact fun hlong => hcount.2.resolve_left (by omega)
  case model =>
    rw [← Bool.not_eq_true]
    simp only [Bool.and_eq_true, beq_iff_eq]
    rintro ⟨⟨rfl, hm⟩, hc⟩
    exact hmodel ⟨rfl, nullOrAbsent_of_text hm, nullOrAbsent_of_text hc⟩
  case reference =>
    rw [← Bool.not_eq_true]
    simp only [Bool.and_eq_true, beq_iff_eq]
    rintro ⟨rfl, hr⟩
    rw [hreference rfl] at hr
    cases hr
  case conditions =>
    rw [← Bool.not_eq_true]
    simp only [Bool.and_eq_true, Bool.not_eq_true']
    rintro ⟨huses, hno⟩
    rw [conditions_text hconditions huses] at hno
    cases hno

theorem diagnoseDefinition_eq_nil {definition : Value} (hvalid : Accepts (validateExecutable definition))
    (hreferences : Accepts (references definition)) : diagnoseDefinition definition = .ok [] := by
  obtain ⟨_, hvalid⟩ := hvalid
  obtain ⟨found, hreferences⟩ := hreferences
  simp only [validateExecutable, bind_eq_ok, context_eq_ok, ensure_eq_ok] at hvalid
  obtain ⟨_, hdraft, order, hstructure, sources, hsources, _, hreceived, steps, hsteps, _, hfed, hexecutable⟩ := hvalid
  obtain ⟨_, _, hsources', hsteps', hw⟩ := validatePipelineStructure_accepts.mp ⟨order, hstructure⟩
  obtain rfl := Option.some.inj (hsources.symm.trans hsources')
  obtain rfl := Option.some.inj (hsteps.symm.trans hsteps')
  simp only [references, hsources, hsteps, context_some, ok_bind, bind_eq_ok] at hreferences
  obtain ⟨_, -, hfold⟩ := hreferences
  simp only [diagnoseDefinition, hdraft, hsources, hsteps, context_some, ok_bind, pure_eq_ok, List.append_eq_nil_iff,
    List.flatMap_eq_nil_iff, reportIf_eq_nil]
  refine ⟨⟨?_, fun source hm => executableSource_diagnostics (forM_eq_ok.mp hreceived source hm)⟩, fun step hm => ?_⟩
  · rw [← Bool.not_eq_true]
    simpa [imp_iff_not_or] using hfed
  · obtain ⟨id, kind, inputs, hb, hclean⟩ := hw.blocks step hm
    refine stepDiagnostics_eq_nil hb hclean (fun u hu => ?_) (forM_eq_ok.mp hexecutable step hm) fun hkind => ?_
    · exact hw.closed u id ⟨step, hm, hb.id_eq, hb.consumes_iff.mpr hu⟩
    · obtain ⟨_, _, hnode⟩ := foldlM_eq_ok_mem hfold (List.mem_append_right sources hm)
      exact nodeReference_named hnode (hkind ▸ hb.kind_eq)

theorem approve_admits {input : PutPipeline} {now : Int} {revisionId : String} {record : PipelineRecord} {s : Branchline}
    (h : Accepts ((approve input now revisionId record).query backend s)) :
    Accepts (validateExecutable record.definition) ∧ Accepts (references record.definition) := by
  obtain ⟨edited, h⟩ := h
  simp only [approve, compileComposition, Prog.query_bind, bind_eq_ok, query_reported] at h
  obtain ⟨_, hvalid, _, -, _, ⟨found, hfound, -⟩, -⟩ := h
  exact ⟨⟨_, hvalid⟩, found, hfound⟩

/-- A definition that passes both rule sets has no issue, and one with an issue
is approved in no state of the repository. -/
theorem diagnostics_agree (definition : Value) :
    (Accepts (validateExecutable definition) → Accepts (references definition) → diagnoseDefinition definition = .ok []) ∧
      ∀ issues, diagnoseDefinition definition = .ok issues → issues ≠ [] →
        ¬ (Accepts (validateExecutable definition) ∧ Accepts (references definition)) ∧
          ∀ (s : Branchline) (input : PutPipeline) (now : Int) (revisionId : String) (record : PipelineRecord),
            record.definition = definition → ¬ Accepts ((approve input now revisionId record).query backend s) := by
  have hreject : ∀ issues, diagnoseDefinition definition = .ok issues → issues ≠ [] →
      ¬ (Accepts (validateExecutable definition) ∧ Accepts (references definition)) := by
    rintro issues hissues hne ⟨hvalid, hreferences⟩
    rw [diagnoseDefinition_eq_nil hvalid hreferences] at hissues
    exact hne (Except.ok.inj hissues).symm
  refine ⟨diagnoseDefinition_eq_nil, fun issues hissues hne => ⟨hreject issues hissues hne, ?_⟩⟩
  rintro s input now revisionId record rfl happroved
  exact hreject issues hissues hne (approve_admits happroved)

theorem diagnostics_agree_mail : diagnoseDefinition (mailDefinition []) = .ok [] ∧
    ∀ (s : Branchline) (input : PutPipeline) (record : PipelineRecord),
      record.definition = mailDefinition [("routing", .string "conditions")] →
        ¬ Accepts ((approve input 0 (revisionOf 0) record).query backend s) := by
  have hvalid : Accepts (validateExecutable (mailDefinition [])) := by decide +kernel
  have hreferences : Accepts (references (mailDefinition [])) := by decide +kernel
  have hissues : diagnoseDefinition (mailDefinition [("routing", .string "conditions")]) =
      .ok [⟨"field", some "score", some "conditions"⟩] := by decide +kernel
  refine ⟨(diagnostics_agree (mailDefinition [])).1 hvalid hreferences, fun s input record hrecord => ?_⟩
  exact ((diagnostics_agree _).2 _ hissues (List.cons_ne_nil _ _)).2 s input 0 (revisionOf 0) record hrecord

end Galadril.Registry.Pipeline
