import Galadril.Lib.Mapping
import Galadril.Lib.Text
import Galadril.Registry.Identity

namespace Galadril.Intake.Router

open Lib.Checked Lib.Mapping Lib.Text Registry.Identity

structure PipelineIdentity where
  tenantId : String
  pipelineId : String
  revisionId : String
deriving DecidableEq

def PipelineIdentity.executionIdentity (identity : PipelineIdentity) : String :=
  identity.tenantId ++ "/" ++ identity.pipelineId ++ "/" ++ identity.revisionId

structure PublishedPipeline where
  identity : PipelineIdentity
  definition : String

structure Source where
  id : String
  topic : String
  matchPattern : String
  schemaPath : Option String
  parser : String
  sourceKind : String
  sensorId : Option String
  sensorType : Option String
  deviceId : Option String
  groupId : Option String
  contentTypes : List String

structure ResolvedRoute where
  identity : PipelineIdentity
  sourceId : String
  topic : String
  schemaPath : Option String
  parser : String
  sourceKind : String
  sensorId : Option String
  sensorType : Option String
  deviceId : Option String
deriving DecidableEq

structure PipelineRule where
  regex : String → Bool
  route : ResolvedRoute
  groupId : Option String
  contentTypes : List String

inductive TenantCacheState
  | active (rules : List PipelineRule)
  | noRulesFound
  | invalidConfig (e : String)

/-- Loading ends with an error, or with a configuration that is kept as
invalid. -/
inductive Stop
  | bail (e : String)
  | invalid (e : String)

/-- What the router is given: whether a tenant may be served, the sources of a
definition and the matcher of a pattern. -/
structure Surroundings where
  authorizeTenant : String → Except String Unit
  parseTenantPipeline : String → Except String (List Source)
  buildRegex : String → Except String (String → Bool)

variable (env : Surroundings)

def validContentType (value : String) : Bool :=
  value.utf8ByteSize ≤ 128 && value.toList.contains '/' && !value.toList.contains ';' && !value.toList.any isWhitespace

def validFilters (source : Source) : Bool :=
  source.groupId.all (plain 1 64 ['_', '-']) && source.contentTypes.length ≤ 16 && source.contentTypes.all validContentType

def routeOf (identity : PipelineIdentity) (source : Source) : ResolvedRoute :=
  ⟨identity, source.id, source.topic, source.schemaPath, source.parser, source.sourceKind, source.sensorId, source.sensorType,
    source.deviceId⟩

def compileSource (tenant : String) (identity : PipelineIdentity) (source : Source) : Except Stop PipelineRule := do
  ensure (validFilters source) (.bail "Invalid source ingestion filters")
  match env.buildRegex source.matchPattern with
  | .ok regex => .ok ⟨regex, routeOf identity source, source.groupId, source.contentTypes⟩
  | .error e => .error (.invalid ("Invalid or overly complex regex '" ++ source.matchPattern ++ "' in source '" ++ source.id ++
      "' for tenant " ++ tenant ++ ": " ++ e))

def compilePipeline (tenant : String) (published : PublishedPipeline) : Except Stop (List PipelineRule) := do
  ensure (published.identity.tenantId = tenant) (.bail "Published pipeline tenant capability mismatch")
  ensure (published.definition.utf8ByteSize ≤ 5 * 1024 * 1024) (.bail "Published pipeline exceeds maximum allowed size of 5MB")
  let sources ← (env.parseTenantPipeline published.definition).mapError Stop.bail
  sources.mapM (compileSource env tenant published.identity)

def fetchTenantRules (tenant : String) (published : Except String (List PublishedPipeline)) : Except String TenantCacheState := do
  let definitions ← published
  match definitions.mapM (compilePipeline env tenant) with
  | .error (.bail e) => .error e
  | .error (.invalid e) => .ok (.invalidConfig e)
  | .ok compiled => .ok (if compiled.flatten.isEmpty then .noRulesFound else .active compiled.flatten)

def groupOf (tenant key : String) : Option (List Char) :=
  (((stripStart tenant.toList key.toList).bind (stripStart "/raw/".toList)).bind (splitOnce '/')).map Prod.fst

def mediaType (contentType : String) : List Char :=
  trimBy isWhitespace (((splitOnce ';' contentType.toList).map Prod.fst).getD contentType.toList)

def eqIgnoreAsciiCase (a b : List Char) : Bool := a.map Char.toLower == b.map Char.toLower

def ruleMatches (tenant key contentType : String) (rule : PipelineRule) : Bool :=
  rule.groupId.all (fun expected => some expected.toList == groupOf tenant key) &&
    (rule.contentTypes.isEmpty || rule.contentTypes.any fun expected =>
      eqIgnoreAsciiCase expected.toList (mediaType contentType)) &&
    rule.regex key

def addMatch (tenant key contentType : String) (found : List ResolvedRoute) (rule : PipelineRule) : List ResolvedRoute :=
  if ruleMatches tenant key contentType rule && !found.contains rule.route then found ++ [rule.route] else found

def ambiguous : List ResolvedRoute → Option ResolvedRoute
  | [] => none
  | route :: rest =>
      if rest.any fun candidate => candidate.identity == route.identity && candidate != route then some route else ambiguous rest

def routeLe (left right : ResolvedRoute) : Bool :=
  left.identity.pipelineId < right.identity.pipelineId ||
    (left.identity.pipelineId = right.identity.pipelineId && left.identity.revisionId ≤ right.identity.revisionId)

def noMatch (tenant key : String) : String := "No pipeline source rule matches key " ++ key ++ " for tenant " ++ tenant

def resolveEventRoutes (published : Except String (List PublishedPipeline)) (tenant key contentType : String) :
    Except String (List ResolvedRoute) := do
  ensure (validTenant tenant) "Invalid pipeline tenant"
  env.authorizeTenant tenant
  let state ← (fetchTenantRules env tenant published).mapError fun e =>
    "Failed to initialize routing state for tenant " ++ tenant ++ ": " ++ e
  match state with
  | .noRulesFound => .error (noMatch tenant key)
  | .invalidConfig e => .error ("Tenant configuration is invalid: " ++ e)
  | .active rules =>
      let found := rules.foldl (addMatch tenant key contentType) []
      if found.isEmpty then .error (noMatch tenant key)
      else
        match ambiguous found with
        | some route => .error ("Ambiguous routing constraint within pipeline " ++ route.identity.executionIdentity)
        | none => .ok (found.mergeSort routeLe)

section Compiling

variable {env : Surroundings} {tenant : String}

/-- A published definition that the router can use: of this tenant, not too
large, readable, with sources whose filters and patterns are in order. -/
structure Usable (env : Surroundings) (tenant : String) (published : PublishedPipeline) : Prop where
  own : published.identity.tenantId = tenant
  small : published.definition.utf8ByteSize ≤ 5 * 1024 * 1024
  sound : ∃ sources, env.parseTenantPipeline published.definition = .ok sources ∧
    ∀ source ∈ sources, validFilters source = true ∧ Accepts (env.buildRegex source.matchPattern)

theorem compileSource_eq_ok {identity : PipelineIdentity} {source : Source} {rule : PipelineRule} :
    compileSource env tenant identity source = .ok rule ↔ validFilters source = true ∧
      ∃ regex, env.buildRegex source.matchPattern = .ok regex ∧
        rule = ⟨regex, routeOf identity source, source.groupId, source.contentTypes⟩ := by
  rw [compileSource, bind_eq_ok]
  cases hregex : env.buildRegex source.matchPattern with
  | error e => simp
  | ok regex =>
      simp only [ensure_eq_ok, exists_const, Except.ok.injEq, exists_eq_left']
      exact and_congr_right fun _ => ⟨fun h => h.symm, fun h => h.symm⟩

theorem compilePipeline_eq_ok {published : PublishedPipeline} {rules : List PipelineRule} :
    compilePipeline env tenant published = .ok rules ↔ published.identity.tenantId = tenant ∧
      published.definition.utf8ByteSize ≤ 5 * 1024 * 1024 ∧
        ∃ sources, env.parseTenantPipeline published.definition = .ok sources ∧
          sources.mapM (compileSource env tenant published.identity) = .ok rules := by
  simp [compilePipeline, mapError_eq_ok]

theorem accepts_compilePipeline {published : PublishedPipeline} :
    Accepts (compilePipeline env tenant published) ↔ Usable env tenant published := by
  have hsource (identity : PipelineIdentity) (source : Source) : Accepts (compileSource env tenant identity source) ↔
      validFilters source = true ∧ Accepts (env.buildRegex source.matchPattern) := by
    simp only [Accepts, compileSource_eq_ok]
    constructor
    · rintro ⟨_, hfilters, regex, hregex, -⟩
      exact ⟨hfilters, regex, hregex⟩
    · rintro ⟨hfilters, regex, hregex⟩
      exact ⟨_, hfilters, regex, hregex, rfl⟩
  constructor
  · rintro ⟨rules, h⟩
    obtain ⟨hown, hsmall, sources, hsources, hrules⟩ := compilePipeline_eq_ok.mp h
    exact ⟨hown, hsmall, sources, hsources, fun source hmem => (hsource _ _).mp (accepts_mapM.mp ⟨rules, hrules⟩ source hmem)⟩
  · rintro ⟨hown, hsmall, sources, hsources, hsound⟩
    obtain ⟨rules, hrules⟩ := accepts_mapM.mpr fun source hmem => (hsource published.identity source).mpr (hsound source hmem)
    exact ⟨rules, compilePipeline_eq_ok.mpr ⟨hown, hsmall, sources, hsources, hrules⟩⟩

end Compiling

section Matching

variable {env : Surroundings} {tenant key contentType : String}

def Matching (env : Surroundings) (tenant key contentType : String) (published : List PublishedPipeline)
    (route : ResolvedRoute) : Prop :=
  ∃ p ∈ published, ∃ sources, env.parseTenantPipeline p.definition = .ok sources ∧ ∃ source ∈ sources, ∃ regex,
    env.buildRegex source.matchPattern = .ok regex ∧ route = routeOf p.identity source ∧
      ruleMatches tenant key contentType ⟨regex, route, source.groupId, source.contentTypes⟩ = true

theorem matching_compiled {published : List PublishedPipeline} {compiled : List (List PipelineRule)}
    (h : published.mapM (compilePipeline env tenant) = .ok compiled) {route : ResolvedRoute} :
    (∃ rule ∈ compiled.flatten, ruleMatches tenant key contentType rule = true ∧ rule.route = route) ↔
      Matching env tenant key contentType published route := by
  constructor
  · rintro ⟨rule, hrule, hmatches, rfl⟩
    obtain ⟨rules, hrules, hmem⟩ := List.mem_flatten.mp hrule
    obtain ⟨p, hp, hcompile⟩ := (mem_mapM h).mp hrules
    obtain ⟨-, -, sources, hsources, hcompiled⟩ := compilePipeline_eq_ok.mp hcompile
    obtain ⟨source, hsource, hone⟩ := (mem_mapM hcompiled).mp hmem
    obtain ⟨-, regex, hregex, rfl⟩ := compileSource_eq_ok.mp hone
    exact ⟨p, hp, sources, hsources, source, hsource, regex, hregex, rfl, hmatches⟩
  · rintro ⟨p, hp, sources, hsources, source, hsource, regex, hregex, rfl, hmatches⟩
    obtain ⟨rules, hcompile⟩ := accepts_mapM.mp ⟨compiled, h⟩ p hp
    obtain ⟨-, -, sources', hsources', hcompiled⟩ := compilePipeline_eq_ok.mp hcompile
    rw [hsources] at hsources'
    cases hsources'
    obtain ⟨rule, hone⟩ := accepts_mapM.mp ⟨rules, hcompiled⟩ source hsource
    obtain ⟨hfilters, regex', hregex', hrule⟩ := compileSource_eq_ok.mp hone
    rw [hregex] at hregex'
    cases hregex'
    refine ⟨rule, List.mem_flatten.mpr ⟨rules, (mem_mapM h).mpr ⟨p, hp, hcompile⟩,
      (mem_mapM hcompiled).mpr ⟨source, hsource, hone⟩⟩, ?_, ?_⟩
    · rw [hrule]
      exact hmatches
    · rw [hrule]

/-- The pass over the rules collects each matching route once. -/
theorem found_spec (rules : List PipelineRule) (found : List ResolvedRoute) (h : found.Nodup) :
    (rules.foldl (addMatch tenant key contentType) found).Nodup ∧ ∀ route,
      route ∈ rules.foldl (addMatch tenant key contentType) found ↔
        route ∈ found ∨ ∃ rule ∈ rules, ruleMatches tenant key contentType rule = true ∧ rule.route = route := by
  induction rules generalizing found with
  | nil => exact ⟨h, by simp⟩
  | cons rule rules ih =>
      have hstep : (addMatch tenant key contentType found rule).Nodup ∧
        ∀ route, route ∈ addMatch tenant key contentType found rule ↔
          route ∈ found ∨ (ruleMatches tenant key contentType rule = true ∧ rule.route = route) := by
        rw [addMatch]
        split
        · next hnew =>
            simp only [Bool.and_eq_true, Bool.not_eq_true', List.contains_eq_mem, decide_eq_false_iff_not] at hnew
            exact ⟨List.nodup_append'.mpr ⟨h, List.nodup_singleton _, List.disjoint_singleton.mpr hnew.2⟩,
              by simp [hnew.1, eq_comm]⟩
        · next hold =>
            refine ⟨h, fun route => ⟨.inl, ?_⟩⟩
            rintro (hmem | ⟨hmatches, rfl⟩)
            · exact hmem
            · by_contra hmem
              exact hold (by simp [hmatches, hmem])
      obtain ⟨hnodup, hmem⟩ := ih _ hstep.1
      refine ⟨hnodup, fun route => ?_⟩
      rw [List.foldl_cons, hmem, hstep.2, List.exists_mem_cons_iff, or_assoc]

theorem ambiguous_eq_none {routes : List ResolvedRoute} :
    ambiguous routes = none ↔ routes.Pairwise fun route candidate => candidate.identity = route.identity → candidate = route := by
  induction routes with
  | nil => simp [ambiguous]
  | cons route rest ih =>
      rw [ambiguous, List.pairwise_cons, ← ih]
      split
      · next h =>
          refine iff_of_false (by simp) fun hnone => ?_
          obtain ⟨candidate, hmem, hcandidate⟩ := List.any_eq_true.mp h
          simp only [Bool.and_eq_true, beq_iff_eq, bne_iff_ne] at hcandidate
          exact hcandidate.2 (hnone.1 candidate hmem hcandidate.1)
      · next h =>
          refine ⟨fun hrest => ⟨fun candidate hmem hidentity => ?_, hrest⟩, And.right⟩
          by_contra hne
          exact h (List.any_eq_true.mpr ⟨candidate, hmem, by simp [hidentity, hne]⟩)

end Matching

section Exact

variable {env : Surroundings} {tenant key contentType : String} {published : List PublishedPipeline}

def sortKey (route : ResolvedRoute) : String ×ₗ String := toLex (route.identity.pipelineId, route.identity.revisionId)

theorem routeLe_iff {left right : ResolvedRoute} : routeLe left right = true ↔ sortKey left ≤ sortKey right := by
  rw [sortKey, sortKey, Prod.Lex.toLex_le_toLex]
  simp [routeLe]

theorem sorted_mergeSort (routes : List ResolvedRoute) : (routes.mergeSort routeLe).Pairwise fun a b => routeLe a b = true := by
  refine List.pairwise_mergeSort (fun a b c => ?_) (fun a b => ?_) routes
  · simp only [routeLe_iff]
    exact le_trans
  · rw [Bool.or_eq_true, routeLe_iff, routeLe_iff]
    exact le_total _ _

structure Admitted (env : Surroundings) (tenant : String) (published : List PublishedPipeline) : Prop where
  valid : validTenant tenant = true
  authorized : Accepts (env.authorizeTenant tenant)
  usable : ∀ p ∈ published, Usable env tenant p

def Unambiguous (env : Surroundings) (tenant key contentType : String) (published : List PublishedPipeline) : Prop :=
  ∀ a b, Matching env tenant key contentType published a → Matching env tenant key contentType published b →
    a.identity = b.identity → a = b

theorem fetchTenantRules_active {rules : List PipelineRule} :
    fetchTenantRules env tenant (.ok published) = .ok (.active rules) ↔
      ∃ compiled, published.mapM (compilePipeline env tenant) = .ok compiled ∧ compiled.flatten ≠ [] ∧
        rules = compiled.flatten := by
  rw [fetchTenantRules, ok_bind]
  cases published.mapM (compilePipeline env tenant) with
  | error e => cases e <;> simp
  | ok compiled =>
      simp only [Except.ok.injEq, exists_eq_left', List.isEmpty_iff]
      generalize compiled.flatten = all
      split
      · next hempty => simp [hempty]
      · next hrules => exact ⟨fun h => ⟨hrules, (TenantCacheState.active.inj h).symm⟩, fun h => by rw [h.2]⟩

theorem resolve_active {routes : List ResolvedRoute} :
    resolveEventRoutes env (.ok published) tenant key contentType = .ok routes ↔
      validTenant tenant = true ∧ Accepts (env.authorizeTenant tenant) ∧
        ∃ compiled, published.mapM (compilePipeline env tenant) = .ok compiled ∧
          compiled.flatten.foldl (addMatch tenant key contentType) [] ≠ [] ∧
          ambiguous (compiled.flatten.foldl (addMatch tenant key contentType) []) = none ∧
          routes = (compiled.flatten.foldl (addMatch tenant key contentType) []).mergeSort routeLe := by
  simp only [resolveEventRoutes, bind_eq_ok, ensure_eq_ok, mapError_eq_ok, exists_const]
  refine and_congr_right fun _ => ?_
  constructor
  · rintro ⟨u, hauthorized, state, hstate, hroutes⟩
    refine ⟨⟨u, hauthorized⟩, ?_⟩
    cases state with
    | noRulesFound => cases hroutes
    | invalidConfig e => cases hroutes
    | active rules =>
        obtain ⟨compiled, hcompiled, -, rfl⟩ := fetchTenantRules_active.mp hstate
        refine ⟨compiled, hcompiled, ?_⟩
        simp only at hroutes
        split at hroutes
        · cases hroutes
        · next hfound =>
            split at hroutes
            · cases hroutes
            · next hnone => exact ⟨by simpa using hfound, hnone, (Except.ok.inj hroutes).symm⟩
  · rintro ⟨⟨u, hauthorized⟩, compiled, hcompiled, hfound, hnone, rfl⟩
    have hrules : compiled.flatten ≠ [] := fun hnil => hfound (by rw [hnil]; rfl)
    refine ⟨u, hauthorized, _, fetchTenantRules_active.mpr ⟨compiled, hcompiled, hrules, rfl⟩, ?_⟩
    simp only [List.isEmpty_iff, hfound, if_false, hnone]

theorem pairwise_unambiguous {routes : List ResolvedRoute}
    (hroutes : ∀ route, route ∈ routes ↔ Matching env tenant key contentType published route) :
    (routes.Pairwise fun route candidate => candidate.identity = route.identity → candidate = route) ↔
      Unambiguous env tenant key contentType published := by
  constructor
  · intro h a b ha hb hidentity
    have hsymm : Std.Symm fun route candidate : ResolvedRoute => candidate.identity = route.identity → candidate = route :=
      ⟨fun a b hab h => (hab h.symm).symm⟩
    exact h.forall_of_forall (fun _ _ _ => rfl) ((hroutes b).mpr hb) ((hroutes a).mpr ha) hidentity
  · intro h
    refine List.pairwise_of_forall_mem_list fun a ha b hb hidentity => ?_
    exact h b a ((hroutes b).mp hb) ((hroutes a).mp ha) hidentity

theorem matching_tenant (h : ∀ p ∈ published, Usable env tenant p) {route : ResolvedRoute}
    (hroute : Matching env tenant key contentType published route) : route.identity.tenantId = tenant := by
  obtain ⟨p, hp, _, _, _, _, _, _, rfl, _⟩ := hroute
  exact (h p hp).own

theorem sorted_unique (husable : ∀ p ∈ published, Usable env tenant p)
    (hunambiguous : Unambiguous env tenant key contentType published)
    {routes others : List ResolvedRoute} (hroutes : ∀ route, route ∈ routes ↔ Matching env tenant key contentType published route)
    (hothers : ∀ route, route ∈ others ↔ Matching env tenant key contentType published route) (hnodup : routes.Nodup)
    (hnodup' : others.Nodup) (hsorted : routes.Pairwise fun a b => routeLe a b = true)
    (hsorted' : others.Pairwise fun a b => routeLe a b = true) : routes = others := by
  have hperm : routes.Perm others := (List.perm_ext_iff_of_nodup hnodup hnodup').mpr fun route =>
    (hroutes route).trans (hothers route).symm
  refine hperm.eq_of_pairwise (fun a b ha hb hle hge => ?_) hsorted hsorted'
  have hkey : sortKey a = sortKey b := le_antisymm (routeLe_iff.mp hle) (routeLe_iff.mp hge)
  have hparts := Prod.mk.inj (toLex_inj.mp hkey)
  have ha := (hroutes a).mp ha
  have hb := (hothers b).mp hb
  have htenant : a.identity.tenantId = b.identity.tenantId := (matching_tenant husable ha).trans (matching_tenant husable hb).symm
  refine hunambiguous a b ha hb ?_
  cases hida : a.identity
  cases hidb : b.identity
  simp only [hida, hidb] at hparts htenant
  rw [hparts.1, hparts.2, htenant]

theorem resolve_eq_ok {routes : List ResolvedRoute} :
    resolveEventRoutes env (.ok published) tenant key contentType = .ok routes ↔
      Admitted env tenant published ∧ routes ≠ [] ∧ Unambiguous env tenant key contentType published ∧
        (∀ route, route ∈ routes ↔ Matching env tenant key contentType published route) ∧ routes.Nodup ∧
          routes.Pairwise fun a b => routeLe a b = true := by
  rw [resolve_active]
  constructor
  · rintro ⟨hvalid, hauthorized, compiled, hcompiled, hfound, hnone, rfl⟩
    have husable := fun p hp => accepts_compilePipeline.mp (accepts_mapM.mp ⟨compiled, hcompiled⟩ p hp)
    obtain ⟨hnodup, hmem⟩ := @found_spec tenant key contentType compiled.flatten [] List.nodup_nil
    simp only [List.not_mem_nil, false_or, matching_compiled hcompiled] at hmem
    generalize compiled.flatten.foldl (addMatch tenant key contentType) [] = found at hfound hnone hnodup hmem ⊢
    have hperm := List.mergeSort_perm found routeLe
    refine ⟨⟨hvalid, hauthorized, husable⟩, fun hnil => hfound (by rw [hnil] at hperm; exact List.nil_perm.mp hperm),
      (pairwise_unambiguous hmem).mp (ambiguous_eq_none.mp hnone), fun route => hperm.mem_iff.trans (hmem route),
      hperm.nodup_iff.mpr hnodup, sorted_mergeSort found⟩
  · rintro ⟨⟨hvalid, hauthorized, husable⟩, hne, hunambiguous, hroutes, hnodup, hsorted⟩
    obtain ⟨compiled, hcompiled⟩ := accepts_mapM.mpr fun p hp => accepts_compilePipeline.mpr (husable p hp)
    obtain ⟨hnodup', hmem⟩ := @found_spec tenant key contentType compiled.flatten [] List.nodup_nil
    simp only [List.not_mem_nil, false_or, matching_compiled hcompiled] at hmem
    refine ⟨hvalid, hauthorized, compiled, hcompiled, ?_, ambiguous_eq_none.mpr ((pairwise_unambiguous hmem).mpr hunambiguous), ?_⟩
    · obtain ⟨route, hroute⟩ := List.exists_mem_of_ne_nil routes hne
      exact List.ne_nil_of_mem ((hmem route).mpr ((hroutes route).mp hroute))
    · have hperm := List.mergeSort_perm (compiled.flatten.foldl (addMatch tenant key contentType) []) routeLe
      exact sorted_unique husable hunambiguous hroutes (fun route => hperm.mem_iff.trans (hmem route)) hnodup
        (hperm.nodup_iff.mpr hnodup') hsorted (sorted_mergeSort _)

def SameSources (env : Surroundings) (p q : PublishedPipeline) : Prop :=
  p.identity = q.identity ∧ p.definition.utf8ByteSize = q.definition.utf8ByteSize ∧
    ((∃ sources others, env.parseTenantPipeline p.definition = .ok sources ∧ env.parseTenantPipeline q.definition = .ok others ∧
        sources.Perm others) ∨
      (¬ Accepts (env.parseTenantPipeline p.definition) ∧ ¬ Accepts (env.parseTenantPipeline q.definition)))

def Reordered (env : Surroundings) (published others : List PublishedPipeline) : Prop :=
  ∃ middle, published.Perm middle ∧ List.Forall₂ (SameSources env) middle others

theorem sameSources_symm {p q : PublishedPipeline} (h : SameSources env p q) : SameSources env q p := by
  obtain ⟨hidentity, hsize, ⟨sources, others, hsources, hothers, hperm⟩ | ⟨hp, hq⟩⟩ := h
  · exact ⟨hidentity.symm, hsize.symm, .inl ⟨others, sources, hothers, hsources, hperm.symm⟩⟩
  · exact ⟨hidentity.symm, hsize.symm, .inr ⟨hq, hp⟩⟩

theorem forall₂_mem {α β : Type} {R : α → β → Prop} {xs : List α} {ys : List β} (h : List.Forall₂ R xs ys) :
    (∀ x ∈ xs, ∃ y ∈ ys, R x y) ∧ ∀ y ∈ ys, ∃ x ∈ xs, R x y := by
  induction h with
  | nil => simp
  | cons hxy _ ih =>
      simp only [List.forall_mem_cons, List.exists_mem_cons_iff]
      exact ⟨⟨.inl hxy, fun x hx => .inr (ih.1 x hx)⟩, .inl hxy, fun y hy => .inr (ih.2 y hy)⟩

theorem reordered_covers {others : List PublishedPipeline} (h : Reordered env published others) :
    (∀ p ∈ published, ∃ q ∈ others, SameSources env p q) ∧ ∀ q ∈ others, ∃ p ∈ published, SameSources env q p := by
  obtain ⟨middle, hperm, hall⟩ := h
  obtain ⟨hleft, hright⟩ := forall₂_mem hall
  refine ⟨fun p hp => hleft p (hperm.mem_iff.mp hp), fun q hq => ?_⟩
  obtain ⟨p, hp, hsame⟩ := hright q hq
  exact ⟨p, hperm.mem_iff.mpr hp, sameSources_symm hsame⟩

theorem usable_of_same {p q : PublishedPipeline} (h : SameSources env p q) (hp : Usable env tenant p) : Usable env tenant q := by
  obtain ⟨hown, hsmall, sources, hsources, hsound⟩ := hp
  obtain ⟨hidentity, hsize, ⟨sources', others, hsources', hothers, hperm⟩ | ⟨hrejected, -⟩⟩ := h
  · rw [hsources] at hsources'
    cases hsources'
    exact ⟨hidentity ▸ hown, hsize ▸ hsmall, others, hothers, fun source hmem => hsound source (hperm.mem_iff.mpr hmem)⟩
  · exact absurd ⟨sources, hsources⟩ hrejected

theorem matching_of_covers {others : List PublishedPipeline} (h : ∀ p ∈ published, ∃ q ∈ others, SameSources env p q)
    {route : ResolvedRoute} (hroute : Matching env tenant key contentType published route) :
    Matching env tenant key contentType others route := by
  obtain ⟨p, hp, sources, hsources, source, hsource, regex, hregex, hroute, hmatches⟩ := hroute
  obtain ⟨q, hq, hidentity, -, ⟨sources', others, hsources', hothers, hperm⟩ | ⟨hrejected, -⟩⟩ := h p hp
  · rw [hsources] at hsources'
    cases hsources'
    exact ⟨q, hq, others, hothers, source, hperm.mem_iff.mp hsource, regex, hregex, hidentity ▸ hroute, hmatches⟩
  · exact absurd ⟨sources, hsources⟩ hrejected

theorem resolve_of_covers {others : List PublishedPipeline} (h : ∀ p ∈ published, ∃ q ∈ others, SameSources env p q)
    (h' : ∀ q ∈ others, ∃ p ∈ published, SameSources env q p) {routes : List ResolvedRoute}
    (hroutes : resolveEventRoutes env (.ok published) tenant key contentType = .ok routes) :
    resolveEventRoutes env (.ok others) tenant key contentType = .ok routes := by
  obtain ⟨⟨hvalid, hauthorized, husable⟩, hne, hunambiguous, hmem, hnodup, hsorted⟩ := resolve_eq_ok.mp hroutes
  refine resolve_eq_ok.mpr ⟨⟨hvalid, hauthorized, fun q hq => ?_⟩, hne, fun a b ha hb => ?_, fun route => ?_, hnodup, hsorted⟩
  · obtain ⟨p, hp, hsame⟩ := h' q hq
    exact usable_of_same (sameSources_symm hsame) (husable p hp)
  · exact hunambiguous a b (matching_of_covers h' ha) (matching_of_covers h' hb)
  · exact (hmem route).trans ⟨matching_of_covers h, matching_of_covers h'⟩

/-- Routing does not depend on the order of the pipelines and their sources. It
yields one route for each pipeline with a matching source, and it succeeds
exactly when the configuration is usable, some source matches and no pipeline
has two matching routes. -/
theorem event_routing_exact (env : Surroundings) (published : List PublishedPipeline) (tenant key contentType : String) :
    (∀ others, Reordered env published others → ∀ routes,
      (resolveEventRoutes env (.ok published) tenant key contentType = .ok routes ↔
        resolveEventRoutes env (.ok others) tenant key contentType = .ok routes)) ∧
    (∀ routes, resolveEventRoutes env (.ok published) tenant key contentType = .ok routes →
      (routes.map ResolvedRoute.identity).Nodup ∧
        (∀ identity, identity ∈ routes.map ResolvedRoute.identity ↔
          ∃ route, Matching env tenant key contentType published route ∧ route.identity = identity) ∧
        ∀ route ∈ routes, Matching env tenant key contentType published route) ∧
    (Accepts (resolveEventRoutes env (.ok published) tenant key contentType) ↔
      Admitted env tenant published ∧ (∃ route, Matching env tenant key contentType published route) ∧
        Unambiguous env tenant key contentType published) := by
  refine ⟨fun others h routes => ?_, fun routes hroutes => ?_, ?_⟩
  · obtain ⟨hleft, hright⟩ := reordered_covers h
    exact ⟨resolve_of_covers hleft hright, resolve_of_covers hright hleft⟩
  · obtain ⟨-, -, hunambiguous, hmem, hnodup, -⟩ := resolve_eq_ok.mp hroutes
    refine ⟨?_, fun identity => ?_, fun route hroute => (hmem route).mp hroute⟩
    · refine List.Nodup.map_on (fun a ha b hb hidentity => ?_) hnodup
      exact hunambiguous a b ((hmem a).mp ha) ((hmem b).mp hb) hidentity
    · simp only [List.mem_map, hmem]
  · constructor
    · rintro ⟨routes, hroutes⟩
      obtain ⟨hadmitted, hne, hunambiguous, hmem, -⟩ := resolve_eq_ok.mp hroutes
      obtain ⟨route, hroute⟩ := List.exists_mem_of_ne_nil routes hne
      exact ⟨hadmitted, ⟨route, (hmem route).mp hroute⟩, hunambiguous⟩
    · rintro ⟨⟨hvalid, hauthorized, husable⟩, ⟨route, hroute⟩, hunambiguous⟩
      obtain ⟨compiled, hcompiled⟩ := accepts_mapM.mpr fun p hp => accepts_compilePipeline.mpr (husable p hp)
      obtain ⟨-, hmem⟩ := @found_spec tenant key contentType compiled.flatten [] List.nodup_nil
      simp only [List.not_mem_nil, false_or, matching_compiled hcompiled] at hmem
      exact ⟨_, resolve_active.mpr ⟨hvalid, hauthorized, compiled, hcompiled, List.ne_nil_of_mem ((hmem route).mpr hroute),
        ambiguous_eq_none.mpr ((pairwise_unambiguous hmem).mpr hunambiguous), rfl⟩⟩

/-- A definition is its pattern here, and every pattern but an open group is a
regular expression that matches everywhere. -/
def cameras : Surroundings where
  authorizeTenant := fun _ => .ok ()
  parseTenantPipeline := fun pattern => .ok [⟨"images", "raw", pattern, none, "image", "camera", none, none, none, none, []⟩]
  buildRegex := fun pattern => if pattern = "(" then .error "unclosed group" else .ok fun _ => true

def daily : PublishedPipeline := ⟨⟨"t", "daily", "r1"⟩, ".*"⟩

def broken : PublishedPipeline := ⟨⟨"t", "broken", "r2"⟩, "("⟩

def dailyRoute : ResolvedRoute := ⟨daily.identity, "images", "raw", none, "image", "camera", none, none, none⟩

/-- One pipeline that cannot be compiled stops the routing of the others. -/
theorem routing_blocked : ¬ ∀ (env : Surroundings) (published : List PublishedPipeline) (tenant key contentType : String),
    Accepts (resolveEventRoutes env (.ok published) tenant key contentType) ↔
      (∃ route, Matching env tenant key contentType published route) ∧ Unambiguous env tenant key contentType published := by
  intro h
  have hfails : ¬ Accepts (resolveEventRoutes cameras (.ok [daily, broken]) "t" "a.jpg" "") := by decide
  have hroute {route : ResolvedRoute} (hmatching : Matching cameras "t" "a.jpg" "" [daily, broken] route) : route = dailyRoute := by
    obtain ⟨p, hp, sources, hsources, source, hsource, regex, hregex, rfl, -⟩ := hmatching
    cases hsources
    rw [List.mem_singleton] at hsource
    subst hsource
    rcases List.mem_pair.mp hp with rfl | rfl
    · rfl
    · cases hregex
  have hdaily : Matching cameras "t" "a.jpg" "" [daily, broken] dailyRoute :=
    ⟨daily, List.mem_cons_self, _, rfl, _, List.mem_singleton_self _, fun _ => true, rfl, rfl, rfl⟩
  refine hfails ((h cameras [daily, broken] "t" "a.jpg" "").mpr ⟨⟨dailyRoute, hdaily⟩, fun a b ha hb _ => ?_⟩)
  rw [hroute ha, hroute hb]

end Exact

end Galadril.Intake.Router
