import Galadril.Lib.Transitions
import Galadril.Registry.TenantRepositories

namespace Galadril.Registry

open Lib.Checked Lib.Transitions Identity

namespace Erasure

variable (dir : S3TenantDirectory) (repository : String → String)

def tenantPrefix (tenant : String) : List Char := dir.keyPrefix.toList ++ (tenant.toList ++ ['/'])

def markerKey (tenant : String) : String := dir.keyPrefix ++ tenant ++ "/_registry/tenant.json"

def under (tenant key : String) : Bool := (tenantPrefix dir tenant).isPrefixOf key.toList

def listKeys (keys : List String) (tenant : String) : List String :=
  ((keys.filter (under dir tenant)).insertionSort (· ≤ ·)).take 1000

/-- How far a deletion got: the tenant was found, its repository is gone and its
objects are being listed, or a batch of them is to be deleted. -/
inductive Stage
  | opened
  | purging
  | batch (keys : List String)

/-- The bucket, the lakeFS repositories, what the registry remembers about
markers, and the deletions under way. -/
structure State where
  keys : List String
  repositories : List String
  cache : String → Option Bool
  attempts : List (String × Stage)

/-- A request is answered, or takes effect without its answer arriving, or
fails without effect. -/
inductive Outcome
  | done
  | lost
  | refused
  deriving DecidableEq

inductive Event
  | began (tenant : String)
  | repositoryDeleted (attempt : Nat) (outcome : Outcome)
  | listed (attempt : Nat)
  | objectsDeleted (attempt : Nat) (failing : List String) (outcome : Outcome)
  | aborted (attempt : Nat)
  | forgotten (tenant : String)

def found (s : State) (tenant : String) : Bool :=
  match s.cache tenant with
  | some known => known
  | none => s.keys.contains (markerKey dir tenant)

def remember (s : State) (tenant : String) (known : Option Bool) : State :=
  { s with cache := Function.update s.cache tenant known }

def proceed (s : State) (attempt : Nat) (tenant : String) (stage : Stage) : State :=
  { s with attempts := s.attempts.set attempt (tenant, stage) }

def stop (s : State) (attempt : Nat) : State := { s with attempts := s.attempts.eraseIdx attempt }

def begin (s : State) (tenant : String) : State :=
  if validTenant tenant = true then
    let known := found dir s tenant
    let s := remember s tenant (some known)
    if known = true then { s with attempts := (tenant, .opened) :: s.attempts } else s
  else s

def deleteRepository (s : State) (attempt : Nat) (tenant : String) : Outcome → State
  | .done => proceed { s with repositories := s.repositories.filter (· != repository tenant) } attempt tenant .purging
  | .lost => stop { s with repositories := s.repositories.filter (· != repository tenant) } attempt
  | .refused => stop s attempt

/-- The listing that ends a purge comes back empty. -/
def listBatch (s : State) (attempt : Nat) (tenant : String) : State :=
  match listKeys dir s.keys tenant with
  | [] => remember (stop s attempt) tenant none
  | batch => proceed s attempt tenant (.batch batch)

def leaving (s : State) (batch failing : List String) : State :=
  { s with keys := s.keys.filter fun k => !(batch.contains k && !failing.contains k) }

def deleteObjects (s : State) (attempt : Nat) (tenant : String) (batch failing : List String) : Outcome → State
  | .refused => stop s attempt
  | .lost => stop (leaving s batch failing) attempt
  | .done =>
      if batch.any failing.contains then stop (leaving s batch failing) attempt
      else proceed (leaving s batch failing) attempt tenant .purging

def step (s : State) : Event → State
  | .began tenant => begin dir s tenant
  | .repositoryDeleted i outcome =>
      match s.attempts[i]? with
      | some (tenant, .opened) => deleteRepository repository s i tenant outcome
      | _ => s
  | .listed i =>
      match s.attempts[i]? with
      | some (tenant, .purging) => listBatch dir s i tenant
      | _ => s
  | .objectsDeleted i failing outcome =>
      match s.attempts[i]? with
      | some (tenant, .batch batch) => deleteObjects s i tenant batch failing outcome
      | _ => s
  | .aborted i => stop s i
  | .forgotten tenant => remember s tenant none

theorem no_slash {tenant : String} (h : validTenant tenant = true) : ∀ c ∈ tenant.toList, c ≠ '/' := by
  simp only [validTenant, plain, Bool.and_eq_true, List.all_eq_true] at h
  rintro c hc rfl
  exact absurd (h.2 '/' hc) (by decide)

theorem takeWhile_segment {name rest : List Char} (h : ∀ c ∈ name, c ≠ '/') :
    (name ++ '/' :: rest).takeWhile (· != '/') = name := by
  rw [List.takeWhile_append_of_pos (fun c hc => by simp [h c hc])]
  simp

theorem under_unique {a b key : String} (ha : validTenant a = true) (hb : validTenant b = true)
    (hka : under dir a key = true) (hkb : under dir b key = true) : a = b := by
  obtain ⟨ra, hra⟩ := List.isPrefixOf_iff_prefix.mp hka
  obtain ⟨rb, hrb⟩ := List.isPrefixOf_iff_prefix.mp hkb
  have hsame : a.toList ++ '/' :: ra = b.toList ++ '/' :: rb := by
    have hkeys := hra.trans hrb.symm
    simpa [tenantPrefix, List.append_assoc] using hkeys
  have hnames := congrArg (List.takeWhile (· != '/')) hsame
  rw [takeWhile_segment (no_slash ha), takeWhile_segment (no_slash hb)] at hnames
  exact String.toList_inj.mp hnames

theorem under_marker (tenant : String) : under dir tenant (markerKey dir tenant) = true := by
  refine List.isPrefixOf_iff_prefix.mpr ⟨"_registry/tenant.json".toList, ?_⟩
  simp [tenantPrefix, markerKey, String.toList_append]

section Resumption

variable {dir : S3TenantDirectory} {repository : String → String} {t : String} {s : State}

def Remains (dir : S3TenantDirectory) (repository : String → String) (t : String) (s : State) : Prop :=
  repository t ∈ s.repositories ∨ ∃ k ∈ s.keys, under dir t k = true

/-- As long as something is left, the next attempt finds the tenant. -/
def Resumable (dir : S3TenantDirectory) (repository : String → String) (t : String) (s : State) : Prop :=
  Remains dir repository t s → markerKey dir t ∈ s.keys ∧ s.cache t ≠ some false

def Whole (dir : S3TenantDirectory) (s : State) : Event → Prop
  | .objectsDeleted i failing outcome => ∀ tenant batch, s.attempts[i]? = some (tenant, .batch batch) →
      outcome ≠ .refused → markerKey dir tenant ∈ batch → markerKey dir tenant ∉ failing →
      ∀ k ∈ s.keys, under dir tenant k = true → k ∈ batch ∧ k ∉ failing
  | _ => True

structure Sound (dir : S3TenantDirectory) (s : State) : Prop where
  within : ∀ a ∈ s.attempts, ∀ batch, a.2 = .batch batch → ∀ k ∈ batch, under dir a.1 k = true
  valid : ∀ a ∈ s.attempts, validTenant a.1 = true

theorem Sound.stop (h : Sound dir s) (i : Nat) : Sound dir (stop s i) :=
  ⟨fun a ha => h.within a (List.eraseIdx_subset ha), fun a ha => h.valid a (List.eraseIdx_subset ha)⟩

theorem Sound.mono (h : Sound dir s) {s' : State} (hs : s'.attempts = s.attempts) : Sound dir s' :=
  ⟨fun a ha => h.within a (hs ▸ ha), fun a ha => h.valid a (hs ▸ ha)⟩

theorem Sound.proceed (h : Sound dir s) {i : Nat} {tenant : String} {stage : Stage} (hv : validTenant tenant = true)
    (hw : ∀ batch, stage = .batch batch → ∀ k ∈ batch, under dir tenant k = true) :
    Sound dir (proceed s i tenant stage) := by
  refine ⟨fun a ha => ?_, fun a ha => ?_⟩
  · rcases List.mem_or_eq_of_mem_set ha with ha | rfl
    · exact h.within a ha
    · exact hw
  · rcases List.mem_or_eq_of_mem_set ha with ha | rfl
    · exact h.valid a ha
    · exact hv

theorem Sound.step (h : Sound dir s) (e : Event) : Sound dir (step dir repository s e) := by
  cases e with
  | began tenant =>
      simp only [Erasure.step, Erasure.begin]
      split
      · next hv =>
          split
          · refine ⟨fun a ha => ?_, fun a ha => ?_⟩
            · rcases List.mem_cons.mp ha with rfl | ha
              · intro batch hb
                cases hb
              · exact h.within a ha
            · rcases List.mem_cons.mp ha with rfl | ha
              · exact hv
              · exact h.valid a ha
          · exact h.mono rfl
      · exact h
  | repositoryDeleted i outcome =>
      simp only [Erasure.step]
      split
      · next tenant ha =>
          have hv := h.valid _ (List.mem_of_getElem? ha)
          cases outcome with
          | done =>
              have hs : Sound dir { s with repositories := s.repositories.filter (· != repository tenant) } := h.mono rfl
              refine hs.proceed hv ?_
              rintro batch ⟨⟩
          | lost => exact (h.stop i).mono rfl
          | refused => exact h.stop i
      · exact h
  | listed i =>
      simp only [Erasure.step]
      split
      · next tenant ha =>
          rw [Erasure.listBatch]
          split
          · exact (h.stop i).mono rfl
          · refine h.proceed (h.valid _ (List.mem_of_getElem? ha)) ?_
            rintro batch ⟨⟩ k hk
            have hk := (List.perm_insertionSort _ _).mem_iff.mp (List.mem_of_mem_take hk)
            exact (List.mem_filter.mp hk).2
      · exact h
  | objectsDeleted i failing outcome =>
      simp only [Erasure.step]
      split
      · next tenant batch ha =>
          cases outcome with
          | refused => exact h.stop i
          | lost => exact (h.stop i).mono rfl
          | done =>
              simp only [deleteObjects]
              split
              · exact (h.stop i).mono rfl
              · have hs : Sound dir (leaving s batch failing) := h.mono rfl
                refine hs.proceed (h.valid _ (List.mem_of_getElem? ha)) ?_
                rintro b ⟨⟩
      · exact h
  | aborted i => exact h.stop i
  | forgotten tenant => exact h.mono rfl

structure Orderly (dir : S3TenantDirectory) (repository : String → String) (t : String) (s : State) : Prop where
  sound : Sound dir s
  resumable : Resumable dir repository t s
  gone : ∀ a ∈ s.attempts, a.1 = t → a.2 ≠ .opened → repository t ∉ s.repositories

theorem Resumable.remember (h : Resumable dir repository t s) {tenant : String} {known : Option Bool}
    (hk : Remains dir repository t s → tenant = t → known ≠ some false) :
    Resumable dir repository t (remember s tenant known) := by
  intro hr
  obtain ⟨hm, hc⟩ := h hr
  refine ⟨hm, ?_⟩
  by_cases ht : t = tenant
  · subst ht
    simpa [Erasure.remember] using hk hr rfl
  · simpa [Erasure.remember, Function.update_of_ne ht] using hc

theorem Resumable.found (h : Resumable dir repository t s) (hr : Remains dir repository t s) : found dir s t = true := by
  obtain ⟨hm, hc⟩ := h hr
  cases hcache : s.cache t with
  | none => simp [Erasure.found, hcache, hm]
  | some known =>
      rw [hcache] at hc
      simpa [Erasure.found, hcache] using hc

/-- Fewer repositories leave less to erase. -/
theorem Resumable.repositories (h : Resumable dir repository t s) (p : String → Bool) :
    Resumable dir repository t { s with repositories := s.repositories.filter p } :=
  fun hr => h (hr.imp_left fun hm => (List.mem_filter.mp hm).1)

theorem gone_set (h : Orderly dir repository t s) {i : Nat} {tenant : String} {stage : Stage}
    (hg : tenant = t → repository t ∉ s.repositories) :
    ∀ a ∈ s.attempts.set i (tenant, stage), a.1 = t → a.2 ≠ .opened → repository t ∉ s.repositories := by
  intro a ha
  rcases List.mem_or_eq_of_mem_set ha with ha | rfl
  · exact h.gone a ha
  · exact fun ht _ => hg ht

theorem gone_erase (h : Orderly dir repository t s) (i : Nat) :
    ∀ a ∈ s.attempts.eraseIdx i, a.1 = t → a.2 ≠ .opened → repository t ∉ s.repositories :=
  fun a ha => h.gone a (List.eraseIdx_subset ha)

theorem Orderly.begin (h : Orderly dir repository t s) (tenant : String) :
    Orderly dir repository t (step dir repository s (.began tenant)) := by
  refine ⟨h.sound.step _, ?_, ?_⟩
  · simp only [step, Erasure.begin]
    split
    · have hs : Resumable dir repository t (remember s tenant (some (found dir s tenant))) := by
        refine h.resumable.remember fun hr ht => ?_
        rw [ht, h.resumable.found hr]
        simp
      split <;> exact hs
    · exact h.resumable
  · simp only [step, Erasure.begin]
    split
    · split
      · intro a ha
        rcases List.mem_cons.mp ha with rfl | ha
        · exact fun _ hne => absurd rfl hne
        · exact h.gone a ha
      · exact h.gone
    · exact h.gone

theorem Orderly.deleteRepository (h : Orderly dir repository t s) (i : Nat) (outcome : Outcome) :
    Orderly dir repository t (step dir repository s (.repositoryDeleted i outcome)) := by
  refine ⟨h.sound.step _, ?_, ?_⟩
  · simp only [step]
    split
    · cases outcome with
      | done | lost => exact h.resumable.repositories _
      | refused => exact h.resumable
    · exact h.resumable
  · simp only [step]
    split
    · next tenant ha =>
        cases outcome with
        | done =>
            intro a hmem ht hne hr
            rcases List.mem_or_eq_of_mem_set hmem with hmem | rfl
            · exact h.gone a hmem ht hne (List.mem_filter.mp hr).1
            · have ht : tenant = t := ht
              subst ht
              have hkept := (List.mem_filter.mp hr).2
              simp at hkept
        | lost =>
            intro a hmem ht hne hr
            exact gone_erase h i a hmem ht hne (List.mem_filter.mp hr).1
        | refused => exact gone_erase h i
    · exact h.gone

theorem Orderly.list (h : Orderly dir repository t s) (i : Nat) :
    Orderly dir repository t (step dir repository s (.listed i)) := by
  refine ⟨h.sound.step _, ?_, ?_⟩
  · simp only [step]
    split
    · rw [Erasure.listBatch]
      split
      · exact Resumable.remember (s := stop s i) h.resumable fun _ _ => by simp
      · exact h.resumable
    · exact h.resumable
  · simp only [step]
    split
    · next tenant ha =>
        rw [Erasure.listBatch]
        split
        · exact gone_erase h i
        · exact gone_set h fun ht => h.gone _ (List.mem_of_getElem? ha) ht (by simp)
    · exact h.gone

/-- Deleted objects are of the attempt's tenant, and the marker goes last. -/
theorem Orderly.leaving (h : Orderly dir repository t s) (ht : validTenant t = true) {tenant : String}
    {batch failing : List String} (hv : validTenant tenant = true) (hw : ∀ k ∈ batch, under dir tenant k = true)
    (hg : tenant = t → repository t ∉ s.repositories)
    (hlast : tenant = t → markerKey dir t ∈ batch → markerKey dir t ∉ failing →
      ∀ k ∈ s.keys, under dir t k = true → k ∈ batch ∧ k ∉ failing) :
    Resumable dir repository t (leaving s batch failing) := by
  intro hr
  have hbefore : Remains dir repository t s := hr.imp_right fun ⟨k, hk, hu⟩ => ⟨k, (List.mem_filter.mp hk).1, hu⟩
  obtain ⟨hm, hc⟩ := h.resumable hbefore
  refine ⟨List.mem_filter.mpr ⟨hm, ?_⟩, hc⟩
  by_contra hdel
  obtain ⟨hin, hfail⟩ : markerKey dir t ∈ batch ∧ markerKey dir t ∉ failing := by simpa using hdel
  obtain rfl : tenant = t := under_unique dir hv ht (hw _ hin) (under_marker dir t)
  rcases hr with hr | ⟨k, hk, hu⟩
  · exact hg rfl hr
  · obtain ⟨hk, hkept⟩ := List.mem_filter.mp hk
    obtain ⟨hb, hf⟩ := hlast rfl hin hfail k hk hu
    simp [hb, hf] at hkept

theorem Orderly.deleteObjects (h : Orderly dir repository t s) (ht : validTenant t = true) {i : Nat}
    {failing : List String} {outcome : Outcome} (hwhole : Whole dir s (.objectsDeleted i failing outcome)) :
    Orderly dir repository t (step dir repository s (.objectsDeleted i failing outcome)) := by
  refine ⟨h.sound.step _, ?_, ?_⟩
  · simp only [step]
    split
    · next tenant batch ha =>
        have hmem := List.mem_of_getElem? ha
        have hleft : outcome ≠ .refused → Resumable dir repository t (Erasure.leaving s batch failing) := by
          intro ho
          refine h.leaving ht (h.sound.valid _ hmem) (h.sound.within _ hmem batch rfl)
            (fun htt => h.gone _ hmem htt (by simp)) ?_
          rintro rfl
          exact hwhole tenant batch ha ho
        cases outcome with
        | refused => exact h.resumable
        | lost => exact hleft (by decide)
        | done =>
            simp only [Erasure.deleteObjects]
            split <;> exact hleft (by decide)
    · exact h.resumable
  · simp only [step]
    split
    · next tenant batch ha =>
        cases outcome with
        | refused => exact gone_erase h i
        | lost => exact gone_erase h i
        | done =>
            simp only [Erasure.deleteObjects]
            split
            · exact gone_erase h i
            · exact gone_set h fun htt => h.gone _ (List.mem_of_getElem? ha) htt (by simp)
    · exact h.gone

theorem Orderly.step (h : Orderly dir repository t s) (ht : validTenant t = true) {e : Event} (hwhole : Whole dir s e) :
    Orderly dir repository t (step dir repository s e) := by
  cases e with
  | began tenant => exact h.begin tenant
  | repositoryDeleted i outcome => exact h.deleteRepository i outcome
  | listed i => exact h.list i
  | objectsDeleted i failing outcome => exact h.deleteObjects ht hwhole
  | aborted i => exact ⟨h.sound.step (.aborted i), h.resumable, gone_erase h i⟩
  | forgotten tenant =>
      exact ⟨h.sound.step (.forgotten tenant), h.resumable.remember fun _ _ => by simp, h.gone⟩

theorem removed_batch {e : Event} {key : String} (hk : key ∈ s.keys) (hgone : key ∉ (step dir repository s e).keys) :
    ∃ i failing outcome tenant batch, e = .objectsDeleted i failing outcome ∧
      s.attempts[i]? = some (tenant, .batch batch) ∧ key ∈ batch := by
  cases e with
  | began tenant =>
      refine absurd hk (fun hk => hgone ?_)
      simp only [step, Erasure.begin]
      split
      · split <;> exact hk
      · exact hk
  | repositoryDeleted i outcome =>
      refine absurd hk (fun hk => hgone ?_)
      simp only [step]
      split
      · cases outcome <;> exact hk
      · exact hk
  | listed i =>
      refine absurd hk (fun hk => hgone ?_)
      simp only [step]
      split
      · rw [listBatch]
        split <;> exact hk
      · exact hk
  | aborted i => exact absurd hk hgone
  | forgotten tenant => exact absurd hk hgone
  | objectsDeleted i failing outcome =>
      simp only [step] at hgone
      split at hgone
      · next tenant batch ha =>
          refine ⟨i, failing, outcome, tenant, batch, rfl, ha, ?_⟩
          have hleft : key ∉ (leaving s batch failing).keys := by
            cases outcome with
            | refused => exact absurd hk hgone
            | lost => exact hgone
            | done =>
                simp only [Erasure.deleteObjects] at hgone
                split at hgone <;> exact hgone
          by_contra hb
          exact hleft (List.mem_filter.mpr ⟨hk, by simp [hb]⟩)
      · exact absurd hk hgone

def deletes (s : State) : Event → Option String
  | .repositoryDeleted i _ => s.attempts[i]?.map Prod.fst
  | .listed i => s.attempts[i]?.map Prod.fst
  | .objectsDeleted i _ _ => s.attempts[i]?.map Prod.fst
  | _ => none

theorem Sound.removes (h : Sound dir s) {e : Event} {key : String} (hk : key ∈ s.keys)
    (hgone : key ∉ (Erasure.step dir repository s e).keys) {tenant : String} (hv : validTenant tenant = true)
    (hu : under dir tenant key = true) : deletes s e = some tenant := by
  obtain ⟨i, failing, outcome, owner, batch, rfl, ha, hb⟩ := removed_batch hk hgone
  have hmem := List.mem_of_getElem? ha
  have hsame := under_unique dir (h.valid _ hmem) hv (h.within _ hmem batch rfl key hb) hu
  simp [deletes, ha, ← hsame]

/-- The deletion of a tenant can be taken up again as long as no request
deletes the marker while it leaves other objects, and never reaches another
tenant. -/
theorem erasure_resumable (dir : S3TenantDirectory) (repository : String → String) {t : String}
    (ht : validTenant t = true) {s : State} (hidle : s.attempts = []) (hs : Resumable dir repository t s)
    (events : List Event) :
    (Along (step dir repository) (Whole dir) s events →
      Remains dir repository t (run (step dir repository) s events) →
        markerKey dir t ∈ (run (step dir repository) s events).keys ∧
        found dir (run (step dir repository) s events) t = true) ∧
    ∀ (e : Event) (tenant key : String), validTenant tenant = true → under dir tenant key = true →
      key ∈ (run (step dir repository) s events).keys →
      key ∉ (step dir repository (run (step dir repository) s events) e).keys →
      deletes (run (step dir repository) s events) e = some tenant := by
  have hsound : Sound dir s := ⟨by simp [hidle], by simp [hidle]⟩
  refine ⟨fun halong hr => ?_, fun e tenant key hv hu hk hgone => ?_⟩
  · have horderly : Orderly dir repository t s := ⟨hsound, hs, by simp [hidle]⟩
    have hstep : ∀ s e, Orderly dir repository t s → Whole dir s e → Orderly dir repository t (step dir repository s e) :=
      fun _ _ h hok => h.step ht hok
    have hend := run_invariant hstep horderly halong
    exact ⟨(hend.resumable hr).1, hend.resumable.found hr⟩
  · have hstep : ∀ s e, Sound dir s → Sound dir (step dir repository s e) := fun _ e h => h.step e
    have hend := run_invariant_always hstep hsound events
    exact hend.removes hk hgone hv hu

def plainDirectory : S3TenantDirectory := ⟨"galadril", ""⟩

def acme : State := ⟨["acme/_registry/tenant.json", "acme/raw/a"], ["acme"], fun _ => none, []⟩

def acmeErasure (failing : List String) : List Event :=
  [.began "acme", .repositoryDeleted 0 .done, .listed 0, .objectsDeleted 0 failing .done]

theorem erasure_resumable_acme : markerKey plainDirectory "acme" ∈
    (run (step plainDirectory id) acme (acmeErasure ["acme/_registry/tenant.json"])).keys := by
  refine ((erasure_resumable plainDirectory id (by decide) rfl (fun _ => ⟨by decide, by simp [acme]⟩) _).1 ?_ ?_).1
  · refine ⟨trivial, trivial, trivial, ?_, trivial⟩
    intro tenant batch ha _ _ hfail
    cases ha
    exact absurd (by decide) hfail
  · exact .inr ⟨"acme/_registry/tenant.json", by decide, by decide⟩

/-- The document's deletion fails in the request that deletes the marker, and
the next attempt finds no tenant. -/
theorem marker_lost :
    let s := run (step plainDirectory id) acme (acmeErasure ["acme/raw/a"] ++ [.forgotten "acme"])
    Remains plainDirectory id "acme" s ∧ markerKey plainDirectory "acme" ∉ s.keys ∧
      found plainDirectory s "acme" = false := by
  intro s
  refine ⟨.inr ⟨"acme/raw/a", ?_, ?_⟩, ?_, ?_⟩ <;> decide

end Resumption

end Erasure

end Galadril.Registry
