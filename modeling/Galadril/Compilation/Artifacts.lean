import Galadril.Compilation.Queue
import Galadril.Json.Text
import Galadril.Lib.Sha256
import Galadril.Lib.Transitions

namespace Galadril.Compilation

open Lib Lib.Checked Lib.Sha256 Lib.Transitions Json

inductive Kind
  | json
  | pdf
  deriving DecidableEq

/-- Job ids are digests of a fixed length, so the path of an artifact determines
its tenant, its job and its extension. -/
structure ArtifactKey where
  tenant : String
  id : String
  kind : Kind
  deriving DecidableEq

abbrev Objects := ArtifactKey → Option (List UInt8)

def putNew (objects : Objects) (key : ArtifactKey) (data : List UInt8) : Except String Objects :=
  match objects key with
  | none => .ok (Function.update objects key (some data))
  | some old => do
      ensure (decide (old.length ≤ data.length)) "Artifact exceeds limit"
      ensure (sha256 old == sha256 data) "Immutable artifact conflict"
      return objects

theorem putNew_eq_ok {objects objects' : Objects} {key : ArtifactKey} {data : List UInt8}
    (h : putNew objects key data = .ok objects') :
    (∀ k b, objects k = some b → objects' k = some b) ∧ ∃ b, objects' key = some b ∧ sha256 b = sha256 data := by
  rw [putNew] at h
  cases hold : objects key with
  | none =>
      simp only [hold, Except.ok.injEq] at h
      subst h
      refine ⟨fun k b hb => ?_, data, Function.update_self .., rfl⟩
      have hk : k ≠ key := by
        rintro rfl
        simp [hold] at hb
      rw [Function.update_of_ne hk, hb]
  | some old =>
      simp only [hold, bind_eq_ok, ensure_eq_ok, pure_eq_ok, beq_iff_eq] at h
      obtain ⟨_, -, _, hd, rfl⟩ := h
      exact ⟨fun k b hb => hb, old, hold, hd⟩

/-- The parts of an accepted compile request that reach the queue, with the
serialized submission. -/
structure Request where
  tenant : String
  actor : String
  generation : String
  idempotencyKey : String
  capability : String
  templateId : String
  templateVersion : String
  submission : List UInt8

def jobId (r : Request) : String :=
  sha256 (Value.array [.string r.tenant, .string r.actor, .string r.generation, .string r.idempotencyKey]).toVec

def newJob (r : Request) : NewJob where
  id := jobId r
  tenant := r.tenant
  actor := r.actor
  generation := r.generation
  fingerprint := sha256 r.submission
  capability := r.capability
  templateId := r.templateId
  templateVersion := r.templateVersion

/-- How far a worker got: the job is leased, its submission was read and
verified, its PDF is stored. -/
inductive Stage
  | leased
  | verified
  | published
  deriving DecidableEq

structure Execution where
  job : Job
  stage : Stage

/-- The requests of a cleanup pass. A deletion first removes the object and then
the versions that are left of it. -/
inductive Removal
  | artifact (job : Job) (kind : Kind)
  | row (job : Job)

def Removal.job : Removal → Job
  | .artifact job _ => job
  | .row job => job

def removals (job : Job) : List Removal :=
  [.artifact job .json, .artifact job .json, .artifact job .pdf, .artifact job .pdf, .row job]

/-- The queue, the bucket, and what the controllers are in the middle of:
submissions that stored their object, executions, and cleanup passes. -/
structure System where
  queue : Queue
  objects : Objects
  clock : Nat
  submissions : List NewJob
  executions : List Execution
  passes : List (List Removal)

def System.initial (clock : Nat) : System := ⟨Table.empty, fun _ => none, clock, [], [], []⟩

/-- One request of one controller, the passing of time, or a crash. A controller
reads the clock some time before its request takes effect. -/
inductive Action
  | tick (elapsed : Nat)
  | submitted (request : Request)
  | enqueued (submission lag : Nat)
  | submissionLost (submission : Nat)
  | claimed (lag : Nat) (lease : String)
  | verified (execution : Nat)
  | published (execution : Nat) (pdf : List UInt8)
  | reported (execution : Nat) (succeeded : Bool)
  | executionLost (execution : Nat)
  | cancelled (tenant id : String)
  | listed (lag : Nat) (jobs : List Job)
  | cleaned (pass : Nat)
  | passLost (pass : Nat)

def pdfHeader : List UInt8 := [37, 80, 68, 70, 45]

def System.now (s : System) (lag : Nat) : Int := ((s.clock - lag : Nat) : Int)

def remove (s : System) : Removal → System
  | .artifact job kind => { s with objects := Function.update s.objects ⟨job.tenant, job.id, kind⟩ none }
  | .row job => { s with queue := step s.queue (.forget job) }

def advance (s : System) : Action → System
  | .tick elapsed => { s with clock := s.clock + elapsed }
  | .submitted r =>
      match putNew s.objects ⟨r.tenant, jobId r, .json⟩ r.submission with
      | .error _ => s
      | .ok objects => { s with objects := objects, submissions := newJob r :: s.submissions }
  | .enqueued i lag =>
      match s.submissions[i]? with
      | none => s
      | some item =>
          { s with queue := step s.queue (.enqueue item (s.now lag)), submissions := s.submissions.eraseIdx i }
  | .submissionLost i => { s with submissions := s.submissions.eraseIdx i }
  | .claimed lag lease =>
      { s with
        queue := step s.queue (.claim (s.now lag) lease)
        executions := ((claim s.queue (s.now lag) lease).1.map fun job => ⟨job, .leased⟩).toList ++ s.executions }
  | .verified i =>
      match s.executions[i]? with
      | none => s
      | some x =>
          if ((s.objects ⟨x.job.tenant, x.job.id, .json⟩).map sha256 == some x.job.fingerprint) = true then
            { s with executions := s.executions.set i ⟨x.job, .verified⟩ }
          else s
  | .published i pdf =>
      match s.executions[i]? with
      | none => s
      | some x =>
          if x.stage = .verified ∧ pdfHeader.isPrefixOf pdf = true then
            match putNew s.objects ⟨x.job.tenant, x.job.id, .pdf⟩ pdf with
            | .error _ => s
            | .ok objects => { s with objects := objects, executions := s.executions.set i ⟨x.job, .published⟩ }
          else s
  | .reported i succeeded =>
      match s.executions[i]? with
      | none => s
      | some x =>
          { s with
            queue :=
              if succeeded && x.stage == .published then step s.queue (.finish x.job .completed "")
              else step s.queue (.finish x.job .failed "compilation_failed")
            executions := s.executions.eraseIdx i }
  | .executionLost i => { s with executions := s.executions.eraseIdx i }
  | .cancelled tenant id => { s with queue := step s.queue (.cancel tenant id) }
  | .listed lag jobs =>
      if jobs.length ≤ 32 ∧ ∀ job ∈ jobs, job ∈ s.queue.rows ∧ expiredRow (s.now lag) job = true then
        { s with passes := jobs.flatMap removals :: s.passes }
      else s
  | .cleaned p =>
      match s.passes[p]? with
      | some (r :: rest) => { remove s r with passes := s.passes.set p rest }
      | _ => s
  | .passLost p => { s with passes := s.passes.eraseIdx p }

def Stored (s : System) (key : ArtifactKey) (digest : String) : Prop :=
  ∃ b, s.objects key = some b ∧ sha256 b = digest

def Young (s : System) (r : Job) : Prop := (s.clock : Int) < r.createdAt + retention

structure Kept (s : System) : Prop where
  submitted : ∀ item ∈ s.submissions, Stored s ⟨item.tenant, item.id, .json⟩ item.fingerprint
  active : ∀ id r, s.queue.find id = some r → r.status.active = true → Stored s ⟨r.tenant, r.id, .json⟩ r.fingerprint
  published : ∀ x ∈ s.executions, x.stage = .published → ∀ r, s.queue.find x.job.id = some r → held x.job r = true →
    (s.objects ⟨r.tenant, r.id, .pdf⟩).isSome = true
  completed : ∀ id r, s.queue.find id = some r → r.status = .completed → Young s r →
    (s.objects ⟨r.tenant, r.id, .pdf⟩).isSome = true
  listed : ∀ pass ∈ s.passes, ∀ q ∈ pass, q.job.status.terminal = true ∧ q.job.createdAt + retention ≤ s.clock

def Owed (s : System) : Event → Prop
  | .enqueue item _ => Stored s ⟨item.tenant, item.id, .json⟩ item.fingerprint
  | .claim _ lease => ∀ x ∈ s.executions, x.job.lease ≠ lease
  | .finish job status _ => status = .completed → ∀ r, s.queue.find job.id = some r → held job r = true →
      (s.objects ⟨r.tenant, r.id, .pdf⟩).isSome = true
  | _ => True

theorem not_held {job r : Job} (h : r.status ≠ .running) : held job r = false := by
  simp [held, h]

theorem id_of_held {job r : Job} (h : held job r = true) : r.id = job.id := by
  simp only [held, Bool.and_eq_true, beq_iff_eq] at h
  exact h.1.1.1

theorem active_of_eligible {now : Int} {r : Job} (h : eligible now r = true) : r.status.active = true := by
  cases hs : r.status <;> simp_all [eligible, Status.active]

variable {s : System}

theorem Kept.active_step (h : Kept s) {e : Event} (ho : Owed s e) {id : String} {r : Job}
    (hr : (step s.queue e).find id = some r) (ha : r.status.active = true) :
    Stored s ⟨r.tenant, r.id, .json⟩ r.fingerprint := by
  have hchange := @step_change s.queue e id
  rw [hr] at hchange
  generalize hold : s.queue.find id = old at hchange
  cases hchange with
  | kept => exact h.active id r hold ha
  | enqueued item now => exact ho
  | claimed now lease c he => exact h.active id c hold (active_of_eligible he)
  | exhausted => simp [exhausted, Status.active] at ha
  | finished job status failure c _ ht => simp_all [ended, Status.terminal]
  | cancelled => simp [withdrawn, Status.active] at ha

theorem Kept.published_step (h : Kept s) {e : Event} (ho : Owed s e) {x : Execution} (hx : x ∈ s.executions)
    (hs : x.stage = .published) {r : Job} (hr : (step s.queue e).find x.job.id = some r) (hh : held x.job r = true) :
    (s.objects ⟨r.tenant, r.id, .pdf⟩).isSome = true := by
  have hchange := @step_change s.queue e x.job.id
  rw [hr] at hchange
  generalize hold : s.queue.find x.job.id = old at hchange
  cases hchange with
  | kept => exact h.published x hx hs r hold hh
  | enqueued => simp [not_held, queuedRow] at hh
  | claimed now lease c =>
      have hlease : lease = x.job.lease := by simp_all [held, leased]
      exact absurd hlease.symm (ho x hx)
  | exhausted => simp [not_held, exhausted] at hh
  | finished job status failure c _ ht =>
      have hne : status ≠ .running := by
        rintro rfl
        simp [Status.terminal, Status.active] at ht
      simp [not_held, ended, hne] at hh
  | cancelled => simp [not_held, withdrawn] at hh

theorem Kept.completed_step (h : Kept s) {e : Event} (ho : Owed s e) {id : String} {r : Job}
    (hr : (step s.queue e).find id = some r) (hc : r.status = .completed) (hy : Young s r) :
    (s.objects ⟨r.tenant, r.id, .pdf⟩).isSome = true := by
  have hchange := @step_change s.queue e id
  rw [hr] at hchange
  generalize hold : s.queue.find id = old at hchange
  cases hchange with
  | kept => exact h.completed id r hold hc hy
  | enqueued => simp [queuedRow] at hc
  | claimed => simp [leased] at hc
  | exhausted => simp [exhausted] at hc
  | finished job status failure c hh =>
      have hid : id = job.id := (Table.key_of_find hold).symm.trans (id_of_held hh)
      exact ho hc c (hid ▸ hold) hh
  | cancelled => simp [withdrawn] at hc

theorem Kept.queue_step (h : Kept s) {e : Event} (ho : Owed s e) : Kept { s with queue := step s.queue e } where
  submitted := h.submitted
  active := fun _ _ hr ha => h.active_step ho hr ha
  published := fun _ hx hs _ hr hh => h.published_step ho hx hs hr hh
  completed := fun _ _ hr hc hy => h.completed_step ho hr hc hy
  listed := h.listed

theorem Kept.grow (h : Kept s) {objects : Objects} (hg : ∀ k b, s.objects k = some b → objects k = some b) :
    Kept { s with objects := objects } := by
  have hstored : ∀ key digest, Stored s key digest → Stored { s with objects := objects } key digest := by
    rintro key digest ⟨b, hb, hd⟩
    exact ⟨b, hg key b hb, hd⟩
  have hsome : ∀ key, (s.objects key).isSome = true → (objects key).isSome = true := by
    intro key hk
    obtain ⟨b, hb⟩ := Option.isSome_iff_exists.mp hk
    simp [hg key b hb]
  exact ⟨fun item hi => hstored _ _ (h.submitted item hi), fun id r hr ha => hstored _ _ (h.active id r hr ha),
    fun x hx hs r hr hh => hsome _ (h.published x hx hs r hr hh),
    fun id r hr hc hy => hsome _ (h.completed id r hr hc hy), h.listed⟩

/-- A pass removes nothing live as long as its row is the one it listed and no
submission of the job is under way. -/
theorem Kept.remove_artifact (h : Kept s) {job : Job} (kind : Kind) (ht : job.status.terminal = true)
    (he : job.createdAt + retention ≤ s.clock) (hrow : ∀ r, s.queue.find job.id = some r → r = job)
    (hsub : ∀ item ∈ s.submissions, item.id ≠ job.id) : Kept (remove s (.artifact job kind)) := by
  have hother : ∀ key : ArtifactKey, key.id ≠ job.id →
      (remove s (.artifact job kind)).objects key = s.objects key := by
    intro key hk
    refine Function.update_of_ne ?_ _ _
    rintro rfl
    exact hk rfl
  have hid : ∀ id r, s.queue.find id = some r → r.id = job.id → r = job := by
    intro id r hr hid
    rw [← Table.key_of_find hr, hid] at hr
    exact hrow r hr
  refine ⟨fun item hi => ?_, fun id r hr ha => ?_, fun x hx hs r hr hh => ?_, fun id r hr hc hy => ?_, h.listed⟩
  · obtain ⟨b, hb, hd⟩ := h.submitted item hi
    exact ⟨b, (hother _ (hsub item hi)).trans hb, hd⟩
  · obtain ⟨b, hb, hd⟩ := h.active id r hr ha
    refine ⟨b, (hother _ fun hk => ?_).trans hb, hd⟩
    obtain rfl := hid id r hr hk
    simp [Status.terminal, ha] at ht
  · rw [hother _ fun hk => ?_]
    · exact h.published x hx hs r hr hh
    · obtain rfl := hid _ r hr hk
      rw [not_held] at hh
      · cases hh
      · intro hrunning
        simp [hrunning, Status.terminal, Status.active] at ht
  · rw [hother _ fun hk => ?_]
    · exact h.completed id r hr hc hy
    · obtain rfl := hid id r hr hk
      exact absurd hy (not_lt.mpr he)

end Galadril.Compilation
