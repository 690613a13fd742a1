import Galadril.Lib.Dictionary
import Galadril.Lib.Transitions

namespace Galadril.Vision

open Lib Lib.Transitions

section Runtime

inductive ResultFuture (ν : Type)
  | pending
  | result (value : ν)
  | failed
  | cancelled
deriving DecidableEq

namespace ResultFuture

variable {ν : Type}

def done : ResultFuture ν → Bool
  | pending => false
  | _ => true

def settle (f value : ResultFuture ν) : ResultFuture ν := if f.done then f else value

theorem settle_eq_result {f value : ResultFuture ν} {v : ν} (hvalue : value ≠ result v)
    (h : f.settle value = result v) : f = result v := by
  cases f with
  | pending => exact absurd h hvalue
  | result _ | failed | cancelled => exact h

end ResultFuture

/-- Where a resolve call stands. A call that expired or was cancelled goes on
when its task runs again. -/
inductive CallPhase (ν : Type)
  | idle
  | waiting
  | expiring
  | cancelling
  | returned (value : ν)
  | raised
deriving DecidableEq

inductive ResultPump
  | done
  | created
  | waiting (engine : Nat)
deriving DecidableEq

/-- How far the native calls of a submission come. -/
inductive Submission
  | refused
  | rejected
  | unflushed (ticket : Nat)
  | flushed (ticket : Nat)
deriving DecidableEq

variable (κ ν : Type)

/-- The runtime and its calls. The instances of the engine are numbered, and
beside the fields of the class stands what each call holds and what was
delivered. -/
structure LicorneActorRuntime where
  resolver : Option Nat
  created : Nat
  providers : List String
  pending : List (Nat × κ)
  pump : ResultPump
  futures : κ → ResultFuture (ν × Option Int)
  phases : κ → CallPhase (ν × Option Int)
  submitted : κ → Option (Nat × Nat)
  delivered : List (Nat × Nat × ν × Option Int)
  handled : List (Nat × Nat)

/-- What happens at the points where the code waits. -/
inductive RuntimeEvent
  | resolve (call : κ) (tenantId : String) (submission : Submission)
  | pumpStarts
  | batch (tickets : List Nat) (resolutions : List ν) (finalVersion : Option Int)
  | batchError (tickets : List Nat)
  | pumpRaises
  | pumpEnds
  | expire (call : κ)
  | cancel (call : κ)
  | resume (call : κ)
  | close

variable {κ ν}

namespace LicorneActorRuntime

def initial : LicorneActorRuntime κ ν := ⟨none, 0, [], [], .done, fun _ => .pending, fun _ => .idle, fun _ => none, [], []⟩

def ensureTenant (tenantId : String) (s : LicorneActorRuntime κ ν) : LicorneActorRuntime κ ν :=
  if tenantId ∈ s.providers then s
  else
    match s.resolver with
    | none => { s with resolver := some s.created, created := s.created + 1, providers := s.providers ++ [tenantId] }
    | some _ => { s with providers := s.providers ++ [tenantId] }

variable [DecidableEq κ]

def setPhase (call : κ) (phase : CallPhase (ν × Option Int)) (s : LicorneActorRuntime κ ν) : LicorneActorRuntime κ ν :=
  { s with phases := Function.update s.phases call phase }

def submit (call : κ) (engine ticket : Nat) (s : LicorneActorRuntime κ ν) : LicorneActorRuntime κ ν :=
  { s with
    pending := Dictionary.assign ticket call s.pending
    futures := Function.update s.futures call .pending
    submitted := Function.update s.submitted call (some (engine, ticket)) }

/-- A pump is started unless the last one still runs. -/
def ensurePump (s : LicorneActorRuntime κ ν) : LicorneActorRuntime κ ν :=
  match s.pump with
  | .done => { s with pump := .created }
  | .created | .waiting _ => s

def resolve (call : κ) (tenantId : String) (submission : Submission) (s : LicorneActorRuntime κ ν) : LicorneActorRuntime κ ν :=
  if tenantId ∉ s.providers ∧ submission = .refused then s.setPhase call .raised
  else
    let s := s.ensureTenant tenantId
    match s.resolver with
    | none => s.setPhase call .raised
    | some engine =>
        match submission with
        | .refused | .rejected => s.setPhase call .raised
        | .unflushed ticket => (s.submit call engine ticket).setPhase call .raised
        | .flushed ticket => ((s.submit call engine ticket).setPhase call .waiting).ensurePump

/-- A ticket leaves the table, and its future is settled unless it is done. -/
def settleTicket (ticket : Nat) (value : ResultFuture (ν × Option Int)) (s : LicorneActorRuntime κ ν) : LicorneActorRuntime κ ν :=
  match Dictionary.get ticket s.pending with
  | none => s
  | some call =>
      { s with
        pending := Dictionary.drop ticket s.pending
        futures := Function.update s.futures call ((s.futures call).settle value) }

def settleAll (values : List (Nat × ResultFuture (ν × Option Int))) (s : LicorneActorRuntime κ ν) : LicorneActorRuntime κ ν :=
  values.foldl (fun s entry => s.settleTicket entry.1 entry.2) s

/-- Every future of the table fails unless it is done, and the table is empty. -/
def failAll (s : LicorneActorRuntime κ ν) : LicorneActorRuntime κ ν :=
  { s with
    pending := []
    futures := fun call => if call ∈ s.pending.map Prod.snd then (s.futures call).settle .failed else s.futures call }

def pumpAgain (engine : Nat) (s : LicorneActorRuntime κ ν) : LicorneActorRuntime κ ν :=
  { s with pump := if s.resolver = some engine then .waiting engine else .done }

def pumpFailed (engine : Nat) (s : LicorneActorRuntime κ ν) : LicorneActorRuntime κ ν :=
  if s.resolver = some engine then { s.failAll with pump := .done } else { s with pump := .done }

def resolved (tickets : List Nat) (resolutions : List ν) (finalVersion : Option Int) : List (Nat × ν × Option Int) :=
  tickets.zip (resolutions.map fun resolution => (resolution, finalVersion))

/-- A batch of resolutions. When their number is not that of the tickets the pump
fails after the last pair. -/
def takeBatch (engine : Nat) (tickets : List Nat) (resolutions : List ν) (finalVersion : Option Int) (s : LicorneActorRuntime κ ν) :
    LicorneActorRuntime κ ν :=
  let s := { s with
    delivered := s.delivered ++ (resolved tickets resolutions finalVersion).map fun entry => (engine, entry)
    handled := s.handled ++ tickets.map fun ticket => (engine, ticket) }
  let s := s.settleAll ((resolved tickets resolutions finalVersion).map fun entry => (entry.1, .result entry.2))
  if tickets.length = resolutions.length then s.pumpAgain engine else s.pumpFailed engine

def takeError (engine : Nat) (tickets : List Nat) (s : LicorneActorRuntime κ ν) : LicorneActorRuntime κ ν :=
  let s := { s with handled := s.handled ++ tickets.map fun ticket => (engine, ticket) }
  (s.settleAll (tickets.map fun ticket => (ticket, .failed))).pumpAgain engine

def interrupt (call : κ) (phase : CallPhase (ν × Option Int)) (s : LicorneActorRuntime κ ν) : LicorneActorRuntime κ ν :=
  { s with
    phases := Function.update s.phases call phase
    futures := Function.update s.futures call ((s.futures call).settle .cancelled) }

def popTicket (call : κ) (s : LicorneActorRuntime κ ν) : LicorneActorRuntime κ ν :=
  match s.submitted call with
  | some (_, ticket) => { s with pending := Dictionary.drop ticket s.pending }
  | none => s

def resume (call : κ) (s : LicorneActorRuntime κ ν) : LicorneActorRuntime κ ν :=
  match s.phases call with
  | .waiting =>
      match s.futures call with
      | .pending => s
      | .result value => s.setPhase call (.returned value)
      | .failed | .cancelled => s.setPhase call .raised
  | .expiring => (s.popTicket call).setPhase call .raised
  | .cancelling => s.setPhase call .raised
  | .idle | .returned _ | .raised => s

def close (s : LicorneActorRuntime κ ν) : LicorneActorRuntime κ ν := { s.failAll with resolver := none }

def step (s : LicorneActorRuntime κ ν) : RuntimeEvent κ ν → LicorneActorRuntime κ ν
  | .resolve call tenantId submission =>
      match s.phases call with
      | .idle => s.resolve call tenantId submission
      | .waiting | .expiring | .cancelling | .returned _ | .raised => s
  | .pumpStarts =>
      match s.pump with
      | .created =>
          match s.resolver with
          | none => { s with pump := .done }
          | some engine => { s with pump := .waiting engine }
      | .done | .waiting _ => s
  | .batch tickets resolutions finalVersion =>
      match s.pump with
      | .waiting engine => s.takeBatch engine tickets resolutions finalVersion
      | .done | .created => s
  | .batchError tickets =>
      match s.pump with
      | .waiting engine => s.takeError engine tickets
      | .done | .created => s
  | .pumpRaises =>
      match s.pump with
      | .waiting engine => s.pumpFailed engine
      | .done | .created => s
  | .pumpEnds => { s with pump := .done }
  | .expire call =>
      match s.phases call with
      | .waiting => s.interrupt call .expiring
      | .idle | .expiring | .cancelling | .returned _ | .raised => s
  | .cancel call =>
      match s.phases call with
      | .waiting | .expiring => s.interrupt call .cancelling
      | .idle | .cancelling | .returned _ | .raised => s
  | .resume call => s.resume call
  | .close => s.close

def EngineLawful (s : LicorneActorRuntime κ ν) : RuntimeEvent κ ν → Prop
  | .resolve _ tenantId (.unflushed ticket) | .resolve _ tenantId (.flushed ticket) =>
      ∀ engine, (s.ensureTenant tenantId).resolver = some engine → ∀ call, s.submitted call ≠ some (engine, ticket)
  | .batch tickets _ _ | .batchError tickets =>
      ∀ engine, s.pump = .waiting engine → ∀ ticket ∈ tickets, ∃ call, s.submitted call = some (engine, ticket)
  | _ => True

/-- Resolutions come from the instance in use, or meet no future that still
waits. -/
def Timely (s : LicorneActorRuntime κ ν) : RuntimeEvent κ ν → Prop
  | .batch tickets _ _ => ∀ engine, s.pump = .waiting engine → s.resolver = some engine ∨
      ∀ ticket ∈ tickets, ∀ call, Dictionary.get ticket s.pending = some call → (s.futures call).done = true
  | _ => True

def Own (s : LicorneActorRuntime κ ν) (call : κ) (value : ν × Option Int) : Prop :=
  ∃ engine ticket, s.submitted call = some (engine, ticket) ∧ (engine, ticket, value) ∈ s.delivered

structure Sound (s : LicorneActorRuntime κ ν) : Prop where
  owned : ∀ ticket call, Dictionary.get ticket s.pending = some call →
    ∃ engine, s.resolver = some engine ∧ s.submitted call = some (engine, ticket) ∧ (engine, ticket) ∉ s.handled
  issued : ∀ x ∈ s.handled, ∃ call, s.submitted call = some x
  unique : ∀ call call' x, s.submitted call = some x → s.submitted call' = some x → call = call'
  resulted : ∀ call value, s.futures call = .result value → s.Own call value
  returned : ∀ call value, s.phases call = .returned value → s.Own call value
  idle : ∀ call, s.phases call = .idle → s.submitted call = none

variable {s s' : LicorneActorRuntime κ ν}

omit [DecidableEq κ] in
theorem sound_initial : Sound (initial : LicorneActorRuntime κ ν) := by
  constructor
  · intro ticket call h
    cases h
  · intro x h
    cases h
  · intro call call' x h
    cases h
  · intro call value h
    cases h
  · intro call value h
    cases h
  · intro call _
    rfl

omit [DecidableEq κ] in
theorem Own.mono {call : κ} {value : ν × Option Int} (h : s.Own call value) (hsubmitted : s'.submitted = s.submitted)
    (hdelivered : s.delivered ⊆ s'.delivered) : s'.Own call value := by
  obtain ⟨engine, ticket, hcall, hmem⟩ := h
  exact ⟨engine, ticket, hsubmitted ▸ hcall, hdelivered hmem⟩

omit [DecidableEq κ] in
/-- A step that submits nothing, takes tickets out of the table and settles
futures with what was delivered for them. -/
theorem Sound.mono (h : Sound s) (hsubmitted : s'.submitted = s.submitted) (hdelivered : s.delivered ⊆ s'.delivered)
    (hpending : ∀ ticket call, Dictionary.get ticket s'.pending = some call → Dictionary.get ticket s.pending = some call ∧
      s'.resolver = s.resolver ∧ ∀ engine, s.resolver = some engine → (engine, ticket) ∉ s.handled → (engine, ticket) ∉ s'.handled)
    (hhandled : ∀ x ∈ s'.handled, x ∈ s.handled ∨ ∃ call, s.submitted call = some x)
    (hfutures : ∀ call value, s'.futures call = .result value → s.futures call = .result value ∨ s'.Own call value)
    (hphases : ∀ call value, s'.phases call = .returned value → s.phases call = .returned value ∨ s.futures call = .result value)
    (hidle : ∀ call, s'.phases call = .idle → s.phases call = .idle) : Sound s' := by
  constructor
  · intro ticket call hget
    obtain ⟨hold, hresolver, hfresh⟩ := hpending ticket call hget
    obtain ⟨engine, hengine, hcall, hnot⟩ := h.owned ticket call hold
    exact ⟨engine, hresolver.trans hengine, hsubmitted ▸ hcall, hfresh engine hengine hnot⟩
  · intro x hx
    rw [hsubmitted]
    exact (hhandled x hx).elim (h.issued x) id
  · rw [hsubmitted]
    exact h.unique
  · intro call value hresult
    exact (hfutures call value hresult).elim (fun hold => (h.resulted call value hold).mono hsubmitted hdelivered) id
  · intro call value hreturned
    rcases hphases call value hreturned with hold | hold
    · exact (h.returned call value hold).mono hsubmitted hdelivered
    · exact (h.resulted call value hold).mono hsubmitted hdelivered
  · intro call hcall
    rw [hsubmitted]
    exact h.idle call (hidle call hcall)

omit [DecidableEq κ] in
theorem Sound.pump (h : Sound s) (pump : ResultPump) : Sound { s with pump := pump } :=
  h.mono rfl (List.Subset.refl _) (fun _ _ hget => ⟨hget, rfl, fun _ _ hnot => hnot⟩) (fun _ hx => .inl hx) (fun _ _ hr => .inl hr)
    (fun _ _ hr => .inl hr) fun _ hi => hi

omit [DecidableEq κ] in
theorem Sound.ensurePump (h : Sound s) : Sound s.ensurePump := by
  rw [LicorneActorRuntime.ensurePump]
  split
  · exact h.pump _
  · exact h
  · exact h

theorem Sound.setPhase (h : Sound s) {call : κ} {phase : CallPhase (ν × Option Int)} (hidle : phase ≠ .idle)
    (hphase : ∀ value, phase = .returned value → s.futures call = .result value) : Sound (s.setPhase call phase) := by
  refine h.mono rfl (List.Subset.refl _) (fun _ _ hget => ⟨hget, rfl, fun _ _ hnot => hnot⟩) (fun _ hx => .inl hx)
    (fun _ _ hr => .inl hr) ?_ ?_
  · intro c value hc
    simp only [LicorneActorRuntime.setPhase, Function.update_apply] at hc
    split at hc
    · next hcall =>
      rw [hcall]
      exact .inr (hphase value hc)
    · exact .inl hc
  · intro c hc
    simp only [LicorneActorRuntime.setPhase, Function.update_apply] at hc
    split at hc
    · exact absurd hc hidle
    · exact hc

theorem Sound.failAll (h : Sound s) : Sound s.failAll := by
  refine h.mono rfl (List.Subset.refl _) (fun _ _ hget => by cases hget) (fun _ hx => .inl hx) (fun c value hc => .inl ?_)
    (fun _ _ hr => .inl hr) fun _ hi => hi
  simp only [LicorneActorRuntime.failAll] at hc
  split at hc
  · exact ResultFuture.settle_eq_result (by simp) hc
  · exact hc

theorem Sound.interrupt (h : Sound s) {call : κ} {phase : CallPhase (ν × Option Int)} (hidle : phase ≠ .idle)
    (hphase : ∀ value, phase ≠ .returned value) : Sound (s.interrupt call phase) := by
  refine h.mono rfl (List.Subset.refl _) (fun _ _ hget => ⟨hget, rfl, fun _ _ hnot => hnot⟩) (fun _ hx => .inl hx)
    (fun c value hc => .inl ?_) ?_ ?_
  · simp only [LicorneActorRuntime.interrupt, Function.update_apply] at hc
    split at hc
    · next hcall =>
      rw [hcall]
      exact ResultFuture.settle_eq_result (by simp) hc
    · exact hc
  · intro c value hc
    simp only [LicorneActorRuntime.interrupt, Function.update_apply] at hc
    split at hc
    · exact absurd hc (hphase value)
    · exact .inl hc
  · intro c hc
    simp only [LicorneActorRuntime.interrupt, Function.update_apply] at hc
    split at hc
    · exact absurd hc hidle
    · exact hc

omit [DecidableEq κ] in
theorem Sound.popTicket (h : Sound s) (call : κ) : Sound (s.popTicket call) := by
  rw [LicorneActorRuntime.popTicket]
  split
  · refine h.mono rfl (List.Subset.refl _) (fun ticket c hget => ?_) (fun _ hx => .inl hx) (fun _ _ hr => .inl hr)
      (fun _ _ hr => .inl hr) fun _ hi => hi
    rw [Dictionary.get_drop] at hget
    split at hget
    · cases hget
    · exact ⟨hget, rfl, fun _ _ hnot => hnot⟩
  · exact h

theorem Sound.resume (h : Sound s) (call : κ) : Sound (s.resume call) := by
  rw [LicorneActorRuntime.resume]
  split
  · split
    · exact h
    · next hresult => exact h.setPhase (by simp) fun value hvalue => by rw [hresult, CallPhase.returned.inj hvalue]
    · exact h.setPhase (by simp) (by simp)
    · exact h.setPhase (by simp) (by simp)
  · exact (h.popTicket call).setPhase (by simp) (by simp)
  · exact h.setPhase (by simp) (by simp)
  all_goals exact h

theorem Sound.close (h : Sound s) : Sound s.close := by
  refine h.failAll.mono rfl (List.Subset.refl _) (fun _ _ hget => by cases hget) (fun _ hx => .inl hx) (fun _ _ hr => .inl hr)
    (fun _ _ hr => .inl hr) fun _ hi => hi

theorem Sound.pumpFailed (h : Sound s) (engine : Nat) : Sound (s.pumpFailed engine) := by
  rw [LicorneActorRuntime.pumpFailed]
  split
  · exact h.failAll.pump _
  · exact h.pump _

structure Frame (s s' : LicorneActorRuntime κ ν) : Prop where
  resolver : s'.resolver = s.resolver
  phases : s'.phases = s.phases
  submitted : s'.submitted = s.submitted
  delivered : s'.delivered = s.delivered
  handled : s'.handled = s.handled

theorem frame_settleTicket (ticket : Nat) (value : ResultFuture (ν × Option Int)) (s : LicorneActorRuntime κ ν) :
    Frame s (s.settleTicket ticket value) := by
  rw [settleTicket]
  split <;> exact ⟨rfl, rfl, rfl, rfl, rfl⟩

theorem frame_settleAll (values : List (Nat × ResultFuture (ν × Option Int))) (s : LicorneActorRuntime κ ν) :
    Frame s (s.settleAll values) := by
  induction values generalizing s with
  | nil => exact ⟨rfl, rfl, rfl, rfl, rfl⟩
  | cons entry values ih =>
      have hfirst := frame_settleTicket entry.1 entry.2 s
      have hrest := ih (s.settleTicket entry.1 entry.2)
      exact ⟨hrest.resolver.trans hfirst.resolver, hrest.phases.trans hfirst.phases, hrest.submitted.trans hfirst.submitted,
        hrest.delivered.trans hfirst.delivered, hrest.handled.trans hfirst.handled⟩

theorem get_settleTicket (j ticket : Nat) (value : ResultFuture (ν × Option Int)) (s : LicorneActorRuntime κ ν) :
    Dictionary.get j (s.settleTicket ticket value).pending = if j = ticket then none else Dictionary.get j s.pending := by
  rw [settleTicket]
  split
  · next hnone =>
    split
    · next hj => rw [hj, hnone]
    · rfl
  · exact Dictionary.get_drop j ticket s.pending

theorem get_settleAll (j : Nat) (values : List (Nat × ResultFuture (ν × Option Int))) (s : LicorneActorRuntime κ ν) :
    Dictionary.get j (s.settleAll values).pending = if j ∈ values.map Prod.fst then none else Dictionary.get j s.pending := by
  induction values generalizing s with
  | nil => simp [settleAll]
  | cons entry values ih =>
      have hrest := ih (s.settleTicket entry.1 entry.2)
      rw [get_settleTicket] at hrest
      rw [show s.settleAll (entry :: values) = (s.settleTicket entry.1 entry.2).settleAll values from rfl, hrest, List.map_cons]
      by_cases hj : j = entry.1
      · simp [hj]
      · simp only [List.mem_cons, hj, false_or, if_false]

theorem futures_settleTicket {ticket : Nat} {value : ResultFuture (ν × Option Int)} (call : κ) :
    (s.settleTicket ticket value).futures call = s.futures call ∨
      (Dictionary.get ticket s.pending = some call ∧ s.futures call = .pending ∧
        (s.settleTicket ticket value).futures call = value) := by
  rw [settleTicket]
  split
  · exact .inl rfl
  · next owner howner =>
    simp only [Function.update_apply]
    split
    · next hcall =>
      rw [hcall]
      cases hfuture : s.futures owner with
      | pending => exact .inr ⟨howner, rfl, rfl⟩
      | result _ | failed | cancelled => exact .inl rfl
    · exact .inl rfl

/-- A future that settling gives a resolution waited for it. -/
theorem futures_settleAll {values : List (Nat × ResultFuture (ν × Option Int))} {call : κ} {v : ν × Option Int}
    (h : (s.settleAll values).futures call = .result v) :
    s.futures call = .result v ∨
      ∃ ticket, (ticket, .result v) ∈ values ∧ Dictionary.get ticket s.pending = some call ∧ s.futures call = .pending := by
  induction values generalizing s with
  | nil => exact .inl h
  | cons entry values ih =>
      have hstep := @futures_settleTicket κ ν _ s entry.1 entry.2 call
      rcases @ih (s.settleTicket entry.1 entry.2) h with hresult | ⟨ticket, hmem, hget, hpending⟩
      · rcases hstep with hsame | ⟨hget, hpending, hvalue⟩
        · exact .inl (hsame ▸ hresult)
        · exact .inr ⟨entry.1, List.mem_cons.mpr (.inl (by rw [← hresult, hvalue])), hget, hpending⟩
      · rw [get_settleTicket] at hget
        split at hget
        · cases hget
        · refine .inr ⟨ticket, List.mem_cons_of_mem _ hmem, hget, ?_⟩
          rcases hstep with hsame | ⟨-, hold, -⟩
          · exact hsame ▸ hpending
          · exact hold

omit [DecidableEq κ] in
/-- The pump took resolutions for tickets of its instance. -/
theorem Sound.batch (h : Sound s) {engine : Nat} {tickets : List Nat} {values : List (Nat × ν × Option Int)}
    (hresolver : s'.resolver = s.resolver) (hphases : s'.phases = s.phases) (hsubmitted : s'.submitted = s.submitted)
    (hdelivered : s'.delivered = s.delivered ++ values.map fun entry => (engine, entry))
    (hhandled : s'.handled = s.handled ++ tickets.map fun ticket => (engine, ticket))
    (hissued : ∀ ticket ∈ tickets, ∃ call, s.submitted call = some (engine, ticket))
    (htimely : s.resolver = some engine ∨
      ∀ ticket ∈ values.map Prod.fst, ∀ call, Dictionary.get ticket s.pending = some call → (s.futures call).done = true)
    (hpending : ∀ ticket call, Dictionary.get ticket s'.pending = some call →
      Dictionary.get ticket s.pending = some call ∧ (s.resolver = some engine → ticket ∉ tickets))
    (hfutures : ∀ call v, s'.futures call = .result v → s.futures call = .result v ∨
      ∃ ticket, (ticket, v) ∈ values ∧ Dictionary.get ticket s.pending = some call ∧ s.futures call = .pending) : Sound s' := by
  refine h.mono hsubmitted (by rw [hdelivered]; exact List.subset_append_left _ _) ?_ ?_ ?_ (by rw [hphases]; exact fun _ _ => .inl)
    (by rw [hphases]; exact fun _ => id)
  · intro ticket call hget
    obtain ⟨hold, houtside⟩ := hpending ticket call hget
    refine ⟨hold, hresolver, fun current hcurrent hnot hmem => ?_⟩
    rw [hhandled, List.mem_append] at hmem
    rcases hmem with hmem | hmem
    · exact hnot hmem
    · obtain ⟨other, hother, heq⟩ := List.mem_map.mp hmem
      obtain ⟨rfl, rfl⟩ := Prod.mk.inj heq
      exact houtside hcurrent hother
  · intro x hx
    rw [hhandled, List.mem_append] at hx
    refine hx.imp id fun hx => ?_
    obtain ⟨ticket, hticket, rfl⟩ := List.mem_map.mp hx
    exact hissued ticket hticket
  · intro call v hresult
    refine (hfutures call v hresult).imp id ?_
    rintro ⟨ticket, hmem, hget, hwaits⟩
    obtain ⟨current, hcurrent, hcall, -⟩ := h.owned ticket call hget
    have hengine : s.resolver = some engine := by
      refine htimely.resolve_right fun hdone => ?_
      have := hdone ticket (List.mem_map.mpr ⟨_, hmem, rfl⟩) call hget
      rw [hwaits] at this
      cases this
    rw [hcurrent, Option.some.injEq] at hengine
    subst hengine
    refine ⟨current, ticket, hsubmitted ▸ hcall, ?_⟩
    rw [hdelivered]
    exact List.mem_append_right _ (List.mem_map.mpr ⟨_, hmem, rfl⟩)

theorem failAll_futures {call : κ} {v : ν × Option Int} (h : s.failAll.futures call = .result v) : s.futures call = .result v := by
  simp only [LicorneActorRuntime.failAll] at h
  split at h
  · exact ResultFuture.settle_eq_result (by simp) h
  · exact h

theorem mem_resolved {tickets : List Nat} {resolutions : List ν} {finalVersion : Option Int} {ticket : Nat}
    (h : ticket ∈ (resolved tickets resolutions finalVersion).map Prod.fst) : ticket ∈ tickets := by
  obtain ⟨entry, hentry, rfl⟩ := List.mem_map.mp h
  exact (List.of_mem_zip hentry).1

theorem Sound.takeBatch (h : Sound s) {engine : Nat} {tickets : List Nat} {resolutions : List ν} {finalVersion : Option Int}
    (hissued : ∀ ticket ∈ tickets, ∃ call, s.submitted call = some (engine, ticket))
    (htimely : s.resolver = some engine ∨
      ∀ ticket ∈ tickets, ∀ call, Dictionary.get ticket s.pending = some call → (s.futures call).done = true) :
    Sound (s.takeBatch engine tickets resolutions finalVersion) := by
  let given : LicorneActorRuntime κ ν := { s with
    delivered := s.delivered ++ (resolved tickets resolutions finalVersion).map fun entry => (engine, entry)
    handled := s.handled ++ tickets.map fun ticket => (engine, ticket) }
  let values := (resolved tickets resolutions finalVersion).map fun entry => (entry.1, ResultFuture.result entry.2)
  have hframe := frame_settleAll values given
  have hkeys : values.map Prod.fst = (resolved tickets resolutions finalVersion).map Prod.fst := by
    simp [values, List.map_map, Function.comp_def]
  have htimely' : s.resolver = some engine ∨ ∀ ticket ∈ (resolved tickets resolutions finalVersion).map Prod.fst,
      ∀ call, Dictionary.get ticket s.pending = some call → (s.futures call).done = true :=
    htimely.imp id fun hdone ticket hmem => hdone ticket (mem_resolved hmem)
  have hfutures : ∀ call v, (given.settleAll values).futures call = .result v → s.futures call = .result v ∨
      ∃ ticket, (ticket, v) ∈ resolved tickets resolutions finalVersion ∧ Dictionary.get ticket s.pending = some call ∧
        s.futures call = .pending := by
    intro call v hresult
    refine (futures_settleAll hresult).imp id ?_
    rintro ⟨ticket, hmem, hget, hwaits⟩
    obtain ⟨entry, hentry, heq⟩ := List.mem_map.mp hmem
    obtain ⟨rfl, hvalue⟩ := Prod.mk.inj heq
    exact ⟨entry.1, ResultFuture.result.inj hvalue ▸ hentry, hget, hwaits⟩
  have hleft : ∀ ticket call, Dictionary.get ticket (given.settleAll values).pending = some call →
      Dictionary.get ticket s.pending = some call ∧ ticket ∉ values.map Prod.fst := by
    intro ticket call hget
    rw [get_settleAll] at hget
    split at hget
    · cases hget
    · next hnot => exact ⟨hget, hnot⟩
  rw [LicorneActorRuntime.takeBatch]
  change Sound (if tickets.length = resolutions.length then (given.settleAll values).pumpAgain engine
    else (given.settleAll values).pumpFailed engine)
  split
  · next hlength =>
    -- Every ticket of the batch left the table.
    have hall : values.map Prod.fst = tickets := by
      rw [hkeys]
      exact List.map_fst_zip (by simp [hlength])
    refine h.batch hframe.resolver hframe.phases hframe.submitted hframe.delivered hframe.handled hissued htimely'
      (fun ticket call hget => ?_) hfutures
    obtain ⟨hold, hnot⟩ := hleft ticket call hget
    exact ⟨hold, fun _ => hall ▸ hnot⟩
  · rw [LicorneActorRuntime.pumpFailed, hframe.resolver]
    split
    · refine h.batch hframe.resolver hframe.phases hframe.submitted hframe.delivered hframe.handled hissued htimely'
        (fun ticket call hget => by cases hget) fun call v hresult => hfutures call v (failAll_futures hresult)
    · next hother =>
      exact h.batch rfl hframe.phases hframe.submitted hframe.delivered hframe.handled hissued htimely'
        (fun ticket call hget => ⟨(hleft ticket call hget).1, fun hengine => absurd hengine hother⟩) hfutures

theorem Sound.takeError (h : Sound s) {engine : Nat} {tickets : List Nat}
    (hissued : ∀ ticket ∈ tickets, ∃ call, s.submitted call = some (engine, ticket)) : Sound (s.takeError engine tickets) := by
  let given : LicorneActorRuntime κ ν := { s with handled := s.handled ++ tickets.map fun ticket => (engine, ticket) }
  let values := tickets.map fun ticket => (ticket, (ResultFuture.failed : ResultFuture (ν × Option Int)))
  have hframe := frame_settleAll values given
  rw [LicorneActorRuntime.takeError]
  change Sound ((given.settleAll values).pumpAgain engine)
  refine @Sound.batch κ ν s _ h engine tickets [] hframe.resolver hframe.phases hframe.submitted
    (by rw [List.map_nil, List.append_nil]; exact hframe.delivered) hframe.handled hissued (.inr (by simp)) ?_ ?_
  · intro ticket call hget
    have hkeys : values.map Prod.fst = tickets := by simp [values, List.map_map, Function.comp_def]
    change Dictionary.get ticket (given.settleAll values).pending = some call at hget
    rw [get_settleAll, hkeys] at hget
    split at hget
    · cases hget
    · next hnot => exact ⟨hget, fun _ => hnot⟩
  · intro call v hresult
    refine .inl ((futures_settleAll hresult).resolve_right ?_)
    rintro ⟨ticket, hmem, -⟩
    obtain ⟨other, -, heq⟩ := List.mem_map.mp hmem
    cases (Prod.mk.inj heq).2

omit [DecidableEq κ] in
theorem Sound.ensureTenant (h : Sound s) (tenantId : String) : Sound (s.ensureTenant tenantId) := by
  rw [LicorneActorRuntime.ensureTenant]
  split
  · exact h
  · split
    · next hnone =>
      refine h.mono rfl (List.Subset.refl _) (fun ticket call hget => ?_) (fun _ hx => .inl hx) (fun _ _ hr => .inl hr)
        (fun _ _ hr => .inl hr) fun _ hi => hi
      -- Without an instance nothing is pending.
      obtain ⟨engine, hengine, -⟩ := h.owned ticket call hget
      rw [hnone] at hengine
      cases hengine
    · exact h.mono rfl (List.Subset.refl _) (fun _ _ hget => ⟨hget, rfl, fun _ _ hnot => hnot⟩) (fun _ hx => .inl hx)
        (fun _ _ hr => .inl hr) (fun _ _ hr => .inl hr) fun _ hi => hi

omit [DecidableEq κ] in
theorem submitted_ensureTenant (tenantId : String) (s : LicorneActorRuntime κ ν) :
    (s.ensureTenant tenantId).submitted = s.submitted ∧ (s.ensureTenant tenantId).phases = s.phases := by
  rw [ensureTenant]
  split
  · exact ⟨rfl, rfl⟩
  · split <;> exact ⟨rfl, rfl⟩

theorem Sound.submit (h : Sound s) {call : κ} {engine ticket : Nat} {phase : CallPhase (ν × Option Int)}
    (hengine : s.resolver = some engine) (hidle : s.phases call = .idle)
    (hnew : ∀ other, s.submitted other ≠ some (engine, ticket)) (hphase : phase ≠ .idle) (hreturned : ∀ v, phase ≠ .returned v) :
    Sound ((s.submit call engine ticket).setPhase call phase) := by
  have hnone := h.idle call hidle
  have hother : ∀ {c x}, s.submitted c = some x → c ≠ call := by
    rintro c x hc rfl
    rw [hnone] at hc
    cases hc
  have hkept : ∀ {c x}, s.submitted c = some x → Function.update s.submitted call (some (engine, ticket)) c = some x := by
    intro c x hc
    rw [Function.update_of_ne (hother hc)]
    exact hc
  have hown : ∀ {c v}, s.Own c v → ((s.submit call engine ticket).setPhase call phase).Own c v := by
    rintro c v ⟨e, t, hc, hmem⟩
    exact ⟨e, t, hkept hc, hmem⟩
  constructor
  · intro t c hget
    change Dictionary.get t (Dictionary.assign ticket call s.pending) = some c at hget
    rw [Dictionary.get_assign] at hget
    split at hget
    · next ht =>
      obtain rfl := Option.some.inj hget
      refine ⟨engine, hengine, ?_, fun hmem => ?_⟩
      · rw [ht]
        exact Function.update_self _ _ _
      · obtain ⟨other, hissued⟩ := h.issued _ hmem
        exact hnew other (ht ▸ hissued)
    · obtain ⟨e, he, hc, hnot⟩ := h.owned t c hget
      exact ⟨e, he, hkept hc, hnot⟩
  · intro x hx
    obtain ⟨c, hc⟩ := h.issued x hx
    exact ⟨c, hkept hc⟩
  · intro c c' x hc hc'
    change Function.update s.submitted call (some (engine, ticket)) c = some x at hc
    change Function.update s.submitted call (some (engine, ticket)) c' = some x at hc'
    rw [Function.update_apply] at hc hc'
    split at hc <;> split at hc'
    · next h₁ h₂ => rw [h₁, h₂]
    · exact absurd (hc'.trans hc.symm) (hnew c')
    · exact absurd (hc.trans hc'.symm) (hnew c)
    · exact h.unique c c' x hc hc'
  · intro c v hresult
    change Function.update s.futures call .pending c = .result v at hresult
    rw [Function.update_apply] at hresult
    split at hresult
    · cases hresult
    · exact hown (h.resulted c v hresult)
  · intro c v hc
    change Function.update s.phases call phase c = .returned v at hc
    rw [Function.update_apply] at hc
    split at hc
    · exact absurd hc (hreturned v)
    · exact hown (h.returned c v hc)
  · intro c hc
    change Function.update s.phases call phase c = .idle at hc
    rw [Function.update_apply] at hc
    split at hc
    · exact absurd hc hphase
    · next hne =>
      change Function.update s.submitted call (some (engine, ticket)) c = none
      rw [Function.update_of_ne hne]
      exact h.idle c hc

theorem Sound.resolve (h : Sound s) {call : κ} {tenantId : String} {submission : Submission} (hidle : s.phases call = .idle)
    (hlawful : EngineLawful s (.resolve call tenantId submission)) : Sound (s.resolve call tenantId submission) := by
  obtain ⟨hsubmitted, hphases⟩ := submitted_ensureTenant tenantId s
  have htenant := h.ensureTenant tenantId
  have hidle' : (s.ensureTenant tenantId).phases call = .idle := hphases ▸ hidle
  rw [LicorneActorRuntime.resolve]
  split
  · exact h.setPhase (by simp) (by simp)
  · dsimp only
    split
    · exact htenant.setPhase (by simp) (by simp)
    · next engine hengine =>
      cases submission with
      | refused => exact htenant.setPhase (by simp) (by simp)
      | rejected => exact htenant.setPhase (by simp) (by simp)
      | unflushed ticket =>
          exact htenant.submit hengine hidle' (by rw [hsubmitted]; exact hlawful engine hengine) (by simp) (by simp)
      | flushed ticket =>
          exact (htenant.submit hengine hidle' (by rw [hsubmitted]; exact hlawful engine hengine) (by simp) (by simp)).ensurePump

theorem Sound.step (h : Sound s) (event : RuntimeEvent κ ν) (hlawful : EngineLawful s event) (htimely : Timely s event) :
    Sound (s.step event) := by
  cases event with
  | resolve call tenantId submission =>
      simp only [LicorneActorRuntime.step]
      split
      · next hidle => exact h.resolve hidle hlawful
      all_goals exact h
  | pumpStarts =>
      simp only [LicorneActorRuntime.step]
      split
      · split
        · exact h.pump _
        · exact h.pump _
      all_goals exact h
  | batch tickets resolutions finalVersion =>
      simp only [LicorneActorRuntime.step]
      split
      · next engine hpump => exact h.takeBatch (hlawful engine hpump) (htimely engine hpump)
      all_goals exact h
  | batchError tickets =>
      simp only [LicorneActorRuntime.step]
      split
      · next engine hpump => exact h.takeError (hlawful engine hpump)
      all_goals exact h
  | pumpRaises =>
      simp only [LicorneActorRuntime.step]
      split
      · exact h.pumpFailed _
      all_goals exact h
  | pumpEnds => exact h.pump _
  | expire call =>
      simp only [LicorneActorRuntime.step]
      split
      · exact h.interrupt (by simp) (by simp)
      all_goals exact h
  | cancel call =>
      simp only [LicorneActorRuntime.step]
      split
      · exact h.interrupt (by simp) (by simp)
      · exact h.interrupt (by simp) (by simp)
      all_goals exact h
  | resume call => exact h.resume call
  | close => exact h.close

def Ended (s : LicorneActorRuntime κ ν) (call : κ) : Prop :=
  s.phases call = .idle ∨ s.phases call = .raised ∨ ∃ value, s.phases call = .returned value

/-- What a call returned is its own, no other call has its ticket, and the table
is empty when nothing is under way. -/
structure Unconfused (s : LicorneActorRuntime κ ν) : Prop where
  returned : ∀ call value, s.phases call = .returned value → s.Own call value
  unique : ∀ call call' x, s.submitted call = some x → s.submitted call' = some x → call = call'
  emptied : (∀ call, s.Ended call) → (∀ call x, s.submitted call = some x → x ∈ s.handled) → s.pending = []

omit [DecidableEq κ] in
theorem Sound.unconfused (h : Sound s) : Unconfused s := by
  refine ⟨h.returned, h.unique, fun _ hhandled => ?_⟩
  match hpending : s.pending with
  | [] => rfl
  | (ticket, call) :: entries =>
      have hget : Dictionary.get ticket s.pending = some call := by rw [hpending, Dictionary.get, if_pos rfl]
      obtain ⟨engine, -, hcall, hnot⟩ := h.owned ticket call hget
      exact absurd (hhandled call _ hcall) hnot

end LicorneActorRuntime

open LicorneActorRuntime

/-- Resolutions reach the calls that they are for, in every run in which no
resolution of another instance meets a future that waits. -/
theorem resolutions_unmixed [DecidableEq κ] (events : List (RuntimeEvent κ ν))
    (h : Along LicorneActorRuntime.step (fun s event => s.EngineLawful event ∧ s.Timely event) initial events) :
    Unconfused (run LicorneActorRuntime.step initial events) := by
  have hstep : ∀ (s : LicorneActorRuntime κ ν) event, Sound s → s.EngineLawful event ∧ s.Timely event → Sound (s.step event) :=
    fun s event hsound hok => hsound.step event hok.1 hok.2
  exact (run_invariant hstep sound_initial h).unconfused

/-- Two calls of different tenants, whose resolutions come in the other order. -/
def answeredCalls : List (RuntimeEvent String String) :=
  [.resolve "a" "acme" (.flushed 1), .resolve "b" "bank" (.flushed 2), .pumpStarts, .batch [2, 1] ["right", "left"] (some 13),
    .resume "a", .resume "b"]

theorem resolutions_unmixed_two :
    (run LicorneActorRuntime.step initial answeredCalls).phases "a" = .returned ("left", some 13) ∧
      (run LicorneActorRuntime.step initial answeredCalls).phases "b" = .returned ("right", some 13) ∧
      Unconfused (run LicorneActorRuntime.step initial answeredCalls) := by
  refine ⟨rfl, rfl, resolutions_unmixed answeredCalls
    ⟨⟨?_, trivial⟩, ⟨?_, trivial⟩, ⟨trivial, trivial⟩, ⟨?_, ?_⟩, ⟨trivial, trivial⟩, ⟨trivial, trivial⟩, trivial⟩⟩
  · intro engine _ call h
    cases h
  · intro engine hengine call h
    cases hengine
    change Function.update (fun _ => none) "a" (some (0, 1)) call = some (0, 2) at h
    rw [Function.update_apply] at h
    split at h <;> cases h
  · rintro engine hpump ticket hticket
    cases hpump
    rcases List.mem_cons.mp hticket with rfl | hticket
    · exact ⟨"b", rfl⟩
    · rw [List.mem_singleton.mp hticket]
      exact ⟨"a", rfl⟩
  · intro engine hpump
    cases hpump
    exact .inl rfl

def lateBatch : List (RuntimeEvent String String) :=
  [.resolve "a" "acme" (.flushed 1), .pumpStarts, .close, .resume "a", .resolve "b" "bank" (.flushed 1),
    .batch [1] ["identity"] none,
    .resume "b"]

theorem resolutions_mixed :
    Along LicorneActorRuntime.step (fun s event => s.EngineLawful event) initial lateBatch ∧
      ¬ Unconfused (run LicorneActorRuntime.step initial lateBatch) := by
  refine ⟨⟨?_, trivial, trivial, trivial, ?_, ?_, trivial, trivial⟩, fun h => ?_⟩
  · intro engine _ call h
    cases h
  · intro engine hengine call h
    cases hengine
    change Function.update (fun _ => none) "a" (some (0, 1)) call = some (1, 1) at h
    rw [Function.update_apply] at h
    split at h
    · cases h
    · cases h
  · rintro engine hpump ticket hticket
    cases hpump
    rw [List.mem_singleton.mp hticket]
    exact ⟨"a", rfl⟩
  · obtain ⟨engine, ticket, hcall, hmem⟩ := h.returned "b" ("identity", none) rfl
    cases hcall
    have hdelivered : (run LicorneActorRuntime.step initial lateBatch).delivered = [(0, 1, "identity", none)] := rfl
    rw [hdelivered, List.mem_singleton] at hmem
    cases hmem

end Runtime

end Galadril.Vision
