import Galadril.Execution.Handling

namespace Galadril.Execution

open Json Lib.Checked Lib.Transitions Lib.Attempts Lib.Attempts.Attempt

variable (routes : RouteTable) (uuid5 : String → String → String) (command : PipelineCommand)

def maxRetries : Nat :=
  match routes.route command.step with
  | .ok route => route.maxRetries
  | .error _ => 0

def copyOf (attempt : Nat) : Message := .command { command with attempt := attempt }

def Recorded (w : World) (result : StepResult) : Prop :=
  ∃ row, w.row = some row ∧ row.status = .completed ∧ row.result = some result

def Finished (w : World) : Prop :=
  ∃ result, Recorded w result ∧ .result result ∈ w.published ∧ ∃ steps, routes.successors command.step result.output = .ok steps ∧
    ∀ step ∈ steps, ∃ route, routes.route step = .ok route ∧ .command (downstream uuid5 command result route) ∈ w.published

def Copied (w : World) (attempt : Nat) : Prop :=
  attempt + 1 ≤ maxRetries routes command ∧ copyOf command (attempt + 1) ∈ w.published

def GivenUp (w : World) : Prop :=
  (∃ result, .deadLetter result ∈ w.published ∧ result.commandId = command.eventId) ∧ ∀ result, ¬ Recorded w result

def Kept (w : World) (attempt : Nat) : Prop :=
  Finished routes uuid5 command w ∨ Copied routes command w attempt ∨ GivenUp command w

def firstFault (faults : Faults) : List String → Nat → Option Failure
  | [], _ => none
  | step :: rest, i =>
      match routes.route step with
      | .error e => some ⟨"RouteCompilationError", e⟩
      | .ok _ => (faults.successor i).or (firstFault faults rest (i + 1))

def interruption (faults : Faults) (steps : List String) : Option Failure :=
  faults.result.or (faults.completedLineage.or (firstFault routes faults steps 0))

def granted (w : World) (d : Delivery) : Bool :=
  (claim w.row d.attempt d.now d.deadline).2 = .acquired && d.faults.claim.isNone && d.faults.running.isNone

def Interrupted (d : Delivery) : Prop :=
  maxRetries routes command ≤ d.attempt ∧ d.faults.complete = none ∧ d.faults.fail = none ∧ d.faults.copy = none ∧
    d.faults.failedLineage = none ∧
    ∃ result steps e, d.faults.dispatch = .ok result ∧ routes.successors command.step result.output = .ok steps ∧
      interruption routes d.faults steps = some e ∧ reportable e = true

def Stranded (w : World) (d : Delivery) : Prop := granted w d = true ∧ Interrupted routes command d

def Repeated (w : World) (d : Delivery) : Prop := granted w d = true ∧ d.attempt ∈ w.dispatched

section Calls

variable {routes : RouteTable} {uuid5 : String → String → String} {uuid4 : String} {command : PipelineCommand} {w w' : World}

structure Grown (routes : RouteTable) (command : PipelineCommand) (w w' : World) : Prop where
  row : w'.row = w.row
  dispatched : w'.dispatched = w.dispatched
  published : ∀ m ∈ w.published, m ∈ w'.published
  copies : ∀ k, copyOf command k ∈ w'.published → copyOf command k ∈ w.published ∨ k ≤ maxRetries routes command

theorem Grown.refl (w : World) : Grown routes command w w := ⟨rfl, rfl, fun _ h => h, fun _ h => .inl h⟩

theorem Grown.trans {w'' : World} (h : Grown routes command w w') (h' : Grown routes command w' w'') :
    Grown routes command w w'' := by
  refine ⟨h'.row.trans h.row, h'.dispatched.trans h.dispatched, fun m hm => h'.published m (h.published m hm), fun k hk => ?_⟩
  exact (h'.copies k hk).elim (h.copies k) .inr

theorem after_publish (routes : RouteTable) (command : PipelineCommand) (fault : Option Failure) (m : Message)
    (hm : ∀ k, m = copyOf command k → k ≤ maxRetries routes command) :
    After (publish fault m) w (fun _ w' => fault = none ∧ Grown routes command w w' ∧ m ∈ w'.published)
      fun e w' => fault = some e ∧ Grown routes command w w' := by
  cases fault with
  | some e => exact ⟨rfl, .refl w⟩
  | none =>
      refine ⟨rfl, ⟨rfl, rfl, fun _ h => List.mem_append_left _ h, fun k hk => ?_⟩,
        List.mem_append_right _ (List.mem_singleton_self m)⟩
      exact (List.mem_append.mp hk).imp_right fun h => hm k (List.mem_singleton.mp h).symm

theorem not_copy {m : Message} (h : ∀ c, m ≠ .command c) (k : Nat) : m = copyOf command k → k ≤ maxRetries routes command :=
  fun heq => absurd heq (h _)

theorem after_publishEach {faults : Faults} {result : StepResult} (steps : List String) (i : Nat) :
    After (publishEach routes uuid5 faults command result steps i) w
      (fun _ w' => firstFault routes faults steps i = none ∧ Grown routes command w w' ∧ ∀ step ∈ steps, ∃ route,
        routes.route step = .ok route ∧ .command (downstream uuid5 command result route) ∈ w'.published)
      fun e w' => firstFault routes faults steps i = some e ∧ Grown routes command w w' := by
  induction steps generalizing w i with
  | nil => exact ⟨rfl, .refl w, by simp⟩
  | cons step rest ih =>
      simp only [publishEach, lookedUp, after_bind]
      cases hroute : routes.route step with
      | error e => exact ⟨by simp [firstFault, hroute], .refl w⟩
      | ok route =>
          -- a successor starts at attempt 0
          have hzero : ∀ k, Message.command (downstream uuid5 command result route) = copyOf command k →
              k ≤ maxRetries routes command := by
            intro k hk
            have hattempt : 0 = k := congrArg PipelineCommand.attempt (Message.command.inj hk)
            exact hattempt ▸ Nat.zero_le _
          refine (after_publish routes command (faults.successor i) _ hzero).mono ?_ ?_
          · rintro _ w' ⟨hnone, hgrown, hmem⟩
            refine (ih (i + 1)).mono ?_ ?_
            · rintro _ w'' ⟨hrest, hgrown', hall⟩
              refine ⟨by simp [firstFault, hroute, hnone, hrest], hgrown.trans hgrown', fun other hother => ?_⟩
              rcases List.mem_cons.mp hother with rfl | hother
              · exact ⟨route, hroute, hgrown'.published _ hmem⟩
              · exact hall other hother
            · rintro e w'' ⟨hrest, hgrown'⟩
              exact ⟨by simp [firstFault, hroute, hnone, hrest], hgrown.trans hgrown'⟩
          · rintro e w' ⟨hfault, hgrown⟩
            exact ⟨by simp [firstFault, hroute, hfault], hgrown⟩

theorem after_publishSuccessors (faults : Faults) (result : StepResult) :
    After (publishSuccessors routes uuid5 faults command result) w
      (fun _ w' => Grown routes command w w' ∧ .result result ∈ w'.published ∧
        ∃ steps, routes.successors command.step result.output = .ok steps ∧ ∀ step ∈ steps, ∃ route,
          routes.route step = .ok route ∧ .command (downstream uuid5 command result route) ∈ w'.published)
      fun e w' => Grown routes command w w' ∧ ∀ steps, routes.successors command.step result.output = .ok steps →
        interruption routes faults steps = some e := by
  simp only [publishSuccessors, lookedUp, after_bind]
  refine (after_publish routes command _ _ (not_copy (by simp))).mono ?_ ?_
  · rintro _ w₁ ⟨hresult, hgrown, hmem⟩
    refine (after_publish routes command _ _ (not_copy (by simp))).mono ?_ ?_
    · rintro _ w₂ ⟨hlineage, hgrown', -⟩
      cases hsteps : routes.successors command.step result.output with
      | error e => exact ⟨hgrown.trans hgrown', fun steps h => by cases h⟩
      | ok steps =>
          refine (after_publishEach steps 0).mono ?_ ?_
          · rintro _ w₃ ⟨-, hgrown'', hall⟩
            exact ⟨hgrown.trans (hgrown'.trans hgrown''), hgrown''.published _ (hgrown'.published _ hmem), steps, rfl, hall⟩
          · rintro e w₃ ⟨hfault, hgrown''⟩
            refine ⟨hgrown.trans (hgrown'.trans hgrown''), fun other hother => ?_⟩
            obtain rfl := Except.ok.inj hother
            simp [interruption, hresult, hlineage, hfault]
    · rintro e w₂ ⟨hfault, hgrown'⟩
      exact ⟨hgrown.trans hgrown', fun steps _ => by simp [interruption, hresult, hfault]⟩
  · rintro e w₁ ⟨hfault, hgrown⟩
    exact ⟨hgrown, fun steps _ => by simp [interruption, hfault]⟩

/-- A failure that is handled is copied below the limit, and else given up. -/
theorem after_handleFailure {faults : Faults} {error : Failure} :
    After (handleFailure routes uuid4 faults command error) w
      (fun _ w' => Grown routes command w w' ∧ faults.copy = none ∧ faults.failedLineage = none ∧
        (Copied routes command w' command.attempt ∨ maxRetries routes command ≤ command.attempt ∧ reportable error = true ∧
          ∃ result, .deadLetter result ∈ w'.published ∧ result.commandId = command.eventId))
      fun _ w' => Grown routes command w w' := by
  simp only [handleFailure, lookedUp, after_bind]
  cases hroute : routes.route command.step with
  | error e => exact .refl w
  | ok route =>
      have hmax : maxRetries routes command = route.maxRetries := by simp [maxRetries, hroute]
      simp only [Except.mapError, after_lift_ok]
      split
      · next hbelow =>
          have hcopy : ∀ k, Message.command { command with attempt := command.attempt + 1 } = copyOf command k →
              k ≤ maxRetries routes command := by
            intro k hk
            have hattempt : command.attempt + 1 = k := congrArg PipelineCommand.attempt (Message.command.inj hk)
            omega
          simp only [after_bind]
          refine (after_publish routes command _ _ hcopy).mono ?_ fun e w₁ h => h.2
          rintro _ w₁ ⟨hnone, hgrown, hmem⟩
          refine (after_publish routes command _ _ (not_copy (by simp))).mono ?_ fun e w₂ h => hgrown.trans h.2
          rintro _ w₂ ⟨hnone', hgrown', -⟩
          exact ⟨hgrown.trans hgrown', hnone, hnone', .inl ⟨by omega, hgrown'.published _ hmem⟩⟩
      · next habove =>
          cases hreport : reportable error with
          | false => exact .refl w
          | true =>
              simp only [ensure_true, after_bind, after_lift_ok]
              refine (after_publish routes command _ _ (not_copy (by simp))).mono ?_ fun e w₁ h => h.2
              rintro _ w₁ ⟨hnone, hgrown, hmem⟩
              refine (after_publish routes command _ _ (not_copy (by simp))).mono ?_ fun e w₂ h => hgrown.trans h.2
              rintro _ w₂ ⟨hnone', hgrown', -⟩
              exact ⟨hgrown.trans hgrown', hnone, hnone', .inr ⟨by omega, trivial, _, hgrown'.published _ hmem, rfl⟩⟩

end Calls

section Handling

variable {routes : RouteTable} {uuid5 : String → String → String} {uuid4 : String} {command : PipelineCommand} {w w' : World}

/-- No attempt is dispatched, and what bounds dispatches stays. -/
structure Follows (routes : RouteTable) (command : PipelineCommand) (w w' : World) : Prop where
  dispatched : w'.dispatched = w.dispatched
  row : w.row ≠ none → w'.row ≠ none
  copies : ∀ k, copyOf command k ∈ w'.published → copyOf command k ∈ w.published ∨ k ≤ maxRetries routes command

theorem Grown.follows (h : Grown routes command w w') : Follows routes command w w' :=
  ⟨h.dispatched, fun hrow => h.row ▸ hrow, h.copies⟩

theorem Follows.trans {w'' : World} (h : Follows routes command w w') (h' : Follows routes command w' w'') :
    Follows routes command w w'' := by
  refine ⟨h'.dispatched.trans h.dispatched, fun hrow => h'.row (h.row hrow), fun k hk => ?_⟩
  exact (h'.copies k hk).elim (h.copies k) .inr

theorem Follows.ofAttempt {attempt : Nat} (h : Follows routes { command with attempt := attempt } w w') :
    Follows routes command w w' :=
  ⟨h.dispatched, h.row, h.copies⟩

theorem Follows.withRow {row : Option (Row StepResult)} (hrow : row ≠ none) : Follows routes command w { w with row := row } :=
  ⟨rfl, fun _ => hrow, fun _ hk => .inl hk⟩

def Tracked (routes : RouteTable) (command : PipelineCommand) (d : Delivery) (w w' : World) : Prop :=
  Follows routes command w w' ∨ granted w d = true ∧ w'.row ≠ none ∧
    Follows routes command { w with dispatched := w.dispatched ++ [d.attempt] } w'

theorem fail_ne_none {row : Option (Row StepResult)} (h : row ≠ none) (error : String) : fail row error ≠ none := by
  cases row with
  | none => exact absurd rfl h
  | some row =>
      rw [fail]
      split <;> simp

theorem after_recover {d : Delivery} {error : Failure} (hrow : w.row ≠ none) :
    After (recover routes uuid4 command d error) w
      (fun _ w' => Follows routes command w w' ∧ w'.row = fail w.row error.text ∧ d.faults.fail = none ∧ d.faults.copy = none ∧
        d.faults.failedLineage = none ∧
        (Copied routes command w' command.attempt ∨ maxRetries routes command ≤ command.attempt ∧ reportable error = true ∧
          ∃ result, .deadLetter result ∈ w'.published ∧ result.commandId = command.eventId))
      fun _ w' => Follows routes command w w' := by
  simp only [recover, failed, after_bind, after_pure]
  cases hfail : d.faults.fail with
  | some e => exact (Grown.refl w).follows
  | none =>
      have hfollows : Follows routes command w { w with row := fail w.row error.text } := .withRow (fail_ne_none hrow _)
      refine (after_handleFailure (w := { w with row := fail w.row error.text })).mono ?_
        fun e w' hgrown => hfollows.trans hgrown.follows
      rintro _ w' ⟨hgrown, hcopy, hlineage, hout⟩
      exact ⟨hfollows.trans hgrown.follows, hgrown.row, rfl, hcopy, hlineage, hout⟩

theorem not_recorded_running {row : Row StepResult} (hrow : w.row = some row) (hstatus : row.status ≠ .completed)
    (result : StepResult) :
    ¬ Recorded w result := by
  rintro ⟨other, hother, hcompleted, -⟩
  obtain rfl := Option.some.inj (hrow.symm.trans hother)
  exact hstatus hcompleted

/-- A running execution that fails is copied or given up. -/
theorem after_recover_running {d : Delivery} {error : Failure} {row : Row StepResult} (hrow : w.row = some row)
    (hstatus : row.status = .running) :
    After (recover routes uuid4 command d error) w
      (fun _ w' => Follows routes command w w' ∧ Kept routes uuid5 command w' command.attempt)
      fun _ w' => Follows routes command w w' := by
  refine (after_recover (by simp [hrow])).mono ?_ fun _ _ h => h
  rintro _ w' ⟨hfollows, hrow', -, -, -, hout⟩
  refine ⟨hfollows, ?_⟩
  have hreleased : w'.row = some (row.released error.text) := by
    rw [hrow', hrow]
    simp [fail, running, hstatus]
  rcases hout with hcopied | ⟨-, -, hdead⟩
  · exact .inr (.inl hcopied)
  · exact .inr (.inr ⟨hdead, not_recorded_running hreleased (by simp [Row.released])⟩)

theorem claim_acquired {row : Option (Row StepResult)} {attempt : Nat} {now deadline : Int}
    (h : (claim row attempt now deadline).2 = .acquired) : (claim row attempt now deadline).1.status = .running := by
  cases row with
  | none => rfl
  | some row =>
      simp only [claim] at h ⊢
      split at h
      · next hfree => simp [hfree, Row.resumed]
      · simp only [Row.answer] at h
        split at h <;> cases h

theorem claim_completed {row : Option (Row StepResult)} {attempt : Nat} {now deadline : Int} {result : StepResult}
    (h : (claim row attempt now deadline).2 = .completed result) :
    (claim row attempt now deadline).1.status = .completed ∧ (claim row attempt now deadline).1.result = some result := by
  cases row with
  | none => cases h
  | some row =>
      simp only [claim] at h ⊢
      split at h
      · cases h
      · next hheld =>
        simp only [hheld, Row.answer] at h ⊢
        split at h
        · next hstatus hresult => exact ⟨hstatus, hresult.trans (congrArg some (Claim.completed.inj h))⟩
        · cases h

theorem after_completed (routes : RouteTable) (command : PipelineCommand) {faults : Faults} {result : StepResult}
    {row : Row StepResult} (hrow : w.row = some row)
    (hstatus : row.status = .running) :
    After (completed faults result) w
      (fun _ w' => faults.complete = none ∧ w'.row = some (row.finished result) ∧ Follows routes command w w')
      fun _ w' => w' = w := by
  rw [completed]
  cases hcomplete : faults.complete with
  | some e => rfl
  | none =>
      have hwritten : complete w.row result = .ok (some (row.finished result)) := by
        simp [complete, hrow, running, hstatus]
      simp only [After, call, hwritten]
      exact ⟨trivial, trivial, .withRow (by simp)⟩

theorem after_claimed (routes : RouteTable) (command : PipelineCommand) (d : Delivery) :
    After (claimed d) w
      (fun answer w' => d.faults.claim = none ∧ answer = (claim w.row d.attempt d.now d.deadline).2 ∧
        w'.row = some (claim w.row d.attempt d.now d.deadline).1 ∧ Follows routes command w w')
      fun _ w' => w' = w := by
  rw [claimed]
  cases hclaim : d.faults.claim with
  | some e => rfl
  | none => exact ⟨rfl, rfl, rfl, .withRow (by simp)⟩

theorem after_execution {d : Delivery} {row : Row StepResult} (hrow : w.row = some row) (hstatus : row.status = .running)
    (hattempt : command.attempt = d.attempt) :
    After (catching (execute routes uuid5 command d) (recover routes uuid4 command d)) w
      (fun _ w' => Follows routes command { w with dispatched := w.dispatched ++ [d.attempt] } w' ∧
        (¬ Interrupted routes command d → Kept routes uuid5 command w' d.attempt))
      fun _ w' => Follows routes command { w with dispatched := w.dispatched ++ [d.attempt] } w' := by
  rw [after_catching]
  generalize hdispatched : ({ w with dispatched := w.dispatched ++ [d.attempt] } : World) = w₁
  have hrow₁ : w₁.row = some row := by rw [← hdispatched]; exact hrow
  -- a failure before the ledger holds the result releases the claim
  have hfails : ∀ error, After (recover routes uuid4 command d error) w₁
      (fun _ w' => Follows routes command w₁ w' ∧ (¬ Interrupted routes command d → Kept routes uuid5 command w' d.attempt))
      fun _ w' => Follows routes command w₁ w' :=
    fun error => (after_recover_running hrow₁ hstatus).mono (fun _ w' h => ⟨h.1, fun _ => hattempt ▸ h.2⟩) fun _ _ h => h
  rw [execute, after_bind]
  show After (lift d.faults.dispatch) _ _ _
  rw [hdispatched]
  cases hresult : d.faults.dispatch with
  | error e => exact hfails e
  | ok result =>
      rw [after_lift_ok, after_bind, lookedUp]
      cases hsteps : routes.successors command.step result.output with
      | error e => exact hfails _
      | ok steps =>
          simp only [Except.mapError, after_lift_ok, after_bind]
          refine (after_completed routes command hrow₁ hstatus).mono ?_ fun e w₂ hsame => ?_
          · rintro _ w₂ ⟨hcomplete, hrow₂, hfollows⟩
            refine (after_publishSuccessors d.faults result).mono ?_ ?_
            · rintro _ w₃ ⟨hgrown, hmem, hall⟩
              refine ⟨hfollows.trans hgrown.follows, fun _ => .inl ⟨result, ?_, hmem, hall⟩⟩
              exact ⟨row.finished result, hgrown.row.trans hrow₂, rfl, rfl⟩
            · rintro e w₃ ⟨hgrown, hfault⟩
              -- the row is completed, so a release does not touch it
              have hrow₃ : w₃.row ≠ none := by simp [hgrown.row, hrow₂]
              have hto := hfollows.trans hgrown.follows
              refine (after_recover hrow₃).mono ?_ fun _ w' hf => hto.trans hf
              rintro _ w' ⟨hf, -, hfail, hcopy, hlineage, hout⟩
              refine ⟨hto.trans hf, fun hwhole => ?_⟩
              rcases hout with hcopied | ⟨hlast, hreport, -⟩
              · exact .inr (.inl (hattempt ▸ hcopied))
              · exact absurd ⟨hattempt ▸ hlast, hcomplete, hfail, hcopy, hlineage, result, steps, e, hresult, hsteps,
                  hfault steps hsteps, hreport⟩ hwhole
          · rw [hsame]
            exact hfails e

variable (routes uuid5 uuid4 command) in
/-- One delivery: what it leaves behind if it returns, and what it does to the
dispatches in any case. -/
theorem after_handle (w : World) (d : Delivery) :
    After (handle routes uuid5 uuid4 command d) w
      (fun _ w' => Tracked routes command d w w' ∧ (¬ Stranded routes command w d → Kept routes uuid5 command w' d.attempt))
      fun _ w' => Tracked routes command d w w' := by
  rw [handle, after_bind]
  refine (after_claimed routes command d).mono ?_ fun e w₁ hsame => ?_
  · rintro answer w₁ ⟨hclaim, hanswer, hrow, hfollows⟩
    cases answer with
    | inProgress => exact .inl hfollows
    | completed result =>
        obtain ⟨hstatus, hresult⟩ := claim_completed hanswer.symm
        simp only [after_bind, after_pure]
        refine (after_publishSuccessors d.faults result).mono ?_ fun e w' h => .inl (hfollows.trans h.1.follows.ofAttempt)
        rintro _ w' ⟨hgrown, hmem, hall⟩
        refine ⟨.inl (hfollows.trans hgrown.follows.ofAttempt), fun _ => .inl ⟨result, ?_, hmem, hall⟩⟩
        exact ⟨_, hgrown.row.trans hrow, hstatus, hresult⟩
    | acquired =>
        have hstatus := claim_acquired hanswer.symm
        simp only [after_bind]
        refine (after_publish routes command _ _ (not_copy (by simp))).mono ?_ fun e w₂ h => .inl (hfollows.trans h.2.follows)
        rintro _ w₂ ⟨hrunning, hgrown, -⟩
        have hto := hfollows.trans hgrown.follows
        have hgranted : granted w d = true := by simp [granted, hanswer.symm, hclaim, hrunning]
        have htracked : ∀ w', Follows routes command { w₂ with dispatched := w₂.dispatched ++ [d.attempt] } w' →
            Tracked routes command d w w' := by
          intro w' hf
          refine .inr ⟨hgranted, hf.row (by simp [hgrown.row, hrow]), ?_⟩
          exact ⟨by rw [hf.dispatched, hto.dispatched], fun _ => hf.row (by simp [hgrown.row, hrow]),
            fun k hk => (hf.copies k hk).elim (hto.copies k) .inr⟩
        refine (after_execution (hgrown.row.trans hrow) hstatus rfl).mono ?_ fun _ w' hf => htracked w' hf.ofAttempt
        rintro _ w' ⟨hf, hkept⟩
        exact ⟨htracked w' hf.ofAttempt, fun hwhole => hkept fun hi => hwhole ⟨hgranted, hi⟩⟩
  · rw [hsame]
    exact .inl (Grown.refl w).follows

end Handling

section Deliveries

variable (routes : RouteTable) (uuid5 : String → String → String) (uuid4 : String) (command : PipelineCommand)

def Deliverable (w : World) (d : Delivery) : Prop := d.attempt = 0 ∨ copyOf command d.attempt ∈ w.published

instance (w : World) (d : Delivery) : Decidable (Deliverable command w d) := inferInstanceAs (Decidable (_ ∨ _))

def World.step (w : World) (d : Delivery) : World :=
  if Deliverable command w d then (handle routes uuid5 uuid4 command d w).2 else w

def World.start : World := ⟨none, [], []⟩

/-- Neither is the result of a last attempt lost, nor an attempt dispatched
twice. -/
def Regular (w : World) (d : Delivery) : Prop := ¬ Stranded routes command w d ∧ ¬ Repeated w d

structure Bounded (w : World) : Prop where
  fresh : w.row = none → w.dispatched = []
  nodup : w.dispatched.Nodup
  dispatched : ∀ a ∈ w.dispatched, a ≤ maxRetries routes command
  copies : ∀ k, copyOf command k ∈ w.published → k ≤ maxRetries routes command

variable {routes uuid5 uuid4 command} {w w' : World}

theorem Bounded.follows (h : Bounded routes command w) (hf : Follows routes command w w') : Bounded routes command w' := by
  refine ⟨fun hnone => ?_, hf.dispatched ▸ h.nodup, fun a ha => h.dispatched a (hf.dispatched ▸ ha), fun k hk => ?_⟩
  · rw [hf.dispatched]
    refine h.fresh ?_
    by_contra hrow
    exact hf.row hrow hnone
  · exact (hf.copies k hk).elim (h.copies k) id

theorem Bounded.step (h : Bounded routes command w) {d : Delivery} (hd : Regular routes command w d) :
    Bounded routes command (w.step routes uuid5 uuid4 command d) := by
  rw [World.step]
  split
  · next hdeliverable =>
      have hattempt : d.attempt ≤ maxRetries routes command :=
        hdeliverable.elim (fun hzero => hzero ▸ Nat.zero_le _) (h.copies _)
      have htracked : Tracked routes command d w (handle routes uuid5 uuid4 command d w).2 :=
        ((after_handle routes uuid5 uuid4 command w d).mono (fun _ _ h => h.1) fun _ _ h => h).final
      rcases htracked with hf | ⟨hgranted, hrow, hf⟩
      · exact h.follows hf
      · have hnew : d.attempt ∉ w.dispatched := fun hmem => hd.2 ⟨hgranted, hmem⟩
        refine ⟨fun hnone => absurd hnone hrow, ?_, fun a ha => ?_, fun k hk => (hf.copies k hk).elim (h.copies k) id⟩
        · rw [hf.dispatched]
          exact List.nodup_append.mpr ⟨h.nodup, List.nodup_singleton _, fun a ha b hb => by
            rw [List.mem_singleton.mp hb]
            exact fun heq => hnew (heq ▸ ha)⟩
        · rw [hf.dispatched] at ha
          rcases List.mem_append.mp ha with ha | ha
          · exact h.dispatched a ha
          · exact List.mem_singleton.mp ha ▸ hattempt
  · exact h

theorem Bounded.count (h : Bounded routes command w) : w.dispatched.length ≤ maxRetries routes command + 1 := by
  have hsub : w.dispatched ⊆ List.range (maxRetries routes command + 1) := by
    intro a ha
    exact List.mem_range.mpr (Nat.lt_succ_of_le (h.dispatched a ha))
  simpa using (h.nodup.subperm hsub).length_le

variable (routes uuid5 uuid4 command) in
/-- In a run of such deliveries each one that returns leaves the command
finished, copied or given up, and no more attempts are dispatched than the route
allows. -/
theorem command_kept (deliveries : List Delivery)
    (h : Along (World.step routes uuid5 uuid4 command) (Regular routes command) .start deliveries) :
    let w := run (World.step routes uuid5 uuid4 command) .start deliveries
    w.dispatched.length ≤ maxRetries routes command + 1 ∧
    ∀ d answer, Deliverable command w d → Regular routes command w d →
      (handle routes uuid5 uuid4 command d w).1 = .ok answer →
      Kept routes uuid5 command (handle routes uuid5 uuid4 command d w).2 d.attempt := by
  intro w
  have hstep : ∀ w d, Bounded routes command w → Regular routes command w d →
      Bounded routes command (World.step routes uuid5 uuid4 command w d) := fun _ _ hb hd => hb.step hd
  have hstart : Bounded routes command .start :=
    ⟨fun _ => rfl, List.nodup_nil, fun _ ha => (by cases ha), fun _ hk => (by cases hk)⟩
  have hbounded : Bounded routes command w := run_invariant hstep hstart h
  refine ⟨hbounded.count, fun d answer _ hd hanswer => ?_⟩
  exact ((after_handle routes uuid5 uuid4 command w d).of_ok hanswer).2 hd.1

end Deliveries

def chainRoutes : RouteTable :=
  ⟨[⟨"infer", .inference, .gpu, ["camera"], ["store"], false, 0⟩, ⟨"store", .sink, .cpu, ["infer"], [], false, 0⟩],
    [("camera", ["infer"])], [], []⟩

def joined (parent name : String) : String := parent ++ "/" ++ name

def inferCommand : PipelineCommand :=
  ⟨"event", "correlation", none, "acme", none, "vision", "infer", .inference, .gpu, 0, [], []⟩

def inferred : StepResult :=
  ⟨"result", "correlation", none, "acme", none, "vision", "event", "infer", .inference, .gpu, .completed, 0, [], none, none⟩

def flawless : Faults := ⟨none, none, .ok inferred, none, none, none, fun _ => none, none, none, none⟩

def lost : Failure := ⟨"KafkaError", "broker unavailable"⟩

def severed : Delivery := ⟨0, 0, 900, { flawless with successor := fun _ => some lost }⟩

/-- Neither the execution nor the event of its failure succeeds. -/
def refused : Delivery := ⟨0, 0, 900, { flawless with dispatch := .error lost, copy := some lost }⟩

def retriedRoutes : RouteTable :=
  ⟨[⟨"infer", .inference, .gpu, ["camera"], ["store"], false, 1⟩, ⟨"store", .sink, .cpu, ["infer"], [], false, 0⟩],
    [("camera", ["infer"])], [], []⟩

/-- The first attempt fails and its copy completes, but the successor is not
published. The copy is delivered again, once more without success. -/
def retried : List Delivery :=
  [⟨0, 0, 900, { flawless with dispatch := .error lost }⟩,
    ⟨1, 1, 901, { flawless with fail := some lost, successor := fun _ => some lost }⟩,
    ⟨1, 2, 902, { flawless with result := some lost }⟩]

theorem retried_regular : Along (World.step retriedRoutes joined "id" inferCommand)
    (Regular retriedRoutes inferCommand) .start retried := by
  refine ⟨⟨?_, fun h => by cases h.2⟩, ⟨?_, ?_⟩, ⟨?_, ?_⟩, trivial⟩
  · rintro ⟨-, hlast, -⟩
    revert hlast
    decide
  · rintro ⟨-, -, -, hfail, -⟩
    cases hfail
  · rintro ⟨-, hmem⟩
    revert hmem
    decide
  · rintro ⟨hgranted, -⟩
    revert hgranted
    decide
  · rintro ⟨hgranted, -⟩
    revert hgranted
    decide

/-- The next delivery of the copy publishes what is missing. -/
theorem command_kept_regular :
    (run (World.step retriedRoutes joined "id" inferCommand) .start retried).dispatched = [0, 1] ∧
      Finished retriedRoutes joined inferCommand (handle retriedRoutes joined "id" inferCommand ⟨1, 3, 903, flawless⟩
        (run (World.step retriedRoutes joined "id" inferCommand) .start retried)).2 := by
  have hgranted : granted (run (World.step retriedRoutes joined "id" inferCommand) .start retried)
    ⟨1, 3, 903, flawless⟩ = false := by
    decide
  have hregular : Regular retriedRoutes inferCommand (run (World.step retriedRoutes joined "id" inferCommand) .start retried)
      ⟨1, 3, 903, flawless⟩ := by
    refine ⟨fun h => ?_, fun h => ?_⟩
    · cases hgranted.symm.trans h.1
    · cases hgranted.symm.trans h.1
  have hkept := (command_kept retriedRoutes joined "id" inferCommand retried retried_regular).2 ⟨1, 3, 903, flawless⟩
    _ (.inr (by decide))
    hregular rfl
  refine ⟨by decide, ?_⟩
  rcases hkept with hfinished | ⟨hlimit, -⟩ | ⟨-, hnone⟩
  · exact hfinished
  · exact absurd hlimit (by decide)
  · exact absurd ⟨_, rfl, rfl, rfl⟩ (hnone inferred)

def Message.isCommand : Message → Bool
  | .command _ => true
  | _ => false

/-- A completed command is given up with its successor unpublished, and a command
that is not retried is dispatched twice. -/
theorem command_lost :
    ((handle chainRoutes joined "id" inferCommand severed .start).1 = .ok none ∧
      ¬ Kept chainRoutes joined inferCommand (handle chainRoutes joined "id" inferCommand severed .start).2 0) ∧
    maxRetries chainRoutes inferCommand = 0 ∧
    (run (World.step chainRoutes joined "id" inferCommand) .start [refused, refused]).dispatched = [0, 0] := by
  refine ⟨⟨rfl, ?_⟩, rfl, rfl⟩
  rintro (⟨result, hrecorded, -, steps, hsteps, hall⟩ | ⟨hlimit, -⟩ | ⟨-, hnone⟩)
  · obtain ⟨row, hrow, -, hresult⟩ := hrecorded
    obtain rfl : Row.finished (.started 0 900) inferred = row := Option.some.inj hrow
    obtain rfl : inferred = result := Option.some.inj hresult
    obtain rfl : ["store"] = steps := Except.ok.inj hsteps
    obtain ⟨route, -, hmem⟩ := hall "store" (List.mem_singleton_self _)
    have hnothing : ∀ m ∈ (handle chainRoutes joined "id" inferCommand severed .start).2.published, m.isCommand = false := by decide
    cases hnothing _ hmem
  · exact absurd hlimit (by decide)
  · exact hnone inferred ⟨_, rfl, rfl, rfl⟩

end Galadril.Execution
