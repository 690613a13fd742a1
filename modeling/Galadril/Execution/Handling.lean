import Galadril.Json.Value
import Galadril.Lib.Checked
import Galadril.Execution.Ledger
import Galadril.Lib.Attempts
import Galadril.Lib.Text
import Galadril.Registry.Identity

namespace Galadril.Execution

open Json Lib.Checked

inductive StepType
  | inference
  | resolve
  | sink
  | dbt
  | causal
  | algorithm
  | route
  | pipeline
  | forward
  | filter
  deriving DecidableEq

inductive ResourceClass
  | cpu
  | gpu
  | causal
  deriving DecidableEq

structure StepRoute where
  step : String
  stepType : StepType
  resourceClass : ResourceClass
  dependencies : List String
  downstream : List String
  scheduled : Bool
  maxRetries : Nat
  deriving DecidableEq

/-- Routes are compiled once, when the pipeline is loaded. -/
structure RouteTable where
  routes : List StepRoute
  sourceEntries : List (String × List String)
  branches : List (String × List (String × List String))
  filters : List String

variable (table : RouteTable)

def RouteTable.route (step : String) : Except String StepRoute :=
  context (table.routes.find? fun r => r.step == step) ("Unknown pipeline step: '" ++ step ++ "'")

def RouteTable.entrySteps (source : String) : Except String (List String) :=
  context (table.sourceEntries.lookup source) ("Unknown pipeline source: '" ++ source ++ "'")

/-- The consumers of a step's output. The decision of a filter and the label of
a route are read from the output. -/
def RouteTable.successors (step : String) (output : Members) : Except String (List String) :=
  if table.filters.contains step then
    match output.field "filter_accepted" with
    | some (.bool true) => do return (← table.route step).downstream
    | some (.bool false) => .ok []
    | _ => .error "Filter requires an explicit boolean decision"
  else
    match table.branches.lookup step with
    | none => do return (← table.route step).downstream
    | some branches =>
        match (output.field "branch").bind Value.asStr with
        | none => .error "Routing result requires a declared branch label"
        | some label => context (branches.lookup label) "Routing result requires a declared branch label"

open Lib.Transitions Lib.Attempts Lib.Attempts.Attempt

inductive EventStatus
  | accepted
  | running
  | completed
  | failed
  | rejected
  | skipped
  deriving DecidableEq

structure PipelineCommand where
  eventId : String
  correlationId : String
  causationId : Option String
  tenantId : String
  entityId : Option String
  pipeline : String
  step : String
  stepType : StepType
  resourceClass : ResourceClass
  attempt : Nat
  payload : Members
  attributes : Members
  deriving DecidableEq

def PipelineCommand.idempotencyKey (c : PipelineCommand) : String := c.eventId ++ ":" ++ c.pipeline ++ ":" ++ c.step

structure StepResult where
  eventId : String
  correlationId : String
  causationId : Option String
  tenantId : String
  entityId : Option String
  pipeline : String
  commandId : String
  step : String
  stepType : StepType
  resourceClass : ResourceClass
  status : EventStatus
  attempt : Nat
  output : Members
  errorType : Option String
  errorMessage : Option String
  deriving DecidableEq

structure Failure where
  name : String
  text : String
  deriving DecidableEq

inductive Message
  | command (command : PipelineCommand)
  | result (result : StepResult)
  | deadLetter (result : StepResult)
  | lineage (status : EventStatus) (attempt : Nat) (result : Option StepResult)
  deriving DecidableEq

/-- The ledger's row of a command, what was published, and the attempts that
were dispatched. -/
structure World where
  row : Option (Row StepResult)
  published : List Message
  dispatched : List Nat

abbrev Handling (α : Type) : Type := Attempt World Failure α

def publish (fault : Option Failure) (m : Message) : Handling Unit :=
  call fault fun w => (.ok (), { w with published := w.published ++ [m] })

def lookedUp {α : Type} (x : Except String α) : Handling α := lift (x.mapError (Failure.mk "RouteCompilationError"))

/-- What goes wrong in one delivery. A message that cannot be built is one that
cannot be published. -/
structure Faults where
  claim : Option Failure
  running : Option Failure
  dispatch : Except Failure StepResult
  complete : Option Failure
  result : Option Failure
  completedLineage : Option Failure
  successor : Nat → Option Failure
  fail : Option Failure
  copy : Option Failure
  failedLineage : Option Failure

/-- One delivery of a command: the attempt it carries, the clocks at its claim,
and what goes wrong. -/
structure Delivery where
  attempt : Nat
  now : Int
  deadline : Int
  faults : Faults

variable (routes : RouteTable) (uuid5 : String → String → String) (uuid4 : String)

def downstream (command : PipelineCommand) (result : StepResult) (route : StepRoute) : PipelineCommand where
  eventId := uuid5 command.eventId ("step:" ++ route.step)
  correlationId := command.correlationId
  causationId := some result.eventId
  tenantId := command.tenantId
  entityId := command.entityId
  pipeline := command.pipeline
  step := route.step
  stepType := route.stepType
  resourceClass := route.resourceClass
  attempt := 0
  payload := result.output
  attributes := [("parent_command_id", .string command.eventId), ("parent_result_id", .string result.eventId)]

def publishEach (faults : Faults) (command : PipelineCommand) (result : StepResult) : List String → Nat → Handling Unit
  | [], _ => pure ()
  | step :: rest, i => do
      let route ← lookedUp (routes.route step)
      publish (faults.successor i) (.command (downstream uuid5 command result route))
      publishEach faults command result rest (i + 1)

def publishSuccessors (faults : Faults) (command : PipelineCommand) (result : StepResult) : Handling Unit := do
  publish faults.result (.result result)
  publish faults.completedLineage (.lineage .completed command.attempt (some result))
  let steps ← lookedUp (routes.successors command.step result.output)
  publishEach routes uuid5 faults command result steps 0

def claimed (d : Delivery) : Handling (Claim StepResult) :=
  call d.faults.claim fun w => (.ok (claim w.row d.attempt d.now d.deadline).2,
    { w with row := (claim w.row d.attempt d.now d.deadline).1 })

def dispatch (d : Delivery) : Handling StepResult := fun w =>
  (d.faults.dispatch, { w with dispatched := w.dispatched ++ [d.attempt] })

def completed (faults : Faults) (result : StepResult) : Handling Unit :=
  call faults.complete fun w =>
    match complete w.row result with
    | .ok row => (.ok (), { w with row := row })
    | .error e => (.error ⟨"RuntimeError", e⟩, w)

def failed (faults : Faults) (error : Failure) : Handling Unit :=
  call faults.fail fun w => (.ok (), { w with row := fail w.row error.text })

def failureOf (command : PipelineCommand) (error : Failure) : StepResult where
  eventId := uuid4
  correlationId := command.correlationId
  causationId := some command.eventId
  tenantId := command.tenantId
  entityId := command.entityId
  pipeline := command.pipeline
  commandId := command.eventId
  step := command.step
  stepType := command.stepType
  resourceClass := command.resourceClass
  status := .failed
  attempt := command.attempt
  output := []
  errorType := some error.name
  errorMessage := some error.text

def eventString (s : String) : Bool :=
  let stripped := Lib.Text.trimBy Registry.Identity.isWhitespace s.toList
  1 ≤ stripped.length && stripped.length ≤ 255

def reportable (error : Failure) : Bool := eventString error.name && error.text.length ≤ 4096

def handleFailure (faults : Faults) (command : PipelineCommand) (error : Failure) : Handling Unit := do
  let route ← lookedUp (routes.route command.step)
  if command.attempt < route.maxRetries then
    publish faults.copy (.command { command with attempt := command.attempt + 1 })
    publish faults.failedLineage (.lineage .failed command.attempt none)
  else
    lift (ensure (reportable error) ⟨"ValidationError", "StepResult"⟩)
    publish faults.copy (.deadLetter (failureOf uuid4 command error))
    publish faults.failedLineage (.lineage .failed command.attempt (some (failureOf uuid4 command error)))

def execute (command : PipelineCommand) (d : Delivery) : Handling (Option StepResult) := do
  let result ← dispatch d
  let _ ← lookedUp (routes.successors command.step result.output)
  completed d.faults result
  publishSuccessors routes uuid5 d.faults command result
  return some result

/-- Whatever went wrong, the claim is released and the command is tried again or
given up. -/
def recover (command : PipelineCommand) (d : Delivery) (error : Failure) : Handling (Option StepResult) := do
  failed d.faults error
  handleFailure routes uuid4 d.faults command error
  return none

/-- One delivery of a command. Nothing is returned for a failed execution. -/
def handle (command : PipelineCommand) (d : Delivery) : Handling (Option StepResult) := do
  let command := { command with attempt := d.attempt }
  match ← claimed d with
  | .inProgress => lift (.error ⟨"CommandInProgress", command.idempotencyKey⟩)
  | .completed result =>
      publishSuccessors routes uuid5 d.faults command result
      return some result
  | .acquired =>
      publish d.faults.running (.lineage .running d.attempt none)
      catching (execute routes uuid5 command d) (recover routes uuid4 command d)

end Galadril.Execution
