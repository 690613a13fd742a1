import Galadril.Lib.Transitions

namespace Galadril.Execution

variable {ρ : Type}

inductive Status
  | running
  | completed
  | failed
  deriving DecidableEq

structure Row (ρ : Type) where
  status : Status
  attempt : Nat
  leaseExpires : Int
  result : Option ρ
  error : Option String
  deriving DecidableEq

inductive Claim (ρ : Type)
  | acquired
  | completed (result : ρ)
  | inProgress
  deriving DecidableEq

def Row.started (attempt : Nat) (deadline : Int) : Row ρ := ⟨.running, attempt, deadline, none, none⟩

def Row.resumed (row : Row ρ) (attempt : Nat) (deadline : Int) : Row ρ :=
  { row with status := .running, attempt := attempt, error := none, leaseExpires := deadline }

def Row.acquirable (row : Row ρ) (now : Int) : Bool := row.status = .failed || row.leaseExpires < now

def Row.answer (row : Row ρ) : Claim ρ :=
  match row.status, row.result with
  | .completed, some result => .completed result
  | _, _ => .inProgress

def claim (row : Option (Row ρ)) (attempt : Nat) (now deadline : Int) : Row ρ × Claim ρ :=
  match row with
  | none => (.started attempt deadline, .acquired)
  | some row => if row.acquirable now then (row.resumed attempt deadline, .acquired) else (row, row.answer)

def Row.finished (row : Row ρ) (result : ρ) : Row ρ :=
  { row with status := .completed, result := some result, error := none }

def Row.released (row : Row ρ) (error : String) : Row ρ :=
  { row with status := .failed, error := some (String.ofList (error.toList.take 4096)) }

def running (row : Option (Row ρ)) : Bool := row.any fun row => row.status = .running

/-- Nothing is written unless the row is running, and then the call raises. -/
def complete (row : Option (Row ρ)) (result : ρ) : Except String (Option (Row ρ)) :=
  if running row then .ok (row.map fun row => row.finished result)
  else .error "Execution lease was lost before completion"

def fail (row : Option (Row ρ)) (error : String) : Option (Row ρ) :=
  if running row then row.map fun row => row.released error else row

end Galadril.Execution
