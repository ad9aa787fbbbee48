import Subsumption.State

/-!
Jobs: requests for the saturated context of a root. A job's output is written once; the payload is
the caller's and is not looked at.
-/
namespace Subsumption

/-- The place of a job in the table of all jobs. -/
structure JobId where
  index : Nat
deriving DecidableEq, Inhabited, Repr

structure Job (α : Type) where
  root : NodeId
  payload : α
  output : Option ContextId
deriving Repr

/-- Why a job refuses an output. -/
inductive JobError where
  | outputAlreadySet (root : NodeId)
deriving DecidableEq, Repr

def JobError.message : JobError → String
  | .outputAlreadySet root => Event.outputAlreadySetText root

/-- The refusal as an event. -/
def JobError.event : JobError → Event
  | .outputAlreadySet root => .outputAlreadySet root

namespace Job

variable {α : Type} (j : Job α)

def new (root : NodeId) (payload : α) : Job α := ⟨root, payload, none⟩

def isFinished : Bool := j.output.isSome

/-- Writes the output, once. -/
def setOutput (id : ContextId) : Except JobError (Job α) :=
  match j.output with
  | none => .ok { j with output := some id }
  | some _ => .error (.outputAlreadySet j.root)

end Job

end Subsumption
