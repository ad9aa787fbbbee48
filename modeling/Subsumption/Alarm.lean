import Subsumption.Saturation

/-!
Alarms: surroundings in which the interruption flag is set by a notice. An alarm counts the notices
it hears, keeps what they said, and raises its flag when the count reaches a given number; the flag
stays up until it is lowered.
-/
namespace Subsumption

structure Alarm (β : Type) where
  raised : Bool
  /-- The number of the notice that raises the flag, if one does. -/
  ringAt : Option Nat
  count : Nat
  heard : List β
deriving Repr

namespace Alarm

variable {α β : Type} (a : Alarm β)

def new (ringAt : Option Nat) : Alarm β := ⟨false, ringAt, 0, []⟩

def hear (x : β) : Alarm β :=
  { a with
    raised := a.raised || a.ringAt == some (a.count + 1)
    count := a.count + 1
    heard := a.heard ++ [x] }

def setRaised (b : Bool) : Alarm β := { a with raised := b }

/-- Forgets what was heard, but not how much. -/
def forget : Alarm β := { a with heard := [] }

/-- Hears of new contexts: the root, and how much is pending there. -/
def ofContexts : RuleObserver (Alarm (NodeId × Nat)) where
  poll a := (a.raised, a)
  created c a := a.hear (c.root, c.pending.length)

/-- Hears of completed jobs: the payload, and whether the output is saturated. -/
def ofJobs : JobObserver α (Alarm (α × Bool)) where
  poll a := (a.raised, a)
  finished j c a := a.hear (j.payload, c.saturated)

end Alarm

end Subsumption
