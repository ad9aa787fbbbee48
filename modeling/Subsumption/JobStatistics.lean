/-!
What a worker counts about jobs. The counts of all workers are added up when they are done.
-/
namespace Subsumption

structure JobStatistics where
  submitted : Nat
  /-- Jobs whose root was saturated already when they were taken. -/
  alreadyDone : Nat
  processed : Nat
  /-- How often the worker waited because too many contexts were incomplete. -/
  parkings : Nat
deriving DecidableEq, Inhabited, Repr

namespace JobStatistics

variable (s t : JobStatistics)

def zero : JobStatistics := ⟨0, 0, 0, 0⟩

def add : JobStatistics :=
  ⟨s.submitted + t.submitted, s.alreadyDone + t.alreadyDone, s.processed + t.processed,
    s.parkings + t.parkings⟩

/-- Whether every submitted job is accounted for. -/
def isConsistent : Bool := s.submitted == s.alreadyDone + s.processed

end JobStatistics

end Subsumption
