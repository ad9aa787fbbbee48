/-!
Counters of one saturation. They only grow. Created, processed and finished contexts are compared to
find out which contexts are complete, and likewise jobs; that no pass of the rule engine is under
way is seen from the numbers of passes started and finished.
-/
namespace Subsumption

structure Counters where
  contextsCreated : Nat
  /-- Contexts known to be complete, in the order of their creation. -/
  contextsProcessed : Nat
  /-- Contexts marked saturated. -/
  contextsFinished : Nat
  /-- Jobs handed to the rule engine, those done before not counted. -/
  jobsSubmitted : Nat
  jobsProcessed : Nat
  /-- Jobs that were completed. -/
  jobsFinished : Nat
  workersStarted : Nat
  workersFinished : Nat
  /-- The number of started passes that the latest interrupted pass saw. -/
  lastInterrupt : Nat
deriving DecidableEq, Inhabited, Repr

namespace Counters

def zero : Counters := ⟨0, 0, 0, 0, 0, 0, 0, 0, 0⟩

/-- Raises a counter to a value, unless it is there or beyond; says whether it was raised. -/
def raise (counter value : Nat) : Bool × Nat :=
  if value ≤ counter then (false, counter) else (true, value)

theorem raise_snd (counter value : Nat) : (raise counter value).2 = max counter value := by
  unfold raise
  split
  · rename_i h
    exact (Nat.max_eq_left h).symm
  · rename_i h
    exact (Nat.max_eq_right (Nat.le_of_not_le h)).symm

theorem raise_fst (counter value : Nat) :
    (raise counter value).1 = true ↔ counter < (raise counter value).2 := by
  unfold raise
  split <;> simp
  omega

end Counters

end Subsumption
