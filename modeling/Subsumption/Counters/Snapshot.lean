import Subsumption.Counters

/-!
Snapshots of the counters. An observer reads the counters one by one, while the workers may go on
between two reads. What is behind is read before what it follows: finished before processed, and
processed before created.
-/
namespace Subsumption

/-- A counter by its name. -/
inductive Counter where
  | contextsCreated
  | contextsProcessed
  | contextsFinished
  | jobsSubmitted
  | jobsProcessed
  | jobsFinished
  | workersStarted
  | workersFinished
  | lastInterrupt
deriving DecidableEq, Inhabited, Repr

namespace Counters

variable (k : Counters)

def read : Counter → Nat
  | .contextsCreated => k.contextsCreated
  | .contextsProcessed => k.contextsProcessed
  | .contextsFinished => k.contextsFinished
  | .jobsSubmitted => k.jobsSubmitted
  | .jobsProcessed => k.jobsProcessed
  | .jobsFinished => k.jobsFinished
  | .workersStarted => k.workersStarted
  | .workersFinished => k.workersFinished
  | .lastInterrupt => k.lastInterrupt

def write (v : Nat) : Counter → Counters
  | .contextsCreated => { k with contextsCreated := v }
  | .contextsProcessed => { k with contextsProcessed := v }
  | .contextsFinished => { k with contextsFinished := v }
  | .jobsSubmitted => { k with jobsSubmitted := v }
  | .jobsProcessed => { k with jobsProcessed := v }
  | .jobsFinished => { k with jobsFinished := v }
  | .workersStarted => { k with workersStarted := v }
  | .workersFinished => { k with workersFinished := v }
  | .lastInterrupt => { k with lastInterrupt := v }

theorem read_write (v : Nat) (i j : Counter) :
    (k.write v i).read j = if j = i then v else k.read j := by
  cases i <;> cases j <;> rfl

/-- The order in which a snapshot reads the counters. -/
def readingOrder : List Counter :=
  [.contextsFinished, .contextsProcessed, .contextsCreated, .jobsFinished, .jobsProcessed,
    .jobsSubmitted, .workersFinished, .workersStarted, .lastInterrupt]

end Counters

/-- A snapshot that is being taken: what has been read, and the counters still to be read. -/
structure Snapshot where
  taken : Counters
  left : List Counter
deriving DecidableEq, Repr

namespace Snapshot

def start : Snapshot := ⟨.zero, Counters.readingOrder⟩

/-- Reads the next counter, if one is left. -/
def load (k : Counters) (t : Snapshot) : Snapshot :=
  match t.left with
  | [] => t
  | i :: rest => ⟨t.taken.write (k.read i) i, rest⟩

/-- While nobody changes the counters, a snapshot is what they are. -/
theorem taken_still (k : Counters) :
    (Counters.readingOrder.foldl (fun t _ => t.load k) start).taken = k := by
  cases k
  rfl

end Snapshot

end Subsumption
