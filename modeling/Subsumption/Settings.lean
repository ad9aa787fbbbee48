/-!
Settings of a saturation. Numbers are words of 64 bits.
-/
namespace Subsumption

structure Settings where
  workers : UInt64
  /-- How many contexts may be incomplete, whatever the number of workers. -/
  base : UInt64
  /-- How many more for each worker. -/
  perWorker : UInt64
  /-- Whether the times of rules are measured. -/
  ruleTimings : Bool
deriving DecidableEq, Inhabited, Repr

/-- The machine, as far as settings depend on it. -/
structure Machine where
  /-- How many threads it can run at once, if it tells. -/
  parallelism : Option { n : UInt64 // n ≠ 0 }
deriving DecidableEq, Repr

namespace Machine

def workers (host : Machine) : UInt64 := (host.parallelism.map (·.val)).getD 1

theorem workers_ne_zero (host : Machine) : host.workers ≠ 0 := by
  unfold workers
  cases host.parallelism with
  | none => decide
  | some n => exact n.property

/-- A machine that runs one thread at a time. -/
def single : Machine := ⟨some ⟨1, by decide⟩⟩

end Machine

namespace Settings

/-- The largest number of 64 bits, where sums and products stop. -/
def largest : Nat := UInt64.size - 1

/-- How many contexts may be incomplete before new jobs have to wait. -/
def thresholdFor (s : Settings) (workers : Nat) : Nat :=
  min largest (s.base.toNat + min largest (s.perWorker.toNat * workers))

def threshold (s : Settings) : Nat := s.thresholdFor s.workers.toNat

/-- The threshold where a file says nothing: its base, and what each worker adds. -/
def standardThreshold : UInt64 × UInt64 := (64, 32)

/-- Where a file says nothing, no times are measured. -/
def standardTimings : Bool := false

/-- The settings of an empty file: as many workers as the machine can run at once. -/
def standard (host : Machine) : Settings :=
  ⟨host.workers, standardThreshold.1, standardThreshold.2, standardTimings⟩

end Settings

end Subsumption
