import Subsumption.Tally
import Subsumption.Event

/-!
What a rule engine counts: conclusions produced and processed, contexts taken, rules applied. Each
worker counts for itself, and its counts are added to those of the others when it is done. Times are
not kept, only how many applications had theirs measured.
-/
namespace Subsumption

structure RuleStatistics where
  produced : Tally 7
  processed : Tally 7
  /-- How often a context was taken from the active queue. -/
  contexts : Nat
  rules : Tally 5
  timedRules : Tally 5
  decompositions : Nat
  timedDecompositions : Nat
deriving DecidableEq, Repr

namespace RuleStatistics

variable (s t : RuleStatistics)

def zero : RuleStatistics := ⟨.zero, .zero, 0, .zero, .zero, 0, 0⟩

instance : Inhabited RuleStatistics := ⟨zero⟩

def countProduced (k : ConclusionKind) : RuleStatistics :=
  { s with produced := s.produced.bump k.index }

def countProcessed (k : ConclusionKind) : RuleStatistics :=
  { s with processed := s.processed.bump k.index }

def countContext : RuleStatistics := { s with contexts := s.contexts + 1 }

def countRule (timed : Bool) (k : RuleKind) : RuleStatistics :=
  { s with
    rules := s.rules.bump k.index
    timedRules := if timed then s.timedRules.bump k.index else s.timedRules }

def countDecomposition (timed : Bool) : RuleStatistics :=
  { s with
    decompositions := s.decompositions + 1
    timedDecompositions := if timed then s.timedDecompositions + 1 else s.timedDecompositions }

/-- The counts of two workers taken together. -/
def add : RuleStatistics where
  produced := s.produced.add t.produced
  processed := s.processed.add t.processed
  contexts := s.contexts + t.contexts
  rules := s.rules.add t.rules
  timedRules := s.timedRules.add t.timedRules
  decompositions := s.decompositions + t.decompositions
  timedDecompositions := s.timedDecompositions + t.timedDecompositions

/-- Whether no time was measured. -/
def untimed : Bool := s.timedRules.total == 0 && s.timedDecompositions == 0

/-- The report of all counts that are not zero. -/
def summary : List Event :=
  [.conclusionsCounted s.contexts s.produced.total s.processed.total]
  ++ (ConclusionKind.all.filter fun k => 0 < s.produced.get k.index).map (fun k =>
      .kindCounted k (s.produced.get k.index) (s.processed.get k.index))
  ++ (RuleKind.all.filter fun k => 0 < s.rules.get k.index).map (fun k =>
      .ruleCounted k (s.rules.get k.index) (0 < s.timedRules.get k.index))
  ++ (if 0 < s.decompositions then
      [.decompositionsCounted s.decompositions (0 < s.timedDecompositions)] else [])

end RuleStatistics

end Subsumption
