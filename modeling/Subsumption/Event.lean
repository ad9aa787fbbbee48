import Subsumption.Ids
import Subsumption.Conclusion
import Subsumption.Rule

/-!
Events: what a saturation reports while it runs, each with a level and a text. Roots are named by
their text at the time of the event. No time is measured here; a duration that is not zero is
written `<t>`.
-/
namespace Subsumption

/-- Levels of events, the most urgent first. -/
inductive Level where
  | error
  | warn
  | info
  | debug
  | trace
deriving DecidableEq, Inhabited, Repr

namespace Level

def rank : Level → Nat
  | .error => 0
  | .warn => 1
  | .info => 2
  | .debug => 3
  | .trace => 4

def text : Level → String
  | .error => "ERROR"
  | .warn => "WARN"
  | .info => "INFO"
  | .debug => "DEBUG"
  | .trace => "TRACE"

/-- A reader at level `l` is shown the events of that level and of all more urgent ones. -/
def shows (l m : Level) : Bool := m.rank ≤ l.rank

end Level

inductive Event where
  | contextSaturated (root : String)
  | contextAlreadySaturated (root : String)
  | noContextToMark
  | contextInconsistent (root : String)
  | contextsKept (kept total invalidated copied : Nat)
  | saturationStarted (root : String)
  | saturationFinished (root : String)
  | outputAlreadySet (root : NodeId)
  | jobWithoutContext (root : String)
  | noJobToFinish
  | jobsUnaccounted (submitted alreadyDone processed : Nat)
  | jobsCounted (submitted alreadyDone processed : Nat)
  | parkings (count : Nat)
  | runStarted (pending workers : Nat)
  | runEnded (interrupted : Bool) (created finished : Nat)
  | conclusionsCounted (contexts produced processed : Nat)
  | kindCounted (kind : ConclusionKind) (produced processed : Nat)
  | ruleCounted (kind : RuleKind) (applications : Nat) (timed : Bool)
  | decompositionsCounted (applications : Nat) (timed : Bool)
deriving DecidableEq, Repr

namespace Event

def level : Event → Level
  | .contextSaturated _ | .contextInconsistent _ | .saturationStarted _
  | .saturationFinished _ => .trace
  | .contextAlreadySaturated _ | .noContextToMark | .jobWithoutContext _ | .noJobToFinish
  | .jobsUnaccounted _ _ _ => .error
  | .outputAlreadySet _ => .warn
  | .runEnded _ _ _ => .info
  | .contextsKept _ _ _ _ | .jobsCounted _ _ _ | .parkings _ | .runStarted _ _
  | .conclusionsCounted _ _ _ | .kindCounted _ _ _ | .ruleCounted _ _ _
  | .decompositionsCounted _ _ => .debug

/-- The time that rule applications took. -/
def timeText (timed : Bool) : String := if timed then "<t>" else "0ns"

/-- The refusal to give a job a second output. -/
def outputAlreadySetText (root : NodeId) : String :=
  "output of the saturation job for " ++ root.text ++ " was already set"

def text : Event → String
  | .contextSaturated root => root ++ ": context saturated"
  | .contextAlreadySaturated root => root ++ ": context was already marked saturated"
  | .noContextToMark => "No unsaturated context left to mark saturated"
  | .contextInconsistent root => root ++ ": inconsistent"
  | .contextsKept kept total invalidated copied =>
    s!"Re-saturation keeps {kept} of {total} contexts ({invalidated} invalidated roots, {copied} copied)"
  | .saturationStarted root => root ++ ": saturation started"
  | .saturationFinished root => root ++ ": saturation finished"
  | .outputAlreadySet root => outputAlreadySetText root
  | .jobWithoutContext root => root ++ ": finished job has no context"
  | .noJobToFinish => "Job counter advanced past the jobs in progress"
  | .jobsUnaccounted submitted alreadyDone processed =>
    s!"Some submitted saturation jobs were not processed: {submitted} submitted, {alreadyDone} already done, {processed} processed"
  | .jobsCounted submitted alreadyDone processed =>
    s!"Saturation jobs submitted=done+processed: {submitted}={alreadyDone}+{processed}"
  | .parkings count => s!"Locks: {count}"
  | .runStarted pending workers => s!"Saturating {pending} pending jobs with {workers} workers"
  | .runEnded interrupted created finished =>
    "Saturation " ++ (if interrupted then "interrupted" else "done") ++
      s!" after <t>: {created} contexts created, {finished} jobs finished"
  | .conclusionsCounted contexts produced processed =>
    s!"Contexts processed: {contexts}, conclusions produced/processed: {produced}/{processed}"
  | .kindCounted kind produced processed =>
    "  " ++ kind.text ++ s!": produced {produced}, processed {processed}"
  | .ruleCounted kind applications timed =>
    "  rule " ++ kind.text ++ s!": {applications} applications, " ++ timeText timed
  | .decompositionsCounted applications timed =>
    s!"  decomposition: {applications} applications, " ++ timeText timed

end Event

end Subsumption
