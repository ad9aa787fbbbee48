import Subsumption.Counters
import Subsumption.Job
import Subsumption.JobStatistics
import Subsumption.RuleEngine

/-!
A saturation: the jobs of many roots over one state. The dispatcher holds what its workers share
besides the contexts: the queue of jobs to do, the jobs in progress in the order in which they were
handed to the rule engine, the counters, and the sums of what finished workers counted.

Here are the actions on the shared data that a worker is made of; `Worker` strings them together
for one worker alone, `Crew` for several at once.
-/
namespace Subsumption

/-- How the surroundings answer a poll of the interruption flag and take the notice of a job that
has got its output. -/
structure JobObserver (α σ : Type) where
  poll : σ → Bool × σ
  finished : Job α → Context → σ → σ

structure Dispatcher where
  /-- How many contexts may be incomplete before new jobs have to wait. -/
  threshold : Nat
  /-- Whether rule times are measured. -/
  timed : Bool
  counters : Counters
  toDo : List JobId
  inProgress : List JobId
  /-- Whether a worker may be waiting for contexts to be completed. -/
  waiting : Bool
  ruleTotals : RuleStatistics
  jobTotals : JobStatistics
deriving Repr

structure Saturation (α σ : Type) where
  work : Workspace
  jobs : Array (Job α)
  desk : Dispatcher
  env : σ

namespace Dispatcher

variable (d : Dispatcher)

def new (threshold : Nat) (timed : Bool) : Dispatcher :=
  ⟨threshold, timed, .zero, [], [], false, .zero, .zero⟩

/-- Too many contexts are incomplete, of those created so far and the given number processed. -/
def isFull (processed : Nat) : Bool :=
  d.threshold < d.counters.contextsCreated - processed

/-- What is wrong with the sums of the workers' counts, if anything. -/
def check : List Event :=
  if d.jobTotals.isConsistent then []
  else [.jobsUnaccounted d.jobTotals.submitted d.jobTotals.alreadyDone d.jobTotals.processed]

/-- The report of all counts. -/
def summary : List Event :=
  d.ruleTotals.summary ++ d.check
  ++ (if 0 < d.jobTotals.submitted then
      [.jobsCounted d.jobTotals.submitted d.jobTotals.alreadyDone d.jobTotals.processed] else [])
  ++ [.parkings d.jobTotals.parkings]

end Dispatcher

namespace Saturation

variable {α σ : Type} (obs : JobObserver α σ) (s : Saturation α σ)

def report (e : Event) : Saturation α σ := { s with work := s.work.report e }

def reportAll (es : List Event) : Saturation α σ :=
  { s with work := { s.work with events := s.work.events ++ es } }

def mapCounters (f : Counters → Counters) : Saturation α σ :=
  { s with desk := { s.desk with counters := f s.desk.counters } }

def job? (id : JobId) : Option (Job α) := s.jobs[id.index]?

/-! ### Single actions -/

/-- Polls the interruption flag. -/
def poll : Bool × Saturation α σ :=
  let (b, env) := obs.poll s.env
  (b, { s with env })

def pushToDo (id : JobId) : Saturation α σ :=
  { s with desk := { s.desk with toDo := s.desk.toDo ++ [id] } }

def popToDo? : Option (JobId × Saturation α σ) :=
  match s.desk.toDo with
  | [] => none
  | id :: rest => some (id, { s with desk := { s.desk with toDo := rest } })

def pushInProgress (id : JobId) : Saturation α σ :=
  { s with desk := { s.desk with inProgress := s.desk.inProgress ++ [id] } }

def popInProgress? : Option (JobId × Saturation α σ) :=
  match s.desk.inProgress with
  | [] => none
  | id :: rest => some (id, { s with desk := { s.desk with inProgress := rest } })

def setWaiting (b : Bool) : Saturation α σ := { s with desk := { s.desk with waiting := b } }

/-- Sets or clears the interruption flag, as the surroundings keep it. When it is set, nobody counts
as waiting any more. -/
def setInterrupt (setFlag : Bool → σ → σ) (b : Bool) : Saturation α σ :=
  let s := { s with env := setFlag b s.env }
  if b then s.setWaiting false else s

def startPass : Saturation α σ :=
  s.mapCounters fun c => { c with workersStarted := c.workersStarted + 1 }

def endPass : Saturation α σ :=
  s.mapCounters fun c => { c with workersFinished := c.workersFinished + 1 }

def countSubmitted : Saturation α σ :=
  s.mapCounters fun c => { c with jobsSubmitted := c.jobsSubmitted + 1 }

def countCreated : Saturation α σ :=
  s.mapCounters fun c => { c with contextsCreated := c.contextsCreated + 1 }

def countContextFinished : Saturation α σ :=
  s.mapCounters fun c => { c with contextsFinished := c.contextsFinished + 1 }

def countJobFinished : Saturation α σ :=
  s.mapCounters fun c => { c with jobsFinished := c.jobsFinished + 1 }

/-- Remembers that a pass was interrupted when so many had been started. -/
def raiseInterrupt (started : Nat) : Bool × Saturation α σ :=
  let (b, v) := Counters.raise s.desk.counters.lastInterrupt started
  (b, s.mapCounters ({ · with lastInterrupt := v }))

def raiseJobsProcessed (submitted : Nat) : Bool × Saturation α σ :=
  let (b, v) := Counters.raise s.desk.counters.jobsProcessed submitted
  (b, s.mapCounters ({ · with jobsProcessed := v }))

def raiseContextsProcessed (created : Nat) : Bool × Saturation α σ :=
  let (b, v) := Counters.raise s.desk.counters.contextsProcessed created
  (b, s.mapCounters ({ · with contextsProcessed := v }))

/-- Marks the oldest unsaturated context. -/
def markNext : Saturation α σ := { s with work := s.work.markNext.2 }

/-- Writes the output of a job, or reports that it has one. -/
def giveOutput (id : JobId) (output : ContextId) : Bool × Saturation α σ :=
  match s.job? id with
  | some j =>
    match j.setOutput output with
    | .ok j' => (true, { s with jobs := s.jobs.setIfInBounds id.index j' })
    | .error e => (false, s.report e.event)
  | none => (false, s)

/-- Gives notice of a job that has got its output. -/
def notify (id : JobId) : Saturation α σ :=
  match s.job? id with
  | some j =>
    match j.output.bind s.work.context? with
    | some c => { s with env := obs.finished j c s.env }
    | none => s
  | none => s

/-- The root that a job asks for. -/
def rootOf (id : JobId) : NodeId := ((s.job? id).map (·.root)).getD default

/-- The text of the root that a job asks for. -/
def labelOf (id : JobId) : String := s.work.label (s.rootOf id)

/-- Adds up what a worker counted that is done. -/
def collect (rules : RuleStatistics) (jobs : JobStatistics) : Saturation α σ :=
  { s with desk := { s.desk with
      ruleTotals := s.desk.ruleTotals.add rules
      jobTotals := s.desk.jobTotals.add jobs } }

end Saturation

end Subsumption
