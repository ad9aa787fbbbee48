import Subsumption.Saturation

/-!
One worker at a time. The worker takes jobs in the order of their submission, hands each root to its
rule engine and runs a pass; after every pass it compares the counters, marks the contexts that are
complete and completes the jobs. Before it takes a job it polls the interruption flag, and it waits
while too many contexts are incomplete; as nobody else is there to complete them, such a wait has no
end.
-/
namespace Subsumption

/-- How a call of the worker ended. -/
inductive Outcome where
  /-- No job was left, or the flag was set. -/
  | returned
  /-- The worker waits for others. -/
  | blocked
  /-- The steps allowed did not suffice. -/
  | unfinished
deriving DecidableEq, Inhabited, Repr

/-- A worker with what it shares with others and what it counted itself. -/
structure Worker (α σ : Type) where
  shared : Saturation α σ
  rules : RuleStatistics
  jobs : JobStatistics

namespace Worker

variable {α σ : Type} (obs : JobObserver α σ) (w : Worker α σ)

/-- A worker that has not counted anything. -/
def new (s : Saturation α σ) : Worker α σ := ⟨s, .zero, .zero⟩

def mapShared (f : Saturation α σ → Saturation α σ) : Worker α σ := { w with shared := f w.shared }

/-- Queues a job; no rule is applied. -/
def submit (id : JobId) : Worker α σ :=
  { w with
    shared := w.shared.pushToDo id
    jobs := { w.jobs with submitted := w.jobs.submitted + 1 } }

/-! ### Passes of the rule engine -/

/-- To the rule engine, the surroundings are the counters, where new contexts are counted, and the
flag. -/
def ruleObserver : RuleObserver (Counters × σ) where
  poll := fun (c, e) =>
    let (b, e) := obs.poll e
    (b, (c, e))
  created := fun _ (c, e) => ({ c with contextsCreated := c.contextsCreated + 1 }, e)

/-- The worker's rule engine. -/
def ruleRun : RuleRun (Counters × σ) :=
  ⟨w.shared.work, w.rules, (w.shared.desk.counters, w.shared.env)⟩

/-- Takes back what the rule engine worked on. -/
def withRules (r : RuleRun (Counters × σ)) : Worker α σ :=
  { w with
    shared := { w.shared with
      work := r.work
      env := r.env.2
      desk := { w.shared.desk with counters := r.env.1 } }
    rules := r.stats }

/-- If no pass is under way and none has been interrupted since the last complete one, all contexts
and jobs counted so far are complete. Says whether more contexts are known to be complete than
before; `finished` is the number of passes that this worker saw finished. -/
def updateProcessed (finished : Nat) : Bool × Worker α σ :=
  let c := w.shared.desk.counters
  if c.workersStarted ≤ c.lastInterrupt then (false, w)
  else if finished < c.workersStarted then (false, w)
  else
    let s := (w.shared.raiseJobsProcessed c.jobsSubmitted).2
    let (advanced, s) := s.raiseContextsProcessed c.contextsCreated
    (advanced, { w with shared := s })

/-- Marks complete contexts saturated, one after the other. -/
def finishContexts : Nat → Worker α σ → Worker α σ
  | 0, w => w
  | n + 1, w => finishContexts n (w.mapShared fun s => s.countContextFinished.markNext)

/-- Gives a job its output, the context of its root, and gives notice of it. -/
def complete (id : JobId) : Worker α σ :=
  match w.shared.work.state.find? (w.shared.rootOf id) with
  | none => w.mapShared fun s => s.report (.jobWithoutContext (s.labelOf id))
  | some output =>
    let w := { w with jobs := { w.jobs with processed := w.jobs.processed + 1 } }
    match w.shared.giveOutput id output with
    | (true, s) =>
      { w with shared := (s.report (.saturationFinished (s.labelOf id))).notify obs id }
    | (false, s) => { w with shared := s }

/-- Completes jobs in the order in which they were handed to the rule engine. -/
def finishJobs (obs : JobObserver α σ) : Nat → Worker α σ → Worker α σ
  | 0, w => w
  | n + 1, w =>
    let w := w.mapShared (·.countJobFinished)
    match w.shared.popInProgress? with
    | none => w.mapShared (·.report .noJobToFinish)
    | some (id, s) => finishJobs obs n (complete obs { w with shared := s } id)

/-- Ends a pass, which was interrupted or not, and finishes what has been found complete. -/
def leaveRules (interrupted : Bool) : Worker α σ :=
  let w :=
    if interrupted then
      w.mapShared fun s => (s.raiseInterrupt s.desk.counters.workersStarted).2
    else w
  let w := w.mapShared (·.endPass)
  let (advanced, w) := w.updateProcessed w.shared.desk.counters.workersFinished
  let c := w.shared.desk.counters
  let w := w.finishContexts (c.contextsProcessed - c.contextsFinished)
  let w := finishJobs obs (c.jobsProcessed - c.jobsFinished) w
  if advanced && w.shared.desk.waiting then w.mapShared (·.setWaiting false) else w

/-- One pass over whatever is waiting. -/
def runRules : Worker α σ :=
  let w := w.mapShared (·.startPass)
  let (interrupted, r) := w.ruleRun.process (ruleObserver obs) w.shared.desk.timed
  (w.withRules r).leaveRules obs interrupted

/-- One pass for a job that has just been taken. -/
def runJob (id : JobId) : Worker α σ :=
  let w := w.mapShared fun s => s.report (.saturationStarted (s.labelOf id))
  let w := w.mapShared fun s => (s.startPass.pushInProgress id).countSubmitted
  let r := (w.ruleRun.submit (ruleObserver obs) (w.shared.rootOf id)).2
  let (interrupted, r) := r.process (ruleObserver obs) w.shared.desk.timed
  (w.withRules r).leaveRules obs interrupted

/-- The place of the saturated context of a root, if there is one. -/
def saturated? (root : NodeId) : Option ContextId :=
  match w.shared.work.state.find? root with
  | some id => if ((w.shared.work.context? id).map (·.saturated)).getD false then some id else none
  | none => none

/-- Completes a job without any rule. -/
def completeAtOnce (id : JobId) (output : ContextId) : Worker α σ :=
  let w := { w with jobs := { w.jobs with alreadyDone := w.jobs.alreadyDone + 1 } }
  match w.shared.giveOutput id output with
  | (true, s) => { w with shared := s.notify obs id }
  | (false, s) => { w with shared := s }

/-! ### The loop over the jobs -/

/-- Waits for contexts to be completed, unless the flag is set. -/
def park : Bool × Worker α σ :=
  let w := { w with
    shared := w.shared.setWaiting true
    jobs := { w.jobs with parkings := w.jobs.parkings + 1 } }
  let (interrupted, s) := w.shared.poll obs
  (interrupted, { w with shared := s })

/-- Goes round the loop at most `fuel` times. -/
def loop (obs : JobObserver α σ) : Nat → Worker α σ → Outcome × Worker α σ
  | 0, w => (.unfinished, w)
  | fuel + 1, w =>
    match w.shared.poll obs with
    | (true, s) => (.returned, { w with shared := s })
    | (false, s) =>
      let w := { w with shared := s }
      if w.shared.desk.isFull w.shared.desk.counters.contextsProcessed then
        match w.park obs with
        | (true, w) => loop obs fuel w
        | (false, w) => (.blocked, w)
      else
        match w.shared.popToDo? with
        | none => (.returned, w)
        | some (id, s) =>
          let w := { w with shared := s }
          match w.saturated? (w.shared.rootOf id) with
          | some output => loop obs fuel (w.completeAtOnce obs id output)
          | none => loop obs fuel (w.runJob obs id)

/-- Works until no job is left or the flag is set, for at most `fuel` rounds. Work left over by an
interrupted call comes first. -/
def processWithin (fuel : Nat) : Outcome × Worker α σ := loop obs fuel (w.runRules obs)

/-- Each round takes a job, but for one that finds the flag set and one that finds no job. -/
def process : Outcome × Worker α σ :=
  let w := w.runRules obs
  loop obs (w.shared.desk.toDo.length + 2) w

/-- Adds the worker's counts to the sums; it is not used any more. -/
def finish : Saturation α σ := w.shared.collect w.rules w.jobs

end Worker

namespace Saturation

variable {α σ : Type} (obs : JobObserver α σ) (s : Saturation α σ)

/-- What is reported when a run begins. -/
def runStarted (workers : Nat) : Saturation α σ :=
  s.report (.runStarted s.desk.toDo.length workers)

/-- What is reported when a run has ended, and whether it was interrupted. -/
def runEnded : Bool × Saturation α σ :=
  let (interrupted, s) := s.poll obs
  let c := s.desk.counters
  (interrupted, s.report (.runEnded interrupted c.contextsCreated c.jobsFinished))

/-- Lets one worker process the jobs; says whether the run was interrupted. -/
def run : Outcome × Bool × Saturation α σ :=
  let (outcome, w) := (Worker.new (s.runStarted 1)).process obs
  let (interrupted, s) := w.finish.runEnded obs
  (outcome, interrupted, s)

end Saturation

end Subsumption
