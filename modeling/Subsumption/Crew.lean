import Subsumption.Crew.Agenda
import Subsumption.Worker

/-!
Several workers at once. A crew is what the workers share, the lock of the place where they wait,
and for each worker its program counter and its own counts. One step of a worker is one atomic
action on the shared data, so every interleaving of the workers is a sequence of steps; a worker
that has to wait for a lock or for a call has no step.
-/
namespace Subsumption

/-- Where a worker is in its program, with the values that it has read so far. An argument
`advanced` says whether the worker itself raised the number of processed contexts. -/
inductive PC where
  /-- Not at work: the last call has returned, or there was none. -/
  | returned
  -- A pass of the rule engine.
  | startPass
  | poll
  | take
  | pop (id : ContextId)
  | derive (id : ContextId) (k : Conclusion)
  /-- Carries out an agenda, for a conclusion of a context in hand or for a job. -/
  | act (hand : Option (ContextId × Conclusion)) (agenda : Agenda)
  | release (id : ContextId)
  | recheck (id : ContextId)
  | retake (id : ContextId)
  -- The end of a pass.
  | loadStarted
  | raiseInterrupt (started : Nat) (seen : Option Nat)
  | endPass
  | loadInterrupt (finished : Nat)
  | compareInterrupt (finished interrupt : Nat)
  | loadCreated (finished : Nat)
  | loadSubmitted (finished created : Nat)
  | comparePasses (finished created submitted : Nat)
  | raiseJobs (created submitted : Nat) (seen : Option Nat)
  | raiseContexts (created : Nat) (seen : Option Nat)
  -- Marking complete contexts.
  | loadContexts (advanced : Bool)
  | compareContexts (advanced : Bool) (finished : Nat)
  | claimContext (advanced : Bool) (finished : Nat)
  | takeUnsaturated (advanced : Bool)
  | mark (advanced : Bool) (id : ContextId)
  -- Completing jobs.
  | loadJobs (advanced : Bool)
  | compareJobs (advanced : Bool) (finished : Nat)
  | claimJob (advanced : Bool) (finished : Nat)
  | takeInProgress (advanced : Bool)
  | locateOutput (advanced : Bool) (job : JobId)
  | giveOutput (advanced : Bool) (job : JobId) (output : ContextId)
  | notify (advanced : Bool) (job : JobId)
  -- Waking those who wait.
  | loadWaiting (advanced : Bool)
  | wakeLock
  | wakeClear
  | wakeAll
  -- The loop over the jobs.
  | pollJobs
  | loadProcessed
  | compareThreshold (processed : Nat)
  | takeJob
  | locateJob (job : JobId)
  | checkSaturated (job : JobId) (id : ContextId)
  | giveAtOnce (job : JobId) (output : ContextId)
  | notifyAtOnce (job : JobId)
  | startJob (job : JobId)
  | enterJob (job : JobId)
  | countJob (job : JobId)
  -- Waiting.
  | parkLock (processed : Nat)
  | parkFlag (processed : Nat)
  | parkCompare (processed : Nat)
  | parkClear
  | parkWakeAll
  | parkPoll
  | asleep
  | awake
  | parkUnlock
deriving DecidableEq, Repr

/-- A worker of a crew. -/
structure Member where
  pc : PC
  rules : RuleStatistics
  jobs : JobStatistics
deriving Repr

structure Crew (α σ : Type) where
  shared : Saturation α σ
  /-- Who holds the lock of the waiting place. -/
  lock : Option Nat
  members : Array Member

/-- What a step does: the shared data, the lock and the worker afterwards, and whether it wakes
those who are asleep. -/
structure Move (α σ : Type) where
  shared : Saturation α σ
  lock : Option Nat
  member : Member
  wakes : Bool

namespace Member

/-- A worker at the beginning of a call. -/
def new : Member := ⟨.startPass, .zero, .zero⟩

variable {α σ : Type} (obs : JobObserver α σ) (s : Saturation α σ) (lock : Option Nat) (me : Nat)
  (m : Member)

/-- Goes on at a place of the program, with the shared data as given. -/
def goto (s : Saturation α σ) (pc : PC) : Option (Move α σ) :=
  some ⟨s, lock, { m with pc }, false⟩

/-- One attempt to raise a counter to a value: what was seen of the counter before, if anything,
decides between reading it, leaving it alone and setting it if it is still as seen. Gives the
counter afterwards, and what is seen now or whether the counter was raised. -/
def tryRaise (counter value : Nat) : Option Nat → Nat × (Nat ⊕ Bool)
  | none => (counter, .inl counter)
  | some seen =>
    if value ≤ seen then (counter, .inr false)
    else if counter = seen then (value, .inr true)
    else (counter, .inl counter)

/-- A step within a pass of the rule engine. -/
def stepPass : Option (Move α σ) :=
  let goto := m.goto (α := α) (σ := σ) lock
  match m.pc with
  | .startPass => goto s.startPass .poll
  | .poll =>
    match s.poll obs with
    | (true, s) => goto s .loadStarted
    | (false, s) => goto s .take
  | .take =>
    match s.work.takeActive? with
    | none => goto s .endPass
    | some (id, work) =>
      some ⟨{ s with work }, lock, { m with pc := .pop id, rules := m.rules.countContext },
        false⟩
  | .pop id =>
    match s.work.pop? id with
    | none => goto s (.release id)
    | some (k, work) =>
      some ⟨{ s with work }, lock,
        { m with pc := .derive id k, rules := m.rules.countProcessed k.kind }, false⟩
  | .derive id k =>
    match s.work.context? id with
    | none => goto s (.pop id)
    | some c =>
      let (c', effects) := c.derive s.work.state.ontology (s.work.layout id) k
      goto { s with work := s.work.modify id fun _ => c' }
        (.act (some (id, k)) (effects.map (Agenda.ofEffect id)))
  | .act (some (id, _)) [] => goto s (.pop id)
  | .act none [] => goto s .poll
  | .act hand (a :: rest) =>
    let (s, rules, more) := Agenda.perform s m.rules a
    some ⟨s, lock, { m with pc := .act hand (more ++ rest), rules }, false⟩
  | .release id => goto { s with work := s.work.setActive id false } (.recheck id)
  | .recheck id =>
    if s.work.hasPending id then goto s (.retake id) else goto s .poll
  | .retake id =>
    if s.work.isActive id then goto s .poll
    else goto { s with work := s.work.setActive id true } (.pop id)
  | _ => none

/-- A step at the end of a pass, up to the comparison of the counters. -/
def stepLeave : Option (Move α σ) :=
  let goto := m.goto (α := α) (σ := σ) lock
  let c := s.desk.counters
  match m.pc with
  | .loadStarted => goto s (.raiseInterrupt c.workersStarted none)
  | .raiseInterrupt started seen =>
    match tryRaise c.lastInterrupt started seen with
    | (_, .inl seen) => goto s (.raiseInterrupt started (some seen))
    | (v, .inr _) => goto (s.mapCounters ({ · with lastInterrupt := v })) .endPass
  | .endPass => goto s.endPass (.loadInterrupt (c.workersFinished + 1))
  | .loadInterrupt finished => goto s (.compareInterrupt finished c.lastInterrupt)
  | .compareInterrupt finished interrupt =>
    if c.workersStarted ≤ interrupt then goto s (.loadContexts false)
    else goto s (.loadCreated finished)
  | .loadCreated finished => goto s (.loadSubmitted finished c.contextsCreated)
  | .loadSubmitted finished created => goto s (.comparePasses finished created c.jobsSubmitted)
  | .comparePasses finished created submitted =>
    if finished < c.workersStarted then goto s (.loadContexts false)
    else goto s (.raiseJobs created submitted none)
  | .raiseJobs created submitted seen =>
    match tryRaise c.jobsProcessed submitted seen with
    | (_, .inl seen) => goto s (.raiseJobs created submitted (some seen))
    | (v, .inr _) => goto (s.mapCounters ({ · with jobsProcessed := v })) (.raiseContexts created none)
  | .raiseContexts created seen =>
    match tryRaise c.contextsProcessed created seen with
    | (_, .inl seen) => goto s (.raiseContexts created (some seen))
    | (v, .inr advanced) =>
      goto (s.mapCounters ({ · with contextsProcessed := v })) (.loadContexts advanced)
  | _ => none

/-- A step of marking contexts and completing jobs. -/
def stepFinish : Option (Move α σ) :=
  let goto := m.goto (α := α) (σ := σ) lock
  let c := s.desk.counters
  match m.pc with
  | .loadContexts advanced => goto s (.compareContexts advanced c.contextsFinished)
  | .compareContexts advanced finished =>
    if finished = c.contextsProcessed then goto s (.loadJobs advanced)
    else goto s (.claimContext advanced finished)
  | .claimContext advanced finished =>
    if c.contextsFinished = finished then goto s.countContextFinished (.takeUnsaturated advanced)
    else goto s (.loadContexts advanced)
  | .takeUnsaturated advanced =>
    match s.work.state.unsaturated with
    | [] => goto (s.report .noContextToMark) (.loadContexts advanced)
    | id :: rest =>
      goto { s with work := { s.work with state := { s.work.state with unsaturated := rest } } }
        (.mark advanced id)
  | .mark advanced id =>
    goto { s with work := s.work.markSaturated id } (.loadContexts advanced)
  | .loadJobs advanced => goto s (.compareJobs advanced c.jobsFinished)
  | .compareJobs advanced finished =>
    if finished = c.jobsProcessed then goto s (.loadWaiting advanced)
    else goto s (.claimJob advanced finished)
  | .claimJob advanced finished =>
    if c.jobsFinished = finished then goto s.countJobFinished (.takeInProgress advanced)
    else goto s (.loadJobs advanced)
  | .takeInProgress advanced =>
    match s.popInProgress? with
    | none => goto (s.report .noJobToFinish) (.loadWaiting advanced)
    | some (job, s) => goto s (.locateOutput advanced job)
  | .locateOutput advanced job =>
    match s.work.state.find? (s.rootOf job) with
    | none => goto (s.report (.jobWithoutContext (s.labelOf job))) (.loadJobs advanced)
    | some output =>
      some ⟨s, lock, { m with
        pc := .giveOutput advanced job output
        jobs := { m.jobs with processed := m.jobs.processed + 1 } }, false⟩
  | .giveOutput advanced job output =>
    match s.giveOutput job output with
    | (true, s) => goto s (.notify advanced job)
    | (false, s) => goto s (.loadJobs advanced)
  | .notify advanced job =>
    goto ((s.report (.saturationFinished (s.labelOf job))).notify obs job) (.loadJobs advanced)
  | _ => none

/-- A step of waking those who wait, or of waiting oneself. -/
def stepPark : Option (Move α σ) :=
  let goto := m.goto (α := α) (σ := σ) lock
  match m.pc with
  | .loadWaiting advanced =>
    if advanced && s.desk.waiting then goto s .wakeLock else goto s .pollJobs
  | .wakeLock =>
    match lock with
    | none => some ⟨s, some me, { m with pc := .wakeClear }, false⟩
    | some _ => none
  | .wakeClear => goto (s.setWaiting false) .wakeAll
  | .wakeAll => some ⟨s, none, { m with pc := .pollJobs }, true⟩
  | .parkLock processed =>
    match lock with
    | none => some ⟨s, some me, { m with pc := .parkFlag processed }, false⟩
    | some _ => none
  | .parkFlag processed =>
    some ⟨s.setWaiting true, lock, { m with
      pc := .parkCompare processed
      jobs := { m.jobs with parkings := m.jobs.parkings + 1 } }, false⟩
  | .parkCompare processed =>
    if processed < s.desk.counters.contextsProcessed then goto s .parkClear else goto s .parkPoll
  | .parkClear => goto (s.setWaiting false) .parkWakeAll
  | .parkWakeAll => some ⟨s, none, { m with pc := .pollJobs }, true⟩
  | .parkPoll =>
    match s.poll obs with
    | (true, s) => goto s .parkUnlock
    | (false, s) => some ⟨s, none, { m with pc := .asleep }, false⟩
  | .awake =>
    match lock with
    | none => some ⟨s, some me, { m with pc := .parkUnlock }, false⟩
    | some _ => none
  | .parkUnlock => some ⟨s, none, { m with pc := .pollJobs }, false⟩
  | _ => none

/-- A step of the loop over the jobs. -/
def stepJobs : Option (Move α σ) :=
  let goto := m.goto (α := α) (σ := σ) lock
  match m.pc with
  | .pollJobs =>
    match s.poll obs with
    | (true, s) => goto s .returned
    | (false, s) => goto s .loadProcessed
  | .loadProcessed => goto s (.compareThreshold s.desk.counters.contextsProcessed)
  | .compareThreshold processed =>
    if s.desk.isFull processed then goto s (.parkLock processed) else goto s .takeJob
  | .takeJob =>
    match s.popToDo? with
    | none => goto s .returned
    | some (job, s) => goto s (.locateJob job)
  | .locateJob job =>
    match s.work.state.find? (s.rootOf job) with
    | none => goto s (.startJob job)
    | some id => goto s (.checkSaturated job id)
  | .checkSaturated job id =>
    if ((s.work.context? id).map (·.saturated)).getD false then
      some ⟨s, lock, { m with
        pc := .giveAtOnce job id
        jobs := { m.jobs with alreadyDone := m.jobs.alreadyDone + 1 } }, false⟩
    else goto s (.startJob job)
  | .giveAtOnce job output =>
    match s.giveOutput job output with
    | (true, s) => goto s (.notifyAtOnce job)
    | (false, s) => goto s .pollJobs
  | .notifyAtOnce job => goto (s.notify obs job) .pollJobs
  | .startJob job =>
    goto (s.report (.saturationStarted (s.labelOf job))).startPass (.enterJob job)
  | .enterJob job => goto (s.pushInProgress job) (.countJob job)
  | .countJob job => goto s.countSubmitted (.act none [.locate (s.rootOf job) []])
  | _ => none

/-- The next step of the worker `me`, if it has one. -/
def step : Option (Move α σ) :=
  m.stepPass obs s lock <|> m.stepLeave s lock <|> m.stepFinish obs s lock
    <|> m.stepPark obs s lock me <|> m.stepJobs obs s lock

end Member

namespace Crew

variable {α σ : Type} (obs : JobObserver α σ) (c : Crew α σ)

/-- A crew of `n` workers, each at the beginning of a call. -/
def new (s : Saturation α σ) (n : Nat) : Crew α σ := ⟨s, none, .replicate n .new⟩

/-- Wakes those who are asleep; each then needs the lock to go on. -/
def wakeAll (members : Array Member) : Array Member :=
  members.map fun m => if m.pc = .asleep then { m with pc := .awake } else m

/-- Sets or clears the interruption flag from outside. When it is set, those who are asleep are
woken, so that they can see it. -/
def setInterrupt (setFlag : Bool → σ → σ) (b : Bool) : Crew α σ :=
  { c with
    shared := c.shared.setInterrupt setFlag b
    members := if b then wakeAll c.members else c.members }

/-- One step of the worker `i`, if it has one. -/
def step (i : Nat) : Option (Crew α σ) :=
  match c.members[i]? with
  | none => none
  | some m =>
    match m.step obs c.shared c.lock i with
    | none => none
    | some move =>
      let members := c.members.setIfInBounds i move.member
      some ⟨move.shared, move.lock, if move.wakes then wakeAll members else members⟩

/-- Whether every worker's call has returned. -/
def isDone : Bool := c.members.all fun m => m.pc = .returned

/-- Lets the workers take turns as `turn` says, for at most `fuel` turns. -/
def runTurns (obs : JobObserver α σ) (turn : Nat → Nat) : Nat → Crew α σ → Crew α σ
  | 0, c => c
  | fuel + 1, c =>
    if c.isDone then c
    else runTurns obs turn fuel ((c.step obs (turn fuel)).getD c)

/-- What is shared, with the counts of all workers added to the sums. -/
def disband : Saturation α σ :=
  c.members.foldl (fun s m => s.collect m.rules m.jobs) c.shared

end Crew

namespace Saturation

variable {α σ : Type} (obs : JobObserver α σ) (s : Saturation α σ)

/-- Lets a crew process the jobs, its workers taking turns in a circle; says how the calls ended and
whether the run was interrupted. -/
def runCrew (workers fuel : Nat) : Outcome × Bool × Saturation α σ :=
  let c := (Crew.new (s.runStarted workers) workers).runTurns obs (· % workers) fuel
  let (interrupted, s) := c.disband.runEnded obs
  (if c.isDone then .returned else .unfinished, interrupted, s)

end Saturation

end Subsumption
