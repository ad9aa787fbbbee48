import Subsumption.Crew

/-! Courses of a crew: steps of its workers in any order, with whatever the surroundings do in
between, and a record of what happened. -/
namespace Subsumption

variable {α σ : Type}

/-- Nobody has worked on the state yet, and no job has an output. -/
structure Saturation.Fresh (s : Saturation α σ) : Prop where
  state : ∃ o, s.work.state = State.new o
  desk : ∃ threshold timed, s.desk = Dispatcher.new threshold timed
  jobs : ∀ id j, s.job? id = some j → j.output = none

/-! ### What can happen -/

/-- What a step does that is kept in the record of a course. -/
inductive Deed where
  | submitted (job : JobId)
  /-- A submission is counted, as done before or as processed. -/
  | counted (job : JobId)
  /-- A job has got its output. -/
  | given (job : JobId) (output : ContextId)
  /-- The listener has been told of a job, whose output is the context of `root`. -/
  | noticed (job : JobId) (root : NodeId)
  /-- A worker ends its pass or its call because it has found the flag set. -/
  | stopped
deriving DecidableEq, Repr

/-- The notice of a job that is given if its output can be looked up. -/
def Saturation.notices (s : Saturation α σ) (job : JobId) : List Deed :=
  match (s.job? job).bind (·.output.bind s.work.context?) with
  | some c => [.noticed job c.root]
  | none => []

/-- What the step of a worker at a place of the program adds to the record. -/
def PC.deeds (obs : JobObserver α σ) (s : Saturation α σ) : PC → List Deed
  | .poll | .pollJobs => if (obs.poll s.env).1 then [.stopped] else []
  | .checkSaturated job id =>
    if ((s.work.context? id).map (·.saturated)).getD false then [.counted job] else []
  | .locateOutput _ job =>
    if (s.work.state.find? (s.rootOf job)).isSome then [.counted job] else []
  | .giveOutput _ job output | .giveAtOnce job output =>
    if (s.giveOutput job output).1 then [.given job output] else []
  | .notify _ job | .notifyAtOnce job => s.notices job
  | _ => []

namespace Crew

/-- One event in the life of a crew, with what it adds to the record. A worker takes a step; or a
worker that is not at work is called, or queues a job; or a worker joins, a job is made, or the
surroundings change, the flag with them. Whoever sets the flag from outside also says that nobody
is waiting and wakes those who are asleep; as the lock that is held meanwhile only keeps workers
back, both may happen at any time. -/
inductive Turn (obs : JobObserver α σ) (c : Crew α σ) : List Deed → Crew α σ → Prop
  | step {i m c'} (hm : c.members[i]? = some m) (h : c.step obs i = some c') :
    Turn obs c (m.pc.deeds obs c.shared) c'
  | call {i m} (hm : c.members[i]? = some m) (hr : m.pc = .returned) :
    Turn obs c [] { c with members := c.members.setIfInBounds i { m with pc := .startPass } }
  | submit {i m job} (hm : c.members[i]? = some m) (hr : m.pc = .returned)
    (hj : job.index < c.shared.jobs.size) :
    Turn obs c [.submitted job] { c with
      shared := c.shared.pushToDo job
      members := c.members.setIfInBounds i
        { m with jobs := { m.jobs with submitted := m.jobs.submitted + 1 } } }
  | join : Turn obs c [] { c with members := c.members.push { Member.new with pc := .returned } }
  | make (root : NodeId) (payload : α) :
    Turn obs c [] { c with
      shared := { c.shared with jobs := c.shared.jobs.push (.new root payload) } }
  | surroundings (env : σ) : Turn obs c [] { c with shared := { c.shared with env } }
  | alert : Turn obs c [] { c with shared := c.shared.setWaiting false }
  | wake : Turn obs c [] { c with members := wakeAll c.members }

/-- A course of events, with its record, the latest deed first. -/
inductive Course (obs : JobObserver α σ) (c₀ : Crew α σ) : List Deed → Crew α σ → Prop
  | start : Course obs c₀ [] c₀
  | turn {ds c ds' c'} (h : Course obs c₀ ds c) (ht : Turn obs c ds' c') :
    Course obs c₀ (ds' ++ ds) c'

variable {obs : JobObserver α σ} {c c₀ c₁ : Crew α σ} {ds ds' : List Deed}

theorem Course.append (h : Course obs c₀ ds c₁) (h' : Course obs c₁ ds' c) :
    Course obs c₀ (ds' ++ ds) c := by
  induction h' with
  | start => exact h
  | turn _ ht ih =>
    rw [List.append_assoc]
    exact ih.turn ht

/-- To set or clear the flag from outside is part of a course. -/
theorem course_setInterrupt (setFlag : Bool → σ → σ) (b : Bool) :
    Course obs c [] (c.setInterrupt setFlag b) := by
  have hstart : Course obs c [] c := .start
  have hflag := hstart.turn (.surroundings (setFlag b c.shared.env))
  cases b with
  | false => exact hflag
  | true => exact (hflag.turn .alert).turn .wake

/-! ### Taking turns -/

/-- The record of the turns that `runTurns` lets the workers take. -/
def recordTurns (obs : JobObserver α σ) (turn : Nat → Nat) : Nat → Crew α σ → List Deed
  | 0, _ => []
  | fuel + 1, c =>
    if c.isDone then []
    else
      match c.members[turn fuel]?, c.step obs (turn fuel) with
      | some m, some c' => recordTurns obs turn fuel c' ++ m.pc.deeds obs c.shared
      | _, _ => recordTurns obs turn fuel c

/-- What each step keeps is kept by the turns. -/
theorem runTurns_invariant {P : List Deed → Crew α σ → Prop} (turn : Nat → Nat)
    (hstep : ∀ {ds c i m c'}, P ds c → c.members[i]? = some m → c.step obs i = some c' →
      P (m.pc.deeds obs c.shared ++ ds) c') (fuel : Nat) (h : P ds c) :
    P (recordTurns obs turn fuel c ++ ds) (c.runTurns obs turn fuel) := by
  induction fuel generalizing ds c with
  | zero => exact h
  | succ fuel ih =>
    rw [recordTurns, runTurns]
    split
    · exact h
    cases hm : c.members[turn fuel]? with
    | none =>
      have hnone : c.step obs (turn fuel) = none := by rw [Crew.step, hm]
      rw [hnone]
      exact ih h
    | some m =>
      cases hs : c.step obs (turn fuel) with
      | none => exact ih h
      | some c' =>
        rw [List.append_assoc]
        exact ih (hstep h hm hs)

theorem course_runTurns (obs : JobObserver α σ) (turn : Nat → Nat) (fuel : Nat) (c : Crew α σ) :
    Course obs c (recordTurns obs turn fuel c) (c.runTurns obs turn fuel) := by
  have h := runTurns_invariant (P := Course obs c) turn (fun h hm hs => h.turn (.step hm hs)) fuel
    .start
  rwa [List.append_nil] at h

end Crew

end Subsumption
