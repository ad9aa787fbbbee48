import Subsumption.Alarm
import Subsumption.Crew
import Subsumption.Description
import Subsumption.Resubmission
import Subsumption.Settings

/-!
Whole saturations in phases. One ontology lives through all phases. Each phase tells it some
statements and saturates some roots: the first phase in a new state, a later one in a state that
keeps what the phase before found out about roots that are not invalidated.
-/
namespace Subsumption

/-- The roots of which nothing is kept. -/
inductive Invalidated where
  | all
  | only (ds : List Description)
deriving Repr

structure Phase where
  statements : List Statement
  roots : List Description
  invalidated : Invalidated
  /-- The number of the notified job that interrupts the run, if one does. -/
  interruptAfter : Option Nat
deriving Repr

/-- How the phases are run. -/
structure Procedure where
  settings : Settings
  workers : Nat
  /-- How many turns a crew may take. -/
  fuel : Nat
deriving Repr

/-- What became of a root. -/
structure RootReport where
  root : String
  inconsistent : Bool
  saturated : Bool
  /-- The texts of the subsumers in the order of their numbers. -/
  subsumers : List String
deriving DecidableEq, Repr

/-- What a phase has to show. Payloads of jobs are the places of their roots in the list of roots. -/
structure PhaseReport where
  replies : List Reply
  roots : List (Option RootReport)
  runs : Nat
  unsaturated : Nat
  notified : List Nat
  desk : Dispatcher
  /-- The number of pending jobs and the counters after the latest interrupted run. -/
  stopped : Option (Nat × Counters)
deriving Repr

namespace Context

variable (c : Context)

/-- The subsumers in the order of their numbers. -/
def subsumers : List NodeId := c.facts.subsumers.mergeSort (·.value ≤ ·.value)

/-- The order of links by relation, then by node. -/
def linkLE (a b : PropertyId × NodeId) : Bool :=
  a.1.value < b.1.value || (a.1 == b.1 && a.2.value ≤ b.2.value)

def backwardLinks : List (PropertyId × NodeId) := c.facts.backward.mergeSort linkLE

def forwardLinks : List (PropertyId × NodeId) := c.facts.forward.mergeSort linkLE

end Context

namespace Workspace

/-- What became of a root, if it has a context. -/
def rootReport? (w : Workspace) (root : NodeId) : Option RootReport :=
  (w.contextOf? root).map fun c =>
    ⟨w.label root, c.inconsistent, c.saturated, c.subsumers.map w.label⟩

end Workspace

namespace Procedure

/-- The surroundings of a phase. -/
abbrev Env := Alarm (Nat × Bool)

variable (p : Procedure)

/-- Lets the workers process the jobs once. -/
def runOnce (s : Saturation Nat Env) : Bool × Saturation Nat Env :=
  if p.workers ≤ 1 then
    let (_, interrupted, s) := s.run Alarm.ofJobs
    (interrupted, s)
  else
    let (_, interrupted, s) := s.runCrew Alarm.ofJobs p.workers p.fuel
    (interrupted, s)

/-- Runs until a run is not interrupted, lowering the flag in between. Gives the number of runs and
what was left after the latest interrupted one. -/
def runAll (p : Procedure) : Nat → Saturation Nat Env →
    Nat × Option (Nat × Counters) × Saturation Nat Env
  | 0, s => (0, none, s)
  | tries + 1, s =>
    match p.runOnce s with
    | (false, s) => (1, none, s)
    | (true, s) =>
      let left := (s.desk.toDo.length, s.desk.counters)
      let (runs, stopped, s) := runAll p tries { s with env := s.env.setRaised false }
      (runs + 1, some (stopped.getD left), s)

/-- The saturation of some roots over a workspace, before its first run. -/
def prepare (w : Workspace) (roots : List NodeId) (ringAt : Option Nat) : Saturation Nat Env :=
  let jobs := roots.mapIdx fun i root => Job.new root i
  let start : Saturation Nat Env :=
    { work := w
      jobs := jobs.toArray
      desk := .new p.settings.threshold p.settings.ruleTimings
      env := .new ringAt }
  let submitter := (List.range jobs.length).foldl (fun m i => m.submit ⟨i⟩) (Worker.new start)
  submitter.finish

/-- The workspace that a phase starts from, and the ontology with all that it interned. -/
def start (previous : Option Workspace) (o : Ontology) (invalidated : Invalidated) :
    Workspace × Ontology :=
  match previous with
  | none => (⟨#[], .new o, [], .asLinked⟩, o)
  | some w =>
    let (ids, o) :=
      match invalidated with
      | .all => (o.nodeIds, o)
      | .only ds => o.describeAll ds
    (w.resubmission o ids, o)

/-- One phase; the flag is raised by one notice only, so two runs suffice. -/
def runPhase (previous : Option Workspace) (o : Ontology) (phase : Phase) :
    PhaseReport × Workspace × Ontology :=
  let (replies, o) := o.tellAll phase.statements
  let (roots, o) := o.describeAll phase.roots
  let (w, o) := start previous o phase.invalidated
  let (runs, stopped, s) := p.runAll 3 (p.prepare w roots phase.interruptAfter)
  ({ replies
     roots := roots.map s.work.rootReport?
     runs
     unsaturated := s.work.state.unsaturated.length
     notified := s.env.heard.map (·.1)
     desk := s.desk
     stopped }, s.work, o)

/-- All phases, one after the other. -/
def runPhases (p : Procedure) : Option Workspace → Ontology → List Phase → List PhaseReport
  | _, _, [] => []
  | previous, o, phase :: rest =>
    let (report, w, o) := p.runPhase previous o phase
    report :: runPhases p (some w) o rest

end Procedure

end Subsumption
