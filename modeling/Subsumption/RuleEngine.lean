import Subsumption.Deduction
import Subsumption.State
import Subsumption.RuleStatistics

/-!
The rule engine of one worker. A pass takes waiting contexts one at a time and drains each of them;
before it takes one it polls the interruption flag, and it ends when the flag is set or no context
waits. The surroundings of the engine are a value of any type `σ`: a poll may change it, and so may
the notice of a new context.
-/
namespace Subsumption

/-- How the surroundings answer a poll of the flag and take the notice of a new context. -/
structure RuleObserver (σ : Type) where
  poll : σ → Bool × σ
  created : Context → σ → σ

/-- What a rule engine works on. -/
structure RuleRun (σ : Type) where
  work : Workspace
  stats : RuleStatistics
  env : σ

namespace RuleRun

variable {σ : Type} (obs : RuleObserver σ) (timed : Bool) (r : RuleRun σ)

/-- Queues a conclusion and counts it. -/
def produce (id : ContextId) (k : Conclusion) : RuleRun σ :=
  { r with work := r.work.produce id k, stats := r.stats.countProduced k.kind }

def produceAll (id : ContextId) (ks : List Conclusion) : RuleRun σ :=
  ks.foldl (fun r k => r.produce id k) r

/-- What a new context starts from: its root, and owl:Thing if there are rules for it. -/
def initialConclusions (o : Ontology) (root : NodeId) : List Conclusion :=
  .plain root ::
    (if root ≠ Ontology.top ∧ !(o.rules Ontology.top).isEmpty then [.plain Ontology.top] else [])

/-- Gives notice of a new context. -/
def notifyCreated (id : ContextId) : RuleRun σ :=
  match r.work.context? id with
  | some c => { r with env := obs.created c r.env }
  | none => r

/-- The context of a root; a new one gets its initial conclusions before notice of it is given. -/
def obtain (root : NodeId) : ContextId × RuleRun σ :=
  match r.work.obtain root with
  | ((id, false), _) => (id, r)
  | ((id, true), work) =>
    let r := { r with work }
    (id, (r.produceAll id (initialConclusions work.state.ontology root)).notifyCreated obs id)

/-- Carries out one effect in the context `self`. -/
def perform (self : ContextId) (r : RuleRun σ) : Effect → RuleRun σ
  | .own k => r.produce self k
  | .send root ks =>
    let (id, r) := r.obtain obs root
    r.produceAll id ks
  | .decomposed => { r with stats := r.stats.countDecomposition timed }
  | .applied kind => { r with stats := r.stats.countRule timed kind }
  | .refuted root => { r with work := r.work.report (.contextInconsistent (r.work.label root)) }

/-- Processes a conclusion that was taken from the queue of the context `id`. -/
def apply (id : ContextId) (k : Conclusion) : RuleRun σ :=
  let r := { r with stats := r.stats.countProcessed k.kind }
  match r.work.context? id with
  | some c =>
    let (c', effects) := c.derive r.work.state.ontology (r.work.layout id) k
    effects.foldl (perform obs timed id) { r with work := r.work.modify id fun _ => c' }
  | none => r

/-- Runs for at most `fuel` steps with a context in hand or none, and says whether the flag ended
the pass. With a context in hand a step processes one of its conclusions, or lays it down when none
is left; with empty hands a step polls the flag and takes a context. -/
def loop (obs : RuleObserver σ) (timed : Bool) :
    Nat → Option ContextId → RuleRun σ → Bool × RuleRun σ
  | 0, _, r => (false, r)
  | fuel + 1, some id, r =>
    match r.work.pop? id with
    | some (k, work) => loop obs timed fuel (some id) ({ r with work }.apply obs timed id k)
    | none => loop obs timed fuel none { r with work := r.work.setActive id false }
  | fuel + 1, none, r =>
    match obs.poll r.env with
    | (true, env) => (true, { r with env })
    | (false, env) =>
      match r.work.takeActive? with
      | none => (false, { r with env })
      | some (id, work) =>
        loop obs timed fuel (some id) { work, env, stats := r.stats.countContext }

end RuleRun

/-! ### How long a pass can take

Every conclusion that is processed either adds a fact or leads to nothing but, at most, one
contradiction. Numbers are words of 32 bits, so that a context has room for so many facts, and there
are so many roots. -/

/-- How many pairs of numbers there are. -/
def pairBound : Nat := UInt32.size * UInt32.size

/-- A bound for the facts of one context, its inconsistency included. -/
def factBound : Nat := UInt32.size + 4 * pairBound + 1

namespace Workspace

variable (w : Workspace)

/-- How many conclusions are pending, in all contexts. -/
def pendingCount : Nat := (w.store.toList.map fun c => c.pending.length).foldr (· + ·) 0

/-- How many facts the contexts hold. -/
def factCount : Nat := (w.store.toList.map fun c => c.facts.size).foldr (· + ·) 0

/-- A bound for the conclusions that one new fact leads to: what the rules of a node derive, or what
goes along the links and propagations of one context. -/
def yieldBound : Nat :=
  4 + (w.state.ontology.nodes.toList.map fun n => n.rules.size).foldr (· + ·) 0
    + 3 * ((pairBound + w.factCount)
      * (1 + (w.state.ontology.properties.toList.map fun p =>
        p.supers.length + p.subs.length).foldr (· + ·) 0))

/-- Steps that suffice for a pass over the workspace; the number is too large to count down from
when a pass over a given workspace is unfolded. -/
@[irreducible] def passBound : Nat :=
  2 + 6 * (factBound * (UInt32.size + w.store.size)) * w.yieldBound + 4 * w.pendingCount
    + 2 * w.state.active.length

end Workspace

namespace RuleRun

variable {σ : Type} (obs : RuleObserver σ) (timed : Bool) (r : RuleRun σ)

/-- Drains waiting contexts until none is left or the flag is found set, which is what it says. -/
def process : Bool × RuleRun σ := loop obs timed r.work.passBound none r

/-- Asks for a root without applying any rule yet. -/
def submit (root : NodeId) : ContextId × RuleRun σ := r.obtain obs root

end RuleRun

end Subsumption
