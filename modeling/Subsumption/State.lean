import Subsumption.Context
import Subsumption.Event
import Subsumption.Ontology.Display

/-!
Saturation states. Contexts live in a store and are known by their place in it, because several
states may share one: what is derived for a shared context in one state shows in the others. A state
says which context stands for a root over its ontology, which contexts wait for a worker, and which
are not yet marked saturated.

A `Workspace` is one state together with the store and with the events reported so far. The layout of
the tables of links is part of it: it is as it happens to be, and a context looks at its own only
once, when it is found inconsistent.
-/
namespace Subsumption

/-- The place of a context in the store. -/
structure ContextId where
  index : Nat
deriving DecidableEq, Inhabited, Repr

abbrev Store := Array Context

/-- For the context at each place, the order in which the relations of its links are come to. -/
abbrev Layout := ContextId → List PropertyId

/-- Relations are come to as they were first linked. -/
def Layout.asLinked : Layout := fun _ => []

structure State where
  ontology : Ontology
  contexts : List (NodeId × ContextId)
  /-- Contexts that wait for a worker, with their tokens taken. -/
  active : List ContextId
  /-- Contexts not yet marked saturated, in the order of their creation. -/
  unsaturated : List ContextId
deriving Repr

structure Workspace where
  store : Store
  state : State
  events : List Event
  /-- Nothing but the order of some effects depends on it, and nothing changes it. -/
  layout : Layout

namespace State

variable (s : State)

/-- A state without contexts. -/
def new (o : Ontology) : State := ⟨o, [], [], []⟩

def size : Nat := s.contexts.length

def find? (root : NodeId) : Option ContextId := s.contexts.lookup root

end State

namespace Workspace

variable (w : Workspace)

def report (e : Event) : Workspace := { w with events := w.events ++ [e] }

def context? (id : ContextId) : Option Context := w.store[id.index]?

/-- The context that stands for a root. -/
def contextOf? (root : NodeId) : Option Context := (w.state.find? root).bind w.context?

def modify (id : ContextId) (f : Context → Context) : Workspace :=
  { w with store := w.store.modify id.index f }

/-- The text of a root, as events name it. -/
def label (root : NodeId) : String := w.state.ontology.display root

def labelOf (id : ContextId) : String :=
  match w.context? id with
  | some c => w.label c.root
  | none => ""

/-! ### Queues and tokens -/

/-- Puts a new context into the store and lets it stand for its root. -/
def insertContext (root : NodeId) : ContextId × Workspace :=
  let id : ContextId := ⟨w.store.size⟩
  (id, { w with
    store := w.store.push (.fresh root)
    state := { w.state with contexts := w.state.contexts ++ [(root, id)] } })

/-- Queues a context for being marked saturated. -/
def enlist (id : ContextId) : Workspace :=
  { w with state := { w.state with unsaturated := w.state.unsaturated ++ [id] } }

/-- The context of a root, and whether it had to be created. -/
def obtain (root : NodeId) : (ContextId × Bool) × Workspace :=
  match w.state.find? root with
  | some id => ((id, false), w)
  | none =>
    let (id, w) := w.insertContext root
    ((id, true), w.enlist id)

def isActive (id : ContextId) : Bool := ((w.context? id).map (·.active)).getD true

def setActive (id : ContextId) (b : Bool) : Workspace := w.modify id ({ · with active := b })

def enqueue (id : ContextId) : Workspace :=
  { w with state := { w.state with active := w.state.active ++ [id] } }

/-- Queues a conclusion, and the context with it if nobody holds its token. -/
def produce (id : ContextId) (k : Conclusion) : Workspace :=
  let w := w.modify id (·.push k)
  if w.isActive id then w else (w.setActive id true).enqueue id

/-- Takes the context that has waited longest. -/
def takeActive? : Option (ContextId × Workspace) :=
  match w.state.active with
  | [] => none
  | id :: rest => some (id, { w with state := { w.state with active := rest } })

def hasPending (id : ContextId) : Bool :=
  ((w.context? id).map fun c => !c.pending.isEmpty).getD false

/-- Takes the oldest pending conclusion of a context. -/
def pop? (id : ContextId) : Option (Conclusion × Workspace) :=
  match (w.context? id).bind (·.pending.head?) with
  | some k => some (k, w.modify id (·.popped))
  | none => none

/-- Marks a context saturated; that it was marked before is an error to report. -/
def markSaturated (id : ContextId) : Workspace :=
  match w.context? id with
  | some c =>
    if c.saturated then w.report (.contextAlreadySaturated (w.label c.root))
    else (w.modify id ({ · with saturated := true })).report (.contextSaturated (w.label c.root))
  | none => w

/-- Marks the oldest unsaturated context; that there is none is an error to report. -/
def markNext : Option ContextId × Workspace :=
  match w.state.unsaturated with
  | [] => (none, w.report .noContextToMark)
  | id :: rest =>
    (some id, ({ w with state := { w.state with unsaturated := rest } }).markSaturated id)

end Workspace

end Subsumption
