import Subsumption.Ids

/-!
Derived facts: what has been concluded about the root of one context so far. Facts are kept in the
order in which they were found and never twice; an insertion gives `none` for a fact that is known.

The table of the links to the root has no order of its own among the relations. Whoever goes through
all links says in which order he comes to the relations.
-/
namespace Subsumption

structure Facts where
  subsumers : List NodeId
  /-- Relation and source of each link that leads to the root. -/
  backward : List (PropertyId × NodeId)
  /-- Relation and target of each link that leads away from the root. -/
  forward : List (PropertyId × NodeId)
  /-- Relation and existential of each propagation. -/
  propagations : List (PropertyId × NodeId)
  /-- Disjointness axiom and member for each listed member that subsumes the root. -/
  disjoint : List (DisjointnessId × NodeId)
deriving DecidableEq, Inhabited, Repr

namespace Facts

variable (f : Facts)

def empty : Facts := ⟨[], [], [], [], []⟩

def hasSubsumer (n : NodeId) : Bool := f.subsumers.contains n

def insertSubsumer? (n : NodeId) : Option Facts :=
  if f.hasSubsumer n then none else some { f with subsumers := f.subsumers ++ [n] }

def hasBackward (r : PropertyId) (source : NodeId) : Bool := f.backward.contains (r, source)

def insertBackward? (r : PropertyId) (source : NodeId) : Option Facts :=
  if f.hasBackward r source then none else some { f with backward := f.backward ++ [(r, source)] }

/-- The sources linked to the root by `r`, oldest first. -/
def backwardSources (r : PropertyId) : List NodeId :=
  (f.backward.filter (·.1 == r)).map (·.2)

/-- The source of every link to the root, relation by relation; one source may be linked by several.
The relations come in the given order, and those that are not named there after the others, as they
were first linked. -/
def sources (order : List PropertyId) : List NodeId :=
  (order ++ f.backward.map (·.1)).eraseDups.flatMap f.backwardSources

/-- Records a link that leads away; a known link stays recorded once. -/
def insertForward (r : PropertyId) (target : NodeId) : Facts :=
  if f.forward.contains (r, target) then f else { f with forward := f.forward ++ [(r, target)] }

def hasPropagation (r : PropertyId) (carry : NodeId) : Bool := f.propagations.contains (r, carry)

def insertPropagation? (r : PropertyId) (carry : NodeId) : Option Facts :=
  if f.hasPropagation r carry then none
  else some { f with propagations := f.propagations ++ [(r, carry)] }

/-- The existentials propagated along `r`, oldest first. -/
def propagated (r : PropertyId) : List NodeId :=
  (f.propagations.filter (·.1 == r)).map (·.2)

def insertDisjoint (d : DisjointnessId) (member : NodeId) : Facts :=
  if f.disjoint.contains (d, member) then f
  else { f with disjoint := f.disjoint ++ [(d, member)] }

/-- The members of an axiom that are known to subsume the root. -/
def disjointMembers (d : DisjointnessId) : List NodeId :=
  (f.disjoint.filter (·.1 == d)).map (·.2)

/-- Two different members of one axiom subsume the root. -/
def clashes (d : DisjointnessId) : Bool := 1 < (f.disjointMembers d).length

/-- The facts without the links from sources outside `kept`. -/
def keepSources (kept : List NodeId) : Facts :=
  { f with backward := f.backward.filter (kept.contains ·.2) }

/-- The number of facts. -/
def size : Nat :=
  f.subsumers.length + f.backward.length + f.forward.length + f.propagations.length
    + f.disjoint.length

end Facts

end Subsumption
