import Subsumption.Rule

/-!
Rule chains: the rules attached to one node, in the order in which their kinds were added. The
operations look a rule up by its kind, extend it, and drop it when its last entry goes, so that a
chain built by them holds one rule of a kind at most.
-/
namespace Subsumption

structure RuleChain where
  rules : List Rule
deriving DecidableEq, Inhabited, Repr

namespace RuleChain

variable (c : RuleChain) (k : RuleKind)

def empty : RuleChain := ⟨[]⟩

def isEmpty : Bool := c.rules.isEmpty

def length : Nat := c.rules.length

/-- The first rule of a kind. -/
def find? : Option Rule := c.rules.find? (·.kind == k)

/-- Changes the first rule of a kind in place. -/
def modify (f : Rule → Rule) : RuleChain :=
  ⟨go c.rules⟩
where
  go : List Rule → List Rule
    | [] => []
    | r :: rs => if r.kind == k then f r :: rs else r :: go rs

/-- Appends an empty rule of a kind, unless the chain has one of that kind. -/
def ensure : RuleChain :=
  match c.find? k with
  | some _ => c
  | none => ⟨c.rules ++ [.empty k]⟩

/-- Removes the first rule of a kind. -/
def erase : RuleChain := ⟨c.rules.eraseP (·.kind == k)⟩

/-- Drops the first rule of a kind if it is empty. -/
def prune : RuleChain :=
  match c.find? k with
  | some r => if r.isEmpty then c.erase k else c
  | none => c

def addSuper (sup : NodeId) : RuleChain :=
  (c.ensure .told).modify .told (·.addSuper sup)

/-- Whether `sup` is among the told superclasses. -/
def hasSuper (sup : NodeId) : Bool :=
  match c.find? .told with
  | some r => r.hasSuper sup
  | none => false

/-- Takes away one told superclass, if there is one such entry. -/
def eraseSuper (sup : NodeId) : RuleChain :=
  (c.modify .told (·.eraseSuper sup)).prune .told

def addPartner (entry : Partner) : RuleChain :=
  (c.ensure .conjunction).modify .conjunction (·.addPartner entry)

def erasePartner (entry : Partner) : RuleChain :=
  (c.modify .conjunction (·.erasePartner entry)).prune .conjunction

def addExistential (node : NodeId) : RuleChain :=
  (c.ensure .propagation).modify .propagation (·.addExistential node)

def eraseExistential (node : NodeId) : RuleChain :=
  (c.modify .propagation (·.eraseExistential node)).prune .propagation

def addDisjointness (id : DisjointnessId) : RuleChain :=
  (c.ensure .disjointness).modify .disjointness (·.addDisjointness id)

/-- The number of entries of all rules. -/
def size : Nat := (c.rules.map Rule.size).foldr (· + ·) 0

end RuleChain

end Subsumption
