import Subsumption.Ids

/-!
Composition rules. Deriving a node fires the rules attached to it, which lead from the node to
further conclusions. A rule carries all the material of its kind: told superclasses, conjunction
partners, existentials, disjointness axioms.
-/
namespace Subsumption

inductive RuleKind where
  /-- Deriving owl:Nothing is a contradiction. -/
  | bottom
  /-- Deriving a node derives its told superclasses. -/
  | told
  /-- Deriving a node and its partner derives their conjunction. -/
  | conjunction
  /-- Deriving a filler propagates its existentials. -/
  | propagation
  /-- Deriving a member of a disjointness axiom is recorded. -/
  | disjointness
deriving DecidableEq, Inhabited, Repr

namespace RuleKind

/-- All kinds, in the order in which they are counted and reported. -/
def all : List RuleKind := [.bottom, .told, .conjunction, .propagation, .disjointness]

/-- The position of a kind in the list of all kinds. -/
def index : RuleKind → Fin 5
  | .bottom => 0
  | .told => 1
  | .conjunction => 2
  | .propagation => 3
  | .disjointness => 4

def text : RuleKind → String
  | .bottom => "owl:Nothing contradiction"
  | .told => "told subsumption"
  | .conjunction => "conjunction composition"
  | .propagation => "existential propagation"
  | .disjointness => "disjointness"

theorem getElem_all_index (k : RuleKind) : all[k.index.val]? = some k := by
  cases k <;> rfl

theorem index_injective {k l : RuleKind} (h : k.index = l.index) : k = l := by
  cases k <;> cases l <;> simp_all [index]

end RuleKind

/-- An entry of a conjunction rule: with `partner`, the node composes `conjunction`. -/
structure Partner where
  partner : NodeId
  conjunction : NodeId
deriving DecidableEq, Inhabited, Repr

inductive Rule where
  | contradiction
  /-- Told superclasses are a list: each registration of an axiom adds one entry. -/
  | told (supers : List NodeId)
  | conjunction (partners : List Partner)
  | propagation (existentials : List NodeId)
  | disjointness (axioms : List DisjointnessId)
deriving DecidableEq, Inhabited, Repr

namespace Rule

def kind : Rule → RuleKind
  | .contradiction => .bottom
  | .told _ => .told
  | .conjunction _ => .conjunction
  | .propagation _ => .propagation
  | .disjointness _ => .disjointness

/-- The rule of a kind that holds no material yet. -/
def empty : RuleKind → Rule
  | .bottom => .contradiction
  | .told => .told []
  | .conjunction => .conjunction []
  | .propagation => .propagation []
  | .disjointness => .disjointness []

/-- A rule is empty if it never derives anything. -/
def isEmpty : Rule → Bool
  | .contradiction => false
  | .told supers => supers.isEmpty
  | .conjunction partners => partners.isEmpty
  | .propagation existentials => existentials.isEmpty
  | .disjointness axioms => axioms.isEmpty

/-- The number of entries, which bounds what one application derives. -/
def size : Rule → Nat
  | .contradiction => 1
  | .told supers => supers.length
  | .conjunction partners => partners.length
  | .propagation existentials => existentials.length
  | .disjointness axioms => axioms.length

/-- Adds a told superclass; a rule of another kind is left alone, as below. -/
def addSuper (sup : NodeId) : Rule → Rule
  | .told supers => .told (supers ++ [sup])
  | rule => rule

/-- Takes away the first entry that names `sup`. -/
def eraseSuper (sup : NodeId) : Rule → Rule
  | .told supers => .told (supers.erase sup)
  | rule => rule

def hasSuper (sup : NodeId) : Rule → Bool
  | .told supers => supers.contains sup
  | _ => false

def addPartner (entry : Partner) : Rule → Rule
  | .conjunction partners =>
    .conjunction (if partners.contains entry then partners else partners ++ [entry])
  | rule => rule

def erasePartner (entry : Partner) : Rule → Rule
  | .conjunction partners => .conjunction (partners.filter (· != entry))
  | rule => rule

def addExistential (node : NodeId) : Rule → Rule
  | .propagation existentials =>
    .propagation (if existentials.contains node then existentials else existentials ++ [node])
  | rule => rule

def eraseExistential (node : NodeId) : Rule → Rule
  | .propagation existentials => .propagation (existentials.filter (· != node))
  | rule => rule

def addDisjointness (id : DisjointnessId) : Rule → Rule
  | .disjointness axioms =>
    .disjointness (if axioms.contains id then axioms else axioms ++ [id])
  | rule => rule

@[simp] theorem kind_empty (k : RuleKind) : (empty k).kind = k := by
  cases k <;> rfl

theorem isEmpty_empty (k : RuleKind) : (empty k).isEmpty = (k != .bottom) := by
  cases k <;> rfl

end Rule

end Subsumption
