import Subsumption.Expression
import Subsumption.RuleChain

/-!
Ontologies as graphs of interned class expressions. A node holds an expression, the rules that fire
when it is derived, and the number of times it occurs on the left of an axiom. Node 0 is owl:Thing
and node 1 owl:Nothing; an expression is given a node once, when it is first met.

An edit that fails leaves a state of the ontology too: `Edit` gives back the ontology in any case.
-/
namespace Subsumption

/-- An interned class expression with the rules attached to it. -/
structure Node where
  expression : Expression
  rules : RuleChain
  /-- How many registered axioms have the node on their left, directly or through a parent. -/
  negative : UInt32
deriving DecidableEq, Inhabited, Repr

/-- An object property with its place in the hierarchy, itself included, in order of number. -/
structure Property where
  name : String
  supers : List PropertyId
  subs : List PropertyId
deriving DecidableEq, Inhabited, Repr

/-- A disjointness axiom: no instance belongs to two of the listed members. -/
structure Disjointness where
  members : List NodeId
deriving DecidableEq, Inhabited, Repr

/-- Why an edit is refused. -/
inductive OntologyError where
  | unknownNode (id : NodeId)
  | unknownProperty (id : PropertyId)
  | tooFewMembers (found : Nat)
  | noSuchAxiom (sub sup : NodeId)
deriving DecidableEq, Repr

def OntologyError.message : OntologyError → String
  | .unknownNode id => "unknown node " ++ id.text
  | .unknownProperty id => "unknown property " ++ id.text
  | .tooFewMembers found =>
    "a disjointness axiom needs at least two members, found " ++ toString found
  | .noSuchAxiom sub sup => "no told axiom " ++ sub.text ++ " ⊑ " ++ sup.text ++ " to remove"

structure Ontology where
  nodes : Array Node
  properties : Array Property
  /-- The told pairs of sub-property and super-property, oldest first. -/
  toldProperties : List (PropertyId × PropertyId)
  disjointness : Array Disjointness
deriving DecidableEq, Inhabited, Repr

/-- A call on an ontology: its answer or the reason of its refusal, and the ontology afterwards. -/
abbrev Edit (α : Type) := Except OntologyError α × Ontology

namespace Node

/-- A node that has just been interned. -/
def fresh (e : Expression) : Node := ⟨e, .empty, 0⟩

end Node

namespace Disjointness

/-- A member listed twice has no instance. -/
def isSelfDisjoint (d : Disjointness) (member : NodeId) : Bool :=
  1 < d.members.count member

end Disjointness

namespace Ontology

variable (o : Ontology)

def top : NodeId := ⟨0⟩

def bottom : NodeId := ⟨1⟩

/-- The ontology of no axioms: deriving owl:Nothing is a contradiction, and that is all. -/
def empty : Ontology where
  nodes := #[.fresh .top, ⟨.bottom, RuleChain.empty.ensure .bottom, 0⟩]
  properties := #[]
  toldProperties := []
  disjointness := #[]

/-! ### Looking up -/

def size : Nat := o.nodes.size

def node? (id : NodeId) : Option Node := o.nodes[id.index]?

def expression? (id : NodeId) : Option Expression := (o.node? id).map (·.expression)

/-- The rules attached to a node; a number that is no node has none. -/
def rules (id : NodeId) : RuleChain := ((o.node? id).map (·.rules)).getD .empty

def property? (id : PropertyId) : Option Property := o.properties[id.index]?

def disjointness? (id : DisjointnessId) : Option Disjointness := o.disjointness[id.index]?

/-- The super-properties of a relation; a number that is no property has none, not even itself. -/
def supers (r : PropertyId) : List PropertyId := ((o.property? r).map (·.supers)).getD []

def subs (r : PropertyId) : List PropertyId := ((o.property? r).map (·.subs)).getD []

/-- All nodes, oldest first. -/
def nodeIds : List NodeId := (List.range o.size).map .ofIndex

/-- The named classes, oldest first. -/
def classes : List NodeId :=
  o.nodeIds.filter fun id => ((o.expression? id).map (·.isNamed)).getD false

/-- The node of an expression, if it has been interned. -/
def find? (e : Expression) : Option NodeId :=
  (o.nodes.findIdx? (·.expression == e)).map .ofIndex

def findClass? (name : String) : Option NodeId := o.find? (.named name)

def findProperty? (name : String) : Option PropertyId :=
  (o.properties.findIdx? (·.name == name)).map .ofIndex

/-- Fails with the number itself if it is no node. -/
def checkNode (id : NodeId) : Except OntologyError Unit :=
  if id.index < o.size then .ok () else .error (.unknownNode id)

/-- Fails with the number itself if it is no property. -/
def checkProperty (id : PropertyId) : Except OntologyError Unit :=
  if id.index < o.properties.size then .ok () else .error (.unknownProperty id)

/-! ### Interning -/

/-- The node of an expression, added at the end if it is new. -/
def intern (e : Expression) : NodeId × Ontology :=
  match o.find? e with
  | some id => (id, o)
  | none => (.ofIndex o.size, { o with nodes := o.nodes.push (.fresh e) })

def addClass (name : String) : NodeId × Ontology := o.intern (.named name)

/-- An edit that first runs a check: a failing check leaves the ontology alone. -/
def guarded {α : Type} (check : Except OntologyError Unit) (edit : Edit α) : Edit α :=
  match check with
  | .ok () => edit
  | .error e => (.error e, o)

/-- An edit that cannot fail. -/
def Edit.ofPair {α : Type} (p : α × Ontology) : Edit α := (.ok p.1, p.2)

def addIntersection (a b : NodeId) : Edit NodeId :=
  o.guarded (o.checkNode a) <| o.guarded (o.checkNode b) <|
    Edit.ofPair (o.intern (.meet a b))

/-- Of an unknown property and an unknown filler, the property is reported. -/
def addExistential (property : PropertyId) (filler : NodeId) : Edit NodeId :=
  o.guarded (o.checkProperty property) <| o.guarded (o.checkNode filler) <|
    Edit.ofPair (o.intern (.existential property filler))

/-- A property with nothing said about it is its own only super- and sub-property. -/
def addProperty (name : String) : PropertyId × Ontology :=
  match o.findProperty? name with
  | some id => (id, o)
  | none =>
    let id := PropertyId.ofIndex o.properties.size
    (id, { o with properties := o.properties.push ⟨name, [id], [id]⟩ })

/-- Changes the rules of a node; a number that is no node is ignored. -/
def modifyRules (id : NodeId) (f : RuleChain → RuleChain) : Ontology :=
  { o with nodes := o.nodes.modify id.index fun n => { n with rules := f n.rules } }

end Ontology

end Subsumption
