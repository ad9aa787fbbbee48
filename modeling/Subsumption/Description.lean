import Subsumption.Ontology.Hierarchy
import Subsumption.Ontology.Axioms

/-!
Class descriptions as trees of names, and statements about them. Telling an ontology a statement
interns the descriptions in it, parts before wholes and from left to right, and then makes the edit.
-/
namespace Subsumption

inductive Description where
  | named (name : String)
  | top
  | bottom
  | both (first second : Description)
  | having (property : String) (filler : Description)
deriving DecidableEq, Repr

inductive Statement where
  | sub (sub sup : Description)
  /-- Takes a told subclass statement back. -/
  | retract (sub sup : Description)
  | equal (a b : Description)
  | disjoint (members : List Description)
  | subProperty (sub sup : String)
  /-- Only interns. -/
  | declare (d : Description)
deriving Repr

/-- What an ontology answers to a statement. -/
inductive Reply where
  | done
  | axiomNumber (id : DisjointnessId)
  | node (id : NodeId)
  | refused (e : OntologyError)
deriving DecidableEq, Repr

namespace Reply

def ofResult {α : Type} (answer : α → Reply) : Except OntologyError α → Reply
  | .ok a => answer a
  | .error e => .refused e

end Reply

namespace Ontology

variable (o : Ontology)

/-- The node of a description. -/
def describe (o : Ontology) : Description → NodeId × Ontology
  | .named name => o.addClass name
  | .top => (top, o)
  | .bottom => (bottom, o)
  | .both a b =>
    let (a, o) := o.describe a
    let (b, o) := o.describe b
    o.intern (.meet a b)
  | .having property filler =>
    let (p, o) := o.addProperty property
    let (filler, o) := o.describe filler
    o.intern (.existential p filler)

/-- The nodes of several descriptions. -/
def describeAll (o : Ontology) : List Description → List NodeId × Ontology
  | [] => ([], o)
  | d :: ds =>
    let (id, o) := o.describe d
    let (ids, o) := o.describeAll ds
    (id :: ids, o)

/-- Makes an edit and puts its answer into words. -/
def reply {α : Type} (answer : α → Reply) (e : Edit α) : Reply × Ontology :=
  (.ofResult answer e.1, e.2)

def tell : Statement → Reply × Ontology
  | .sub a b =>
    let (a, o) := o.describe a
    let (b, o) := o.describe b
    reply (fun _ => .done) (o.addSubclass a b)
  | .retract a b =>
    let (a, o) := o.describe a
    let (b, o) := o.describe b
    reply (fun _ => .done) (o.removeSubclass a b)
  | .equal a b =>
    let (a, o) := o.describe a
    let (b, o) := o.describe b
    match o.addSubclass a b with
    | (.error e, o) => (.refused e, o)
    | (.ok (), o) => reply (fun _ => .done) (o.addSubclass b a)
  | .disjoint members =>
    let (members, o) := o.describeAll members
    reply .axiomNumber (o.addDisjointness members)
  | .subProperty a b =>
    let (a, o) := o.addProperty a
    let (b, o) := o.addProperty b
    reply (fun _ => .done) (o.addSubProperty a b)
  | .declare d =>
    let (id, o) := o.describe d
    (.node id, o)

/-- Tells statements one after the other. -/
def tellAll (o : Ontology) : List Statement → List Reply × Ontology
  | [] => ([], o)
  | s :: ss =>
    let (r, o) := o.tell s
    let (rs, o) := o.tellAll ss
    (r :: rs, o)

end Ontology

end Subsumption
