import Subsumption.Ontology

/-!
Class expressions in functional-style notation. A number that is no node is shown as the number.
-/
namespace Subsumption.Ontology

variable (o : Ontology)

def propertyText (p : PropertyId) : String := ((o.property? p).map (·.name)).getD p.text

/-- The text of a node. The parts of a node have smaller numbers, and only such parts are spelled
out. -/
def display (o : Ontology) (id : NodeId) : String :=
  match o.expression? id with
  | none => id.text
  | some (.named name) => name
  | some .top => "owl:Thing"
  | some .bottom => "owl:Nothing"
  | some (.intersection first second) =>
    let a := if _h : first.index < id.index then o.display first else first.text
    let b := if _h : second.index < id.index then o.display second else second.text
    "ObjectIntersectionOf(" ++ a ++ " " ++ b ++ ")"
  | some (.existential property filler) =>
    let a := if _h : filler.index < id.index then o.display filler else filler.text
    "ObjectSomeValuesFrom(" ++ o.propertyText property ++ " " ++ a ++ ")"
termination_by id.index

end Subsumption.Ontology
