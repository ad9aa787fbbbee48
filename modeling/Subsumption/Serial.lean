import Subsumption.Conclusion
import Subsumption.Form
import Subsumption.Ontology

/-!
The written forms of numbers, expressions, rules, conclusions and the entries of an ontology.
-/
namespace Subsumption

open Serial

instance : Serial NodeId where
  form n := form n.value
  read? f := (read? f).map .mk

instance : Serial PropertyId where
  form p := form p.value
  read? f := (read? f).map .mk

instance : Serial DisjointnessId where
  form d := form d.value
  read? f := (read? f).map .mk

namespace Origin

def name : Origin → String
  | .plain => "plain"
  | .composed => "composed"

def ofName? : String → Option Origin
  | "plain" => some .plain
  | "composed" => some .composed
  | _ => none

instance : Serial Origin where
  form o := .text o.name
  read? f := f.plainCase?.bind ofName?

end Origin

namespace ConclusionKind

def name : ConclusionKind → String
  | .plainSubsumer => "plain_subsumer"
  | .composedSubsumer => "composed_subsumer"
  | .forwardLink => "forward_link"
  | .backwardLink => "backward_link"
  | .propagation => "propagation"
  | .contradiction => "contradiction"
  | .disjointSubsumer => "disjoint_subsumer"

def ofName? (s : String) : Option ConclusionKind := all.find? (·.name == s)

instance : Serial ConclusionKind where
  form k := .text k.name
  read? f := f.plainCase?.bind ofName?

end ConclusionKind

namespace RuleKind

def name : RuleKind → String
  | .bottom => "bottom"
  | .told => "sub_class_of"
  | .conjunction => "conjunction"
  | .propagation => "propagation"
  | .disjointness => "disjointness"

def ofName? (s : String) : Option RuleKind := all.find? (·.name == s)

instance : Serial RuleKind where
  form k := .text k.name
  read? f := f.plainCase?.bind ofName?

end RuleKind

instance : Serial Partner where
  form e := .object [("partner", form e.partner), ("conjunction", form e.conjunction)]
  read? f := readTwo? "partner" "conjunction" read? read? f Partner.mk

namespace Rule

def toForm : Rule → Form
  | .contradiction => .text "ContradictionOnBottom"
  | .told supers => .ofCase "ToldSubsumers" [("supers", form supers)]
  | .conjunction partners => .ofCase "ConjunctionComposition" [("partners", form partners)]
  | .propagation existentials =>
    .ofCase "ExistentialPropagation" [("existentials", form existentials)]
  | .disjointness axioms => .ofCase "Disjointness" [("axioms", form axioms)]

def ofForm? (f : Form) : Option Rule :=
  match f.case? with
  | some ("ContradictionOnBottom", none) => some .contradiction
  | some ("ContradictionOnBottom", some .null) => some .contradiction
  | some ("ToldSubsumers", some (.object fields)) => readOne? "supers" (.object fields) .told
  | some ("ConjunctionComposition", some (.object fields)) =>
    readOne? "partners" (.object fields) .conjunction
  | some ("ExistentialPropagation", some (.object fields)) =>
    readOne? "existentials" (.object fields) .propagation
  | some ("Disjointness", some (.object fields)) =>
    readOne? "axioms" (.object fields) .disjointness
  | _ => none

instance : Serial Rule := ⟨toForm, ofForm?⟩

end Rule

instance : Serial RuleChain where
  form c := .object [("rules", form c.rules)]
  read? f := readOne? "rules" f RuleChain.mk

namespace Expression

def toForm : Expression → Form
  | .named name => .ofCase "Class" [("name", form name)]
  | .top => .text "Top"
  | .bottom => .text "Bottom"
  | .intersection first second =>
    .ofCase "Intersection" [("first", form first), ("second", form second)]
  | .existential property filler =>
    .ofCase "Existential" [("property", form property), ("filler", form filler)]

def ofForm? (f : Form) : Option Expression :=
  match f.case? with
  | some ("Class", some (.object fields)) => readOne? "name" (.object fields) .named
  | some ("Top", none) => some .top
  | some ("Top", some .null) => some .top
  | some ("Bottom", none) => some .bottom
  | some ("Bottom", some .null) => some .bottom
  | some ("Intersection", some (.object fields)) =>
    readTwo? "first" "second" read? read? (.object fields) .intersection
  | some ("Existential", some (.object fields)) =>
    readTwo? "property" "filler" read? read? (.object fields) .existential
  | _ => none

instance : Serial Expression := ⟨toForm, ofForm?⟩

end Expression

instance : Serial Node where
  form n := .object
    [("expression", form n.expression), ("rules", form n.rules),
      ("negative_occurrences", form n.negative)]
  read? f :=
    readThree? "expression" "rules" "negative_occurrences" read? read? read? f Node.mk

instance : Serial Property where
  form p := .object
    [("name", form p.name), ("super_properties", form p.supers), ("sub_properties", form p.subs)]
  read? f :=
    readThree? "name" "super_properties" "sub_properties" read? read? read? f Property.mk

instance : Serial Disjointness where
  form d := .object [("members", form d.members)]
  read? f := readOne? "members" f Disjointness.mk

namespace Conclusion

def toForm : Conclusion → Form
  | .subsumer expression origin => .object
    [("kind", .text "subsumer"), ("expression", form expression), ("origin", form origin)]
  | .forwardLink relation target => .object
    [("kind", .text "forward_link"), ("relation", form relation), ("target", form target)]
  | .backwardLink source relation => .object
    [("kind", .text "backward_link"), ("source", form source), ("relation", form relation)]
  | .propagation relation carry => .object
    [("kind", .text "propagation"), ("relation", form relation), ("carry", form carry)]
  | .contradiction => .object [("kind", .text "contradiction")]
  | .disjointSubsumer disjointness member => .object
    [("kind", .text "disjoint_subsumer"), ("axiom", form disjointness), ("member", form member)]

/-- The kind of a conclusion stands among its fields, or first in the list of them. -/
def kind? : Form → Option (String × Form)
  | .object fields =>
    match fields.lookup "kind" with
    | some (.text kind) => some (kind, .object fields)
    | _ => none
  | .list (.text kind :: rest) => some (kind, .list rest)
  | _ => none

/-- Within a conclusion, the content of an origin may also be an object without fields. -/
def readOrigin? (f : Form) : Option Origin :=
  match f.case? with
  | some (name, some (.object [])) => Origin.ofName? name
  | _ => read? f

/-- A contradiction has no fields; those of an object are ignored. -/
def isBare : Form → Bool
  | .object _ => true
  | .list items => items.isEmpty
  | _ => false

def ofForm? (f : Form) : Option Conclusion :=
  match kind? f with
  | some ("subsumer", content) =>
    readTwo? "expression" "origin" read? readOrigin? content .subsumer
  | some ("forward_link", content) =>
    readTwo? "relation" "target" read? read? content .forwardLink
  | some ("backward_link", content) =>
    readTwo? "source" "relation" read? read? content .backwardLink
  | some ("propagation", content) =>
    readTwo? "relation" "carry" read? read? content .propagation
  | some ("contradiction", content) => if isBare content then some .contradiction else none
  | some ("disjoint_subsumer", content) =>
    readTwo? "axiom" "member" read? read? content .disjointSubsumer
  | _ => none

instance : Serial Conclusion := ⟨toForm, ofForm?⟩

end Conclusion

end Subsumption
