import Subsumption.Ontology

/-!
The property hierarchy. Each property lists the properties that it reaches by told pairs, itself
included, and those that reach it; the lists are made anew whenever a pair is added.
-/
namespace Subsumption.Ontology

/-- The properties told to be directly above `p`. -/
def directSupers (told : List (PropertyId × PropertyId)) (p : PropertyId) : List PropertyId :=
  (told.filter (·.1 == p)).map (·.2)

/-- Extends the properties seen by all that is reached from those still to be followed, which are
among them. Each round settles one property, and none is to be followed twice, so as many rounds as
there are properties suffice. -/
def explore (told : List (PropertyId × PropertyId)) :
    Nat → List PropertyId → List PropertyId → List PropertyId
  | 0, _, seen => seen
  | _ + 1, [], seen => seen
  | n + 1, p :: rest, seen =>
    let new := (directSupers told p).eraseDups.filter (!seen.contains ·)
    explore told n (new ++ rest) (new ++ seen)

/-- The properties reached from `p`, in no particular order. -/
def reached (told : List (PropertyId × PropertyId)) (count : Nat) (p : PropertyId) :
    List PropertyId :=
  explore told count [p] [p]

variable (o : Ontology)

def propertyIds : List PropertyId := (List.range o.properties.size).map .ofIndex

/-- The hierarchy that the told pairs make: every property with the properties it reaches. -/
def reachedProperties : List (PropertyId × List PropertyId) :=
  o.propertyIds.map fun p => (p, reached o.toldProperties o.properties.size p)

/-- Fills in the super- and sub-properties of every property, in order of number. -/
def withHierarchy : Ontology :=
  let table := o.reachedProperties
  let supersOf (p : PropertyId) := (table.lookup p).getD []
  let place (i : Nat) (q : Property) : Property :=
    let p := PropertyId.ofIndex i
    { q with
      supers := o.propertyIds.filter ((supersOf p).contains ·)
      subs := o.propertyIds.filter fun s => (supersOf s).contains p }
  { o with properties := o.properties.mapIdx place }

/-- Tells that `sub` is a sub-property of `sup`. -/
def addSubProperty (sub sup : PropertyId) : Edit Unit :=
  o.guarded (o.checkProperty sub) <| o.guarded (o.checkProperty sup) <|
    (.ok (), withHierarchy { o with toldProperties := o.toldProperties ++ [(sub, sup)] })

end Subsumption.Ontology
