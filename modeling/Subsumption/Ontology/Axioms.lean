import Subsumption.Ontology

/-!
Told axioms. A node that comes to occur on the left of an axiom is registered: the conjuncts of an
intersection get rules that compose it, the filler of an existential one that propagates it, and
the parts are registered in turn. Registrations are counted, and only the first one attaches rules
and the last withdrawal detaches them.
-/
namespace Subsumption.Ontology

variable (o : Ontology)

def modifyNegative (id : NodeId) (f : UInt32 → UInt32) : Ontology :=
  { o with nodes := o.nodes.modify id.index fun n => { n with negative := f n.negative } }

/-- How often a node is registered; a number that is no node never is. -/
def negative (id : NodeId) : UInt32 := ((o.node? id).map (·.negative)).getD 0

/-- A count goes down to zero and stays there. -/
def decrement (n : UInt32) : UInt32 := if n = 0 then 0 else n - 1

/-- Registers an occurrence on the left. The parts of a node have smaller numbers than the node, and
only such parts are followed. -/
def register (o : Ontology) (id : NodeId) : Ontology :=
  let o := o.modifyNegative id (· + 1)
  if 1 < o.negative id then o
  else
    match o.expression? id with
    | some (.intersection first second) =>
      let o := o.modifyRules first (·.addPartner ⟨second, id⟩)
      let o := o.modifyRules second (·.addPartner ⟨first, id⟩)
      let o := if _h : first.index < id.index then o.register first else o
      if _h : second.index < id.index then o.register second else o
    | some (.existential _ filler) =>
      let o := o.modifyRules filler (·.addExistential id)
      if _h : filler.index < id.index then o.register filler else o
    | _ => o
termination_by id.index

/-- Withdraws one registration, detaching what the first one attached when none is left. -/
def withdraw (o : Ontology) (id : NodeId) : Ontology :=
  let o := o.modifyNegative id decrement
  if 0 < o.negative id then o
  else
    match o.expression? id with
    | some (.intersection first second) =>
      let o := o.modifyRules first (·.erasePartner ⟨second, id⟩)
      let o := o.modifyRules second (·.erasePartner ⟨first, id⟩)
      let o := if _h : first.index < id.index then o.withdraw first else o
      if _h : second.index < id.index then o.withdraw second else o
    | some (.existential _ filler) =>
      let o := o.modifyRules filler (·.eraseExistential id)
      if _h : filler.index < id.index then o.withdraw filler else o
    | _ => o
termination_by id.index

/-- Tells that `sub` is contained in `sup`. -/
def addSubclass (sub sup : NodeId) : Edit Unit :=
  o.guarded (o.checkNode sub) <| o.guarded (o.checkNode sup) <|
    (.ok (), (o.modifyRules sub (·.addSuper sup)).register sub)

/-- Takes back one registration of `sub ⊑ sup`. -/
def removeSubclass (sub sup : NodeId) : Edit Unit :=
  o.guarded (o.checkNode sub) <| o.guarded (o.checkNode sup) <|
    let shorter := o.modifyRules sub (·.eraseSuper sup)
    if (o.rules sub).hasSuper sup then (.ok (), shorter.withdraw sub)
    else (.error (.noSuchAxiom sub sup), shorter)

/-- The first of several numbers that is no node is reported. -/
def checkNodes : List NodeId → Except OntologyError Unit
  | [] => .ok ()
  | id :: ids =>
    match o.checkNode id with
    | .ok () => checkNodes ids
    | .error e => .error e

/-- Tells that the members are pairwise disjoint, by position: a member listed twice is empty. -/
def addDisjointness (members : List NodeId) : Edit DisjointnessId :=
  if members.length < 2 then (.error (.tooFewMembers members.length), o)
  else
    o.guarded (o.checkNodes members) <|
      let id := DisjointnessId.ofIndex o.disjointness.size
      let listed := { o with disjointness := o.disjointness.push ⟨members⟩ }
      (.ok id, members.foldl (fun o member => o.modifyRules member (·.addDisjointness id)) listed)

end Subsumption.Ontology
