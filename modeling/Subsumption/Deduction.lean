import Subsumption.Context
import Subsumption.Ontology

/-!
Deduction: what one conclusion leads to in the context that it is taken from. `Context.derive` gives
the context with the new fact and, in order, the effects that follow: conclusions for the context
itself, conclusions for the contexts of other roots, and the marks that are counted or reported.
How effects are carried out is left to the engines, and so is the order in which a contradiction goes
along the links of different relations.
-/
namespace Subsumption

inductive Effect where
  /-- A conclusion for the context itself. -/
  | own (k : Conclusion)
  /-- Conclusions for the context of a root, which is created if there is none. -/
  | send (root : NodeId) (ks : List Conclusion)
  /-- A plain subsumer has been taken apart. -/
  | decomposed
  /-- A rule has been applied. -/
  | applied (kind : RuleKind)
  /-- The context has been found inconsistent. -/
  | refuted (root : NodeId)
deriving DecidableEq, Repr

namespace Deduction

variable (o : Ontology)

/-- Takes a plain subsumer apart: a conjunction into its conjuncts, an existential into a link to
its filler. Named classes, owl:Thing and owl:Nothing have no parts. -/
def decompose (root expression : NodeId) : List Effect :=
  match o.expression? expression with
  | some (.intersection first second) =>
    [.own (.plain first), .own (.plain second), .decomposed]
  | some (.existential property filler) =>
    [.send filler [.backwardLink root property], .own (.forwardLink property filler), .decomposed]
  | _ => []

/-- The propagation of an existential along its own property. -/
def propagationOf (existential : NodeId) : List Conclusion :=
  match o.expression? existential with
  | some (.existential property _) => [.propagation property existential]
  | _ => []

/-- What a rule of the node `expression` derives where the facts `f` hold. -/
def ruleConclusions (f : Facts) (expression : NodeId) : Rule → List Conclusion
  | .contradiction => [.contradiction]
  | .told supers => supers.map .plain
  | .conjunction partners =>
    (partners.filter fun entry => f.hasSubsumer entry.partner).map fun entry =>
      .composed entry.conjunction
  | .propagation existentials => existentials.flatMap (propagationOf o)
  | .disjointness axioms => axioms.map fun d => .disjointSubsumer d expression

def ruleEffects (f : Facts) (expression : NodeId) (rule : Rule) : List Effect :=
  (ruleConclusions o f expression rule).map .own ++ [.applied rule.kind]

/-- Applies the rules of a derived node in the order of its chain. -/
def compose (f : Facts) (expression : NodeId) : List Effect :=
  (o.rules expression).rules.flatMap (ruleEffects o f expression)

/-- The existentials that reach the source of a new link along `relation`. -/
def carried (f : Facts) (relation : PropertyId) : List NodeId :=
  (o.supers relation).flatMap f.propagated

/-- The sources that a new propagation along `relation` reaches. -/
def reachedSources (f : Facts) (relation : PropertyId) : List NodeId :=
  (o.subs relation).flatMap f.backwardSources

/-- Whether the axiom lists the member twice. -/
def isSelfDisjoint (d : DisjointnessId) (member : NodeId) : Bool :=
  ((o.disjointness? d).map (·.isSelfDisjoint member)).getD false

end Deduction

namespace Context

open Deduction

variable (o : Ontology) (c : Context) (order : List PropertyId)

/-- An inconsistent context takes no notice of anything but new links, along which the
contradiction goes on. -/
def deriveInconsistent : Conclusion → Context × List Effect
  | .backwardLink source relation =>
    match c.facts.insertBackward? relation source with
    | some f => ({ c with facts := f }, [.send source [.contradiction]])
    | none => (c, [])
  | _ => (c, [])

def deriveConsistent : Conclusion → Context × List Effect
  | .subsumer expression origin =>
    match c.facts.insertSubsumer? expression with
    | some f =>
      ({ c with facts := f },
        (match origin with
          | .plain => decompose o c.root expression
          | .composed => []) ++ compose o f expression)
    | none => (c, [])
  | .forwardLink relation target =>
    ({ c with facts := c.facts.insertForward relation target }, [])
  | .backwardLink source relation =>
    match c.facts.insertBackward? relation source with
    | some f =>
      ({ c with facts := f },
        match carried o f relation with
        | [] => []
        | carries => [.send source (carries.map .composed)])
    | none => (c, [])
  | .propagation relation carry =>
    match c.facts.insertPropagation? relation carry with
    | some f =>
      ({ c with facts := f },
        (reachedSources o f relation).map fun source => .send source [.composed carry])
    | none => (c, [])
  | .contradiction =>
    ({ c with inconsistent := true },
      .refuted c.root :: (c.facts.sources order).map fun source => .send source [.contradiction])
  | .disjointSubsumer d member =>
    let f := c.facts.insertDisjoint d member
    ({ c with facts := f },
      if f.clashes d || isSelfDisjoint o d member then [.own .contradiction] else [])

/-- The context after a conclusion taken from it has been looked at, and what follows. The order is
that of the relations in its table of links. -/
def derive (k : Conclusion) : Context × List Effect :=
  if c.inconsistent then c.deriveInconsistent k else c.deriveConsistent o order k

end Context

end Subsumption
