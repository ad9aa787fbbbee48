import Subsumption.Ids

/-!
Conclusions: what the rules derive about the root of a context.
-/
namespace Subsumption

/-- How a subsumer was obtained. A plain subsumer still has to be taken apart; a composed one was
put together from parts that its context already holds. -/
inductive Origin where
  | plain
  | composed
deriving DecidableEq, Inhabited, Repr

/-- A fact about the root of the context that it is stored in or queued for. -/
inductive Conclusion where
  /-- The root is subsumed by `expression`. -/
  | subsumer (expression : NodeId) (origin : Origin)
  /-- The root is related by `relation` to an instance of `target`. -/
  | forwardLink (relation : PropertyId) (target : NodeId)
  /-- An instance of `source` is related by `relation` to the root. -/
  | backwardLink (source : NodeId) (relation : PropertyId)
  /-- What is linked to the root by a sub-property of `relation` is subsumed by `carry`. -/
  | propagation (relation : PropertyId) (carry : NodeId)
  /-- The root has no instance. -/
  | contradiction
  /-- The root is subsumed by `member`, which the disjointness axiom lists. -/
  | disjointSubsumer (disjointness : DisjointnessId) (member : NodeId)
deriving DecidableEq, Inhabited, Repr

inductive ConclusionKind where
  | plainSubsumer
  | composedSubsumer
  | forwardLink
  | backwardLink
  | propagation
  | contradiction
  | disjointSubsumer
deriving DecidableEq, Inhabited, Repr

namespace ConclusionKind

/-- All kinds, in the order in which they are counted and reported. -/
def all : List ConclusionKind :=
  [.plainSubsumer, .composedSubsumer, .forwardLink, .backwardLink, .propagation, .contradiction,
    .disjointSubsumer]

/-- The position of a kind in the list of all kinds. -/
def index : ConclusionKind → Fin 7
  | .plainSubsumer => 0
  | .composedSubsumer => 1
  | .forwardLink => 2
  | .backwardLink => 3
  | .propagation => 4
  | .contradiction => 5
  | .disjointSubsumer => 6

def text : ConclusionKind → String
  | .plainSubsumer => "plain subsumer"
  | .composedSubsumer => "composed subsumer"
  | .forwardLink => "forward link"
  | .backwardLink => "backward link"
  | .propagation => "propagation"
  | .contradiction => "contradiction"
  | .disjointSubsumer => "disjoint subsumer"

theorem getElem_all_index (k : ConclusionKind) : all[k.index.val]? = some k := by
  cases k <;> rfl

theorem index_injective {k l : ConclusionKind} (h : k.index = l.index) : k = l := by
  cases k <;> cases l <;> simp_all [index]

end ConclusionKind

namespace Conclusion

def plain (expression : NodeId) : Conclusion := .subsumer expression .plain

def composed (expression : NodeId) : Conclusion := .subsumer expression .composed

def kind : Conclusion → ConclusionKind
  | .subsumer _ .plain => .plainSubsumer
  | .subsumer _ .composed => .composedSubsumer
  | .forwardLink _ _ => .forwardLink
  | .backwardLink _ _ => .backwardLink
  | .propagation _ _ => .propagation
  | .contradiction => .contradiction
  | .disjointSubsumer _ _ => .disjointSubsumer

end Conclusion

end Subsumption
