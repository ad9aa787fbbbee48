import Subsumption.Deduction
import Subsumption.Proofs.WellFormed

/-! What the rules of an ontology derive, and what supports a conclusion. -/
namespace Subsumption

namespace Ontology

/-- The least sets of subsumers, one for each node, that the rules allow. -/
inductive Derives (o : Ontology) : NodeId → NodeId → Prop
  | self {c} : Derives o c c
  | top {c} (h : (o.rules top).isEmpty = false) : Derives o c top
  | told {c x s} (hx : Derives o c x) (hs : s ∈ (o.rules x).supers) : Derives o c s
  | first {c x a b} (hx : Derives o c x) (he : o.expression? x = some (.intersection a b)) :
    Derives o c a
  | second {c x a b} (hx : Derives o c x) (he : o.expression? x = some (.intersection a b)) :
    Derives o c b
  | conjunction {c x y m} (hx : Derives o c x) (hy : Derives o c y)
    (hm : ⟨y, m⟩ ∈ (o.rules x).partners) : Derives o c m
  | propagation {c e f g e' r s} (he : Derives o c e) (hg : Derives o f g)
    (hr : o.expression? e = some (.existential r f)) (hs : s ∈ o.supers r)
    (hp : e' ∈ (o.rules g).existentials) (hr' : o.expression? e' = some (.existential s g)) :
    Derives o c e'

/-- The nodes that the rules find to have no instance. -/
inductive Refutes (o : Ontology) : NodeId → Prop
  | bottom {c} (hx : Derives o c bottom) : Refutes o c
  | clash {c d x y} (hx : Derives o c x) (hy : Derives o c y) (hne : x ≠ y)
    (dx : d ∈ (o.rules x).axioms) (dy : d ∈ (o.rules y).axioms) : Refutes o c
  | twice {c d x} (hx : Derives o c x) (dx : d ∈ (o.rules x).axioms)
    (ht : Deduction.isSelfDisjoint o d x = true) : Refutes o c
  | filler {c e r f} (he : Derives o c e) (hr : o.expression? e = some (.existential r f))
    (hf : Refutes o f) : Refutes o c

/-! ### Inferences -/

/-- What taking the subsumer `x` of a root apart leads to. -/
inductive Parts (o : Ontology) (root x : NodeId) : NodeId → Conclusion → Prop
  | first {a b} (he : o.expression? x = some (.intersection a b)) : Parts o root x root (.plain a)
  | second {a b} (he : o.expression? x = some (.intersection a b)) : Parts o root x root (.plain b)
  | forward {r f} (he : o.expression? x = some (.existential r f)) :
    Parts o root x root (.forwardLink r f)
  | backward {r f} (he : o.expression? x = some (.existential r f)) :
    Parts o root x f (.backwardLink root r)

/-- The single inferences: from facts about one root to a conclusion for a root. Subsumers that are
used are written as plain ones, however they were obtained. -/
inductive Infers (o : Ontology) (root : NodeId) : List Conclusion → NodeId → Conclusion → Prop
  | self : Infers o root [] root (.plain root)
  | top (h : (o.rules top).isEmpty = false) : Infers o root [] root (.plain top)
  | told {x s} (hs : s ∈ (o.rules x).supers) : Infers o root [.plain x] root (.plain s)
  | part {x n k} (hk : Parts o root x n k) : Infers o root [.plain x] n k
  | conjunction {x y m} (hm : ⟨y, m⟩ ∈ (o.rules x).partners) :
    Infers o root [.plain x, .plain y] root (.composed m)
  | propagation {g e s} (hp : e ∈ (o.rules g).existentials)
    (he : o.expression? e = some (.existential s g)) :
    Infers o root [.plain g] root (.propagation s e)
  | carried {n r s e} (hs : s ∈ o.supers r) :
    Infers o root [.backwardLink n r, .propagation s e] n (.composed e)
  | disjoint {x d} (hd : d ∈ (o.rules x).axioms) :
    Infers o root [.plain x] root (.disjointSubsumer d x)
  | bottom : Infers o root [.plain bottom] root .contradiction
  | clash {d x y} (hne : x ≠ y) :
    Infers o root [.disjointSubsumer d x, .disjointSubsumer d y] root .contradiction
  | twice {d x} (ht : Deduction.isSelfDisjoint o d x = true) :
    Infers o root [.disjointSubsumer d x] root .contradiction
  | linked {n r} : Infers o root [.backwardLink n r, .contradiction] n .contradiction

end Ontology

/-- The conclusion with another origin, if it is about a subsumer. -/
def Conclusion.withOrigin (g : Origin) : Conclusion → Conclusion
  | .subsumer x _ => .subsumer x g
  | k => k

namespace Ontology

/-- Conclusions with a finite derivation whose facts all hold according to `H`. -/
inductive Grounded (o : Ontology) (H : NodeId → Conclusion → Prop) : NodeId → Conclusion → Prop
  | intro {root ps n k} (origin : Conclusion → Origin) (hi : Infers o root ps n k)
    (hh : ∀ p ∈ ps, H root p) (hg : ∀ p ∈ ps, Grounded o H root (p.withOrigin (origin p))) :
    Grounded o H n k

variable {o : Ontology} {H H' : NodeId → Conclusion → Prop} {n root : NodeId}
  {ps : List Conclusion} {k l : Conclusion}

theorem one_premise {P : Conclusion → Prop} : (∀ p ∈ [k], P p) ↔ P k := by
  simp

theorem two_premises {P : Conclusion → Prop} : (∀ p ∈ [k, l], P p) ↔ P k ∧ P l := by
  simp

theorem Grounded.mono (hH : ∀ n k, H n k → H' n k) (h : Grounded o H n k) : Grounded o H' n k := by
  induction h with
  | intro origin hi hh _ ih => exact .intro origin hi (fun p hp => hH _ _ (hh p hp)) ih

/-- What a conclusion says about its root. -/
def Means (o : Ontology) (n : NodeId) : Conclusion → Prop
  | .subsumer x _ => o.Derives n x
  | .forwardLink r f => ∃ e, o.Derives n e ∧ o.expression? e = some (.existential r f)
  | .backwardLink s r => ∃ e, o.Derives s e ∧ o.expression? e = some (.existential r n)
  | .propagation s e => ∃ g, o.Derives n g ∧ e ∈ (o.rules g).existentials ∧
    o.expression? e = some (.existential s g)
  | .contradiction => o.Refutes n
  | .disjointSubsumer d x => o.Derives n x ∧ d ∈ (o.rules x).axioms

theorem means_withOrigin {g : Origin} : o.Means n (k.withOrigin g) ↔ o.Means n k := by
  cases k <;> rfl

theorem means_of_parts {x : NodeId} (h : Parts o root x n k) (hx : o.Derives root x) :
    o.Means n k := by
  cases h with
  | first he => exact .first hx he
  | second he => exact .second hx he
  | forward he => exact ⟨x, hx, he⟩
  | backward he => exact ⟨x, hx, he⟩

/-- Every inference is sound. -/
theorem means_of_infers (hi : Infers o root ps n k) (hp : ∀ p ∈ ps, o.Means root p) :
    o.Means n k := by
  cases hi with
  | self => exact .self
  | top h => exact .top h
  | told hs => exact .told (one_premise.mp hp) hs
  | part hk => exact means_of_parts hk (one_premise.mp hp)
  | conjunction hm =>
    obtain ⟨hx, hy⟩ := two_premises.mp hp
    exact .conjunction hx hy hm
  | propagation hm he => exact ⟨_, one_premise.mp hp, hm, he⟩
  | carried hs =>
    obtain ⟨⟨x, hx, hr⟩, g, hg, hm, he⟩ := two_premises.mp hp
    exact .propagation hx hg hr hs hm he
  | disjoint hd => exact ⟨one_premise.mp hp, hd⟩
  | bottom => exact .bottom (one_premise.mp hp)
  | clash hne =>
    obtain ⟨⟨hx, dx⟩, hy, dy⟩ := two_premises.mp hp
    exact .clash hx hy hne dx dy
  | twice ht =>
    obtain ⟨hx, dx⟩ := one_premise.mp hp
    exact .twice hx dx ht
  | linked =>
    obtain ⟨⟨e, he, hr⟩, hf⟩ := two_premises.mp hp
    exact .filler he hr hf

/-- What is grounded holds according to the rules. -/
theorem Grounded.means (h : Grounded o H n k) : o.Means n k := by
  induction h with
  | intro origin hi _ _ ih =>
    exact means_of_infers hi fun p hp => means_withOrigin.mp (ih p hp)

end Ontology

end Subsumption
