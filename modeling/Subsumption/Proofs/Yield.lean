import Mathlib.Algebra.GroupWithZero.Nat
import Mathlib.Algebra.Order.BigOperators.Group.List
import Mathlib.Algebra.Order.Group.Nat
import Mathlib.Data.Finset.Prod
import Subsumption.Proofs.Sources
import Subsumption.RuleEngine

/-! What one conclusion leads to. It adds a fact, and what follows is bounded by the rules of a node
and by the facts of its context, or next to nothing follows. A context has room for finitely many
facts. -/
namespace Subsumption

/-! ### How many facts there can be -/

section
variable {α β : Type} [DecidableEq α]

theorem card_toFinset_concat {l : List α} {x : α} (h : x ∉ l) :
    (l ++ [x]).toFinset.card = l.toFinset.card + 1 := by
  have hx : x ∉ l.toFinset := fun hx => h (List.mem_toFinset.mp hx)
  rw [List.toFinset_append, List.toFinset_cons, List.toFinset_nil, Finset.union_comm]
  exact Finset.card_insert_of_notMem hx

omit [DecidableEq α] in
theorem card_le_of_word {f : α → UInt32} (hf : Function.Injective f) (s : Finset α) :
    s.card ≤ UInt32.size := by
  rw [← Finset.card_range UInt32.size]
  refine Finset.card_le_card_of_injOn (fun a => (f a).toNat) ?_ ?_
  · exact fun a _ => Finset.mem_coe.mpr (Finset.mem_range.mpr (f a).toNat_lt)
  · exact fun a _ b _ h => hf (UInt32.toNat_inj.mp h)

theorem card_le_pairBound [DecidableEq β] {f : α → UInt32} {g : β → UInt32}
    (hf : Function.Injective f) (hg : Function.Injective g) (s : Finset (α × β)) :
    s.card ≤ pairBound := by
  have hsub : s ⊆ s.image Prod.fst ×ˢ s.image Prod.snd := fun p hp =>
    Finset.mem_product.mpr ⟨Finset.mem_image_of_mem _ hp, Finset.mem_image_of_mem _ hp⟩
  calc s.card ≤ (s.image Prod.fst).card * (s.image Prod.snd).card :=
        (Finset.card_le_card hsub).trans_eq (Finset.card_product _ _)
    _ ≤ pairBound := Nat.mul_le_mul (card_le_of_word hf _) (card_le_of_word hg _)

end

theorem NodeId.value_injective : Function.Injective NodeId.value := by
  rintro ⟨_⟩ ⟨_⟩ rfl
  rfl

theorem PropertyId.value_injective : Function.Injective PropertyId.value := by
  rintro ⟨_⟩ ⟨_⟩ rfl
  rfl

theorem DisjointnessId.value_injective : Function.Injective DisjointnessId.value := by
  rintro ⟨_⟩ ⟨_⟩ rfl
  rfl

namespace Facts

variable {f f' : Facts} {n : NodeId} {r : PropertyId} {d : DisjointnessId} {e : Nat}

/-- The number of different facts. -/
def count (f : Facts) : Nat :=
  f.subsumers.toFinset.card + f.backward.toFinset.card + f.forward.toFinset.card
    + f.propagations.toFinset.card + f.disjoint.toFinset.card

theorem count_lt (f : Facts) : f.count < factBound := by
  have hs := card_le_of_word NodeId.value_injective f.subsumers.toFinset
  have hb := card_le_pairBound PropertyId.value_injective NodeId.value_injective f.backward.toFinset
  have hf := card_le_pairBound PropertyId.value_injective NodeId.value_injective f.forward.toFinset
  have hp := card_le_pairBound PropertyId.value_injective NodeId.value_injective
    f.propagations.toFinset
  have hd := card_le_pairBound DisjointnessId.value_injective NodeId.value_injective
    f.disjoint.toFinset
  unfold count factBound
  omega

/-- All but `e` of the links that lead to the root, and of the propagations, are different. -/
structure Distinct (e : Nat) (f : Facts) : Prop where
  backward : f.backward.length ≤ f.backward.toFinset.card + e
  propagations : f.propagations.length ≤ f.propagations.toFinset.card + e

theorem distinct_size (f : Facts) : f.Distinct f.size := by
  constructor <;> unfold size <;> omega

theorem Distinct.mono (h : f.Distinct e) {e' : Nat} (he : e ≤ e') : f.Distinct e' :=
  ⟨h.backward.trans (Nat.add_le_add_left he _), h.propagations.trans (Nat.add_le_add_left he _)⟩

theorem Distinct.backward_le (h : f.Distinct e) : f.backward.length ≤ pairBound + e :=
  h.backward.trans (Nat.add_le_add_right
    (card_le_pairBound PropertyId.value_injective NodeId.value_injective _) _)

theorem Distinct.propagations_le (h : f.Distinct e) : f.propagations.length ≤ pairBound + e :=
  h.propagations.trans (Nat.add_le_add_right
    (card_le_pairBound PropertyId.value_injective NodeId.value_injective _) _)

/-- With a new fact, those that are different stay so. -/
theorem insertSubsumer_counts (h : f.insertSubsumer? n = some f') (hd : f.Distinct e) :
    f'.count = f.count + 1 ∧ f'.Distinct e := by
  unfold insertSubsumer? at h
  split at h <;> cases h
  have hcard := card_toFinset_concat (l := f.subsumers) (x := n)
    (fun hn => ‹¬ _› (List.contains_iff_mem.mpr hn))
  refine ⟨?_, hd.backward, hd.propagations⟩
  simp only [count]
  omega

theorem insertBackward_counts (h : f.insertBackward? r n = some f') (hd : f.Distinct e) :
    f'.count = f.count + 1 ∧ f'.Distinct e := by
  unfold insertBackward? at h
  split at h <;> cases h
  have hcard := card_toFinset_concat (l := f.backward) (x := (r, n))
    (fun hn => ‹¬ _› (List.contains_iff_mem.mpr hn))
  have hb := hd.backward
  refine ⟨?_, ?_, hd.propagations⟩
  · simp only [count]
    omega
  · simp only [List.length_append, List.length_singleton]
    omega

theorem insertPropagation_counts (h : f.insertPropagation? r n = some f') (hd : f.Distinct e) :
    f'.count = f.count + 1 ∧ f'.Distinct e := by
  unfold insertPropagation? at h
  split at h <;> cases h
  have hcard := card_toFinset_concat (l := f.propagations) (x := (r, n))
    (fun hn => ‹¬ _› (List.contains_iff_mem.mpr hn))
  have hp := hd.propagations
  refine ⟨?_, hd.backward, ?_⟩
  · simp only [count]
    omega
  · simp only [List.length_append, List.length_singleton]
    omega

theorem insertForward_counts (f : Facts) (r : PropertyId) (n : NodeId) (hd : f.Distinct e) :
    f.count ≤ (f.insertForward r n).count ∧ (f.insertForward r n).Distinct e := by
  unfold insertForward
  split
  · exact ⟨Nat.le_refl _, hd⟩
  · have hcard := card_toFinset_concat (l := f.forward) (x := (r, n))
      (fun hn => ‹¬ _› (List.contains_iff_mem.mpr hn))
    refine ⟨?_, hd.backward, hd.propagations⟩
    simp only [count]
    omega

theorem insertDisjoint_counts (f : Facts) (d : DisjointnessId) (n : NodeId) (hd : f.Distinct e) :
    f.count ≤ (f.insertDisjoint d n).count ∧ (f.insertDisjoint d n).Distinct e := by
  unfold insertDisjoint
  split
  · exact ⟨Nat.le_refl _, hd⟩
  · have hcard := card_toFinset_concat (l := f.disjoint) (x := (d, n))
      (fun hn => ‹¬ _› (List.contains_iff_mem.mpr hn))
    refine ⟨?_, hd.backward, hd.propagations⟩
    simp only [count]
    omega

end Facts

/-! ### What follows -/

/-- How much a pending conclusion weighs. A contradiction weighs least, as it may follow from a
conclusion that adds no fact. -/
def Conclusion.weight : Conclusion → Nat
  | .contradiction => 1
  | _ => 4

theorem Conclusion.weight_le (k : Conclusion) : k.weight ≤ 4 := by
  cases k <;> simp [weight]

/-- How much an effect puts on the queues: the conclusions, with two for a new context, and for each
the place of its context in the queue. -/
def Effect.charge : Effect → Nat
  | .own k => k.weight + 2
  | .send _ ks => 6 * ks.length + 12
  | _ => 0

def charges (es : List Effect) : Nat := (es.map Effect.charge).sum

@[simp] theorem charges_nil : charges [] = 0 := rfl

@[simp] theorem charges_cons (e : Effect) (es : List Effect) :
    charges (e :: es) = e.charge + charges es := rfl

@[simp] theorem charges_append (es es' : List Effect) :
    charges (es ++ es') = charges es + charges es' := by
  simp [charges]

theorem charges_le {es : List Effect} {b : Nat} (h : ∀ e ∈ es, e.charge ≤ b) :
    charges es ≤ b * es.length := by
  rw [Nat.mul_comm]
  refine (List.sum_le_card_nsmul _ b ?_).trans_eq (by simp)
  intro n hn
  obtain ⟨e, he, rfl⟩ := List.mem_map.mp hn
  exact h e he

theorem charges_send_one {β : Type} (l : List β) (target : β → NodeId) (k : β → Conclusion) :
    charges (l.map fun b => .send (target b) [k b]) = 18 * l.length := by
  induction l with
  | nil => rfl
  | cons b l ih =>
    rw [List.map_cons, charges_cons, ih]
    simp only [Effect.charge, List.length_cons, List.length_nil]
    omega

/-- A bound for the conclusions that one new fact leads to, if all but `e` of the facts of a context
are different. -/
def Ontology.yield (o : Ontology) (e : Nat) : Nat :=
  4 + (o.nodes.toList.map fun n => n.rules.size).sum
    + 3 * ((pairBound + e)
      * (1 + (o.properties.toList.map fun p => p.supers.length + p.subs.length).sum))

namespace Deduction

variable {o : Ontology} {f : Facts} {x : NodeId} {r : PropertyId} {e : Nat}

theorem size_rules_le (o : Ontology) (x : NodeId) :
    (o.rules x).size ≤ (o.nodes.toList.map fun n => n.rules.size).sum := by
  cases hn : o.node? x with
  | none => simp [Ontology.rules, hn, RuleChain.size, RuleChain.empty]
  | some n =>
    have hmem : n ∈ o.nodes.toList := Array.mem_toList_iff.mpr (Array.mem_of_getElem? hn)
    simp only [Ontology.rules, hn, Option.map_some, Option.getD_some]
    exact List.le_sum_of_mem (List.mem_map_of_mem hmem)

theorem length_hierarchy_le (o : Ontology) (r : PropertyId) :
    (o.supers r).length + (o.subs r).length
    ≤ (o.properties.toList.map fun p => p.supers.length + p.subs.length).sum := by
  cases hp : o.property? r with
  | none => simp [Ontology.supers, Ontology.subs, hp]
  | some p =>
    have hmem : p ∈ o.properties.toList := Array.mem_toList_iff.mpr (Array.mem_of_getElem? hp)
    simp only [Ontology.supers, Ontology.subs, hp, Option.map_some, Option.getD_some]
    exact List.le_sum_of_mem (List.mem_map_of_mem hmem)

theorem charges_decompose_le (o : Ontology) (root x : NodeId) :
    charges (decompose o root x) ≤ 24 := by
  unfold decompose
  split <;> simp [Effect.charge, Conclusion.weight, Conclusion.plain]

theorem length_flatMap_le {α β : Type} {g : α → List β} {b : Nat} (h : ∀ a, (g a).length ≤ b)
    (l : List α) : (l.flatMap g).length ≤ b * l.length := by
  rw [List.length_flatMap, Nat.mul_comm]
  refine (List.sum_le_card_nsmul _ b ?_).trans_eq (by simp)
  intro n hn
  obtain ⟨a, _, rfl⟩ := List.mem_map.mp hn
  exact h a

theorem length_ruleConclusions_le (o : Ontology) (f : Facts) (x : NodeId) (rule : Rule) :
    (ruleConclusions o f x rule).length ≤ rule.size := by
  cases rule with
  | contradiction => simp [ruleConclusions, Rule.size]
  | told supers => simp [ruleConclusions, Rule.size]
  | conjunction partners =>
    simpa [ruleConclusions, Rule.size] using List.length_filter_le _ _
  | propagation existentials =>
    have hone : ∀ y, (propagationOf o y).length ≤ 1 := by
      intro y
      unfold propagationOf
      split <;> simp
    simpa [ruleConclusions, Rule.size] using length_flatMap_le hone existentials
  | disjointness axioms => simp [ruleConclusions, Rule.size]

theorem charges_ruleEffects_le (o : Ontology) (f : Facts) (x : NodeId) (rule : Rule) :
    charges (ruleEffects o f x rule) ≤ 6 * rule.size := by
  have hown : charges ((ruleConclusions o f x rule).map .own)
      ≤ 6 * ((ruleConclusions o f x rule).map Effect.own).length := by
    refine charges_le ?_
    intro e he
    obtain ⟨k, _, rfl⟩ := List.mem_map.mp he
    exact Nat.add_le_add_right k.weight_le 2
  rw [List.length_map] at hown
  have hsize := length_ruleConclusions_le o f x rule
  simp only [ruleEffects, charges_append, charges_cons, charges_nil, Effect.charge]
  omega

theorem charges_compose_le (o : Ontology) (f : Facts) (x : NodeId) :
    charges (compose o f x) ≤ 6 * (o.rules x).size := by
  unfold compose RuleChain.size
  induction (o.rules x).rules with
  | nil => simp
  | cons rule rest ih =>
    have hrule := charges_ruleEffects_le o f x rule
    simp only [List.flatMap_cons, charges_append, List.map_cons, List.foldr_cons]
    omega

theorem length_propagated_le (f : Facts) (r : PropertyId) :
    (f.propagated r).length ≤ f.propagations.length := by
  simpa [Facts.propagated] using List.length_filter_le _ _

theorem length_backwardSources_le (f : Facts) (r : PropertyId) :
    (f.backwardSources r).length ≤ f.backward.length := by
  simpa [Facts.backwardSources] using List.length_filter_le _ _

theorem length_carried_le (hd : f.Distinct e) (r : PropertyId) :
    (carried o f r).length ≤ (pairBound + e) * (o.supers r).length :=
  length_flatMap_le (fun s => (length_propagated_le f s).trans hd.propagations_le) _

theorem length_reachedSources_le (hd : f.Distinct e) (r : PropertyId) :
    (reachedSources o f r).length ≤ (pairBound + e) * (o.subs r).length :=
  length_flatMap_le (fun s => (length_backwardSources_le f s).trans hd.backward_le) _

/-- What goes along links and propagations is within the yield. -/
theorem yield_of_le {m n : Nat} (hm : m ≤ (pairBound + e) * n)
    (hn : n ≤ 1 + (o.properties.toList.map fun p => p.supers.length + p.subs.length).sum) :
    3 * m ≤ o.yield e := by
  have hmul := Nat.mul_le_mul_left (pairBound + e) hn
  unfold Ontology.yield
  omega

end Deduction

namespace Context

open Deduction

variable {o : Ontology} {c : Context} {k : Conclusion} {e : Nat} {order : List PropertyId}

/-- The number of different facts, with the inconsistency of the root among them. -/
def known (c : Context) : Nat := c.facts.count + c.inconsistent.toNat

theorem known_le (c : Context) : c.known ≤ factBound := by
  have hcount := c.facts.count_lt
  have hbool := c.inconsistent.toNat_le
  unfold known
  omega

/-- What comes of a conclusion: one more fact is known, and what follows is within the yield, or
less follows than the conclusion weighs. -/
def Comes (o : Ontology) (e : Nat) (c : Context) (k : Conclusion) (p : Context × List Effect) :
    Prop :=
  p.1.facts.Distinct e ∧
    (p.1.known = c.known + 1 ∧ charges p.2 ≤ 6 * o.yield e ∨
      c.known ≤ p.1.known ∧ charges p.2 < k.weight)

theorem comes_nothing (hd : c.facts.Distinct e) (k : Conclusion) : Comes o e c k (c, []) := by
  refine ⟨hd, Or.inr ⟨Nat.le_refl _, ?_⟩⟩
  cases k <;> simp [Conclusion.weight]

theorem comes_deriveInconsistent (hd : c.facts.Distinct e) (k : Conclusion) :
    Comes o e c k (c.deriveInconsistent k) := by
  unfold deriveInconsistent
  split
  · split
    · obtain ⟨hcount, hd'⟩ := Facts.insertBackward_counts ‹_› hd
      refine ⟨hd', Or.inl ⟨?_, ?_⟩⟩
      · simp only [known, hcount]
        omega
      · simp only [charges_cons, charges_nil, Effect.charge, List.length_singleton,
          Ontology.yield]
        omega
    · exact comes_nothing hd _
  · exact comes_nothing hd _

theorem comes_deriveConsistent (hd : c.facts.Distinct e) (hc : c.inconsistent = false)
    (k : Conclusion) : Comes o e c k (c.deriveConsistent o order k) := by
  cases k with
  | subsumer x origin =>
    simp only [deriveConsistent]
    split
    · obtain ⟨hcount, hd'⟩ := Facts.insertSubsumer_counts ‹_› hd
      refine ⟨hd', Or.inl ⟨by simp only [known, hcount]; omega, ?_⟩⟩
      have hdecompose := charges_decompose_le o c.root x
      have hcompose := charges_compose_le o ‹Facts› x
      have hrules := size_rules_le o x
      unfold Ontology.yield
      cases origin <;> simp only [charges_append, charges_nil] <;> omega
    · exact comes_nothing hd _
  | forwardLink r target =>
    obtain ⟨hcount, hd'⟩ := Facts.insertForward_counts c.facts r target hd
    exact ⟨hd', Or.inr ⟨Nat.add_le_add_right hcount _,
      by simp [deriveConsistent, Conclusion.weight]⟩⟩
  | backwardLink source r =>
    simp only [deriveConsistent]
    split
    · obtain ⟨hcount, hd'⟩ := Facts.insertBackward_counts ‹_› hd
      refine ⟨hd', Or.inl ⟨by simp only [known, hcount]; omega, ?_⟩⟩
      have hcarried := yield_of_le (o := o) (length_carried_le (o := o) hd' r)
        (by have := length_hierarchy_le o r; omega)
      split
      · simp
      · rename_i hne
        have hpos := List.length_pos_iff.mpr hne
        simp only [charges_cons, charges_nil, Effect.charge, List.length_map]
        omega
    · exact comes_nothing hd _
  | propagation r carry =>
    simp only [deriveConsistent]
    split
    · obtain ⟨hcount, hd'⟩ := Facts.insertPropagation_counts ‹_› hd
      refine ⟨hd', Or.inl ⟨by simp only [known, hcount]; omega, ?_⟩⟩
      have hreached := yield_of_le (o := o) (length_reachedSources_le (o := o) hd' r)
        (by have := length_hierarchy_le o r; omega)
      rw [charges_send_one]
      omega
    · exact comes_nothing hd _
  | contradiction =>
    refine ⟨hd, Or.inl ⟨by simp [deriveConsistent, known, hc], ?_⟩⟩
    have hsources := yield_of_le (o := o) (m := (c.facts.sources order).length) (n := 1)
      (by simpa [Facts.length_sources] using hd.backward_le) (by omega)
    simp only [deriveConsistent, charges_cons, Effect.charge, Nat.zero_add]
    rw [charges_send_one]
    omega
  | disjointSubsumer d member =>
    obtain ⟨hcount, hd'⟩ := Facts.insertDisjoint_counts c.facts d member hd
    refine ⟨hd', Or.inr ⟨Nat.add_le_add_right hcount _, ?_⟩⟩
    simp only [deriveConsistent]
    split <;> simp [Effect.charge, Conclusion.weight]

theorem comes_derive (hd : c.facts.Distinct e) (o : Ontology) (k : Conclusion) :
    Comes o e c k (c.derive o order k) := by
  unfold derive
  split
  · exact comes_deriveInconsistent hd k
  · exact comes_deriveConsistent hd (Bool.eq_false_iff.mpr ‹_›) k

end Context

end Subsumption
