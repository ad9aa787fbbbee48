import Mathlib.Data.List.Pairwise
import Mathlib.Data.Set.Insert
import Subsumption.Proofs.LiveAxioms

/-! What class expressions mean, and what it is for an interpretation to satisfy the axioms in
force. -/
namespace Subsumption.Ontology

universe u

/-- A set for every class name and a relation for every property. -/
structure Interpretation (D : Type u) where
  classes : String → Set D
  relations : PropertyId → D → D → Prop

variable {D : Type u} {o : Ontology} {I : Interpretation D} {n a b f : NodeId} {r s : PropertyId}
  {calls : List Call}

/-- The instances of a node; a number that is no node has none. As when an expression is shown, only
parts with smaller numbers are looked at. -/
def extension (o : Ontology) (I : Interpretation D) (n : NodeId) : Set D :=
  match o.expression? n with
  | none => ∅
  | some (.named name) => I.classes name
  | some .top => Set.univ
  | some .bottom => ∅
  | some (.intersection a b) =>
    (if _h : a.index < n.index then o.extension I a else ∅) ∩
      (if _h : b.index < n.index then o.extension I b else ∅)
  | some (.existential r f) =>
    {x | ∃ y, I.relations r x y ∧ y ∈ if _h : f.index < n.index then o.extension I f else ∅}
termination_by n.index

theorem extension_named {name : String} (h : o.expression? n = some (.named name)) :
    o.extension I n = I.classes name := by
  rw [extension, h]

theorem extension_top (h : o.expression? n = some .top) : o.extension I n = Set.univ := by
  rw [extension, h]

theorem extension_bottom (h : o.expression? n = some .bottom) : o.extension I n = ∅ := by
  rw [extension, h]

theorem extension_intersection (hi : o.Interned)
    (h : o.expression? n = some (.intersection a b)) :
    o.extension I n = o.extension I a ∩ o.extension I b := by
  obtain ⟨ha, hb⟩ := hi.conjuncts n a b h
  rw [extension, h]
  simp only [ha, hb, dite_true]

theorem mem_extension_existential (hi : o.Interned)
    (h : o.expression? n = some (.existential r f)) {x : D} :
    x ∈ o.extension I n ↔ ∃ y, I.relations r x y ∧ y ∈ o.extension I f := by
  have hf := (hi.filler n r f h).2
  rw [extension, h]
  simp only [hf, dite_true]
  rfl

/-- The interpretation makes the axioms that the calls leave in force true. Members are disjoint by
position, so that one listed twice is empty. -/
structure Satisfies (calls : List Call) (I : Interpretation D) : Prop where
  subclasses : ∀ a b, (a, b) ∈ liveSubclasses calls →
    (after calls).extension I a ⊆ (after calls).extension I b
  subproperties : ∀ r s, (r, s) ∈ liveSubproperties calls →
    ∀ x y, I.relations r x y → I.relations s x y
  disjointness : ∀ members ∈ liveDisjointness calls,
    members.Pairwise fun a b => (after calls).extension I a ∩ (after calls).extension I b = ∅

/-- The interpretation makes the told axioms true that are about inclusion, whatever is to be
disjoint. -/
structure SatisfiesTold (calls : List Call) (I : Interpretation D) : Prop where
  subclasses : ∀ a b, (a, b) ∈ liveSubclasses calls →
    (after calls).extension I a ⊆ (after calls).extension I b
  subproperties : ∀ r s, (r, s) ∈ liveSubproperties calls →
    ∀ x y, I.relations r x y → I.relations s x y

/-- Every instance of `n` is one of `x`, whatever the classes and properties are. -/
def Entails (calls : List Call) (n x : NodeId) : Prop :=
  ∀ (D : Type) (I : Interpretation D), Satisfies calls I →
    (after calls).extension I n ⊆ (after calls).extension I x

/-- The same in all interpretations of the inclusions alone. -/
def EntailsTold (calls : List Call) (n x : NodeId) : Prop :=
  ∀ (D : Type) (I : Interpretation D), SatisfiesTold calls I →
    (after calls).extension I n ⊆ (after calls).extension I x

/-- No interpretation gives `n` an instance. -/
def Unsatisfiable (calls : List Call) (n : NodeId) : Prop :=
  ∀ (D : Type) (I : Interpretation D), Satisfies calls I → (after calls).extension I n = ∅

/-! ### Consequences of satisfaction -/

theorem Satisfies.supers (hI : Satisfies calls I) (hs : s ∈ (after calls).supers r) {x y : D}
    (h : I.relations r x y) : I.relations s x y := by
  have hreach := (((closed_after calls).supers r s).mp hs).2
  clear hs
  induction hreach with
  | refl => exact h
  | tail _ hstep ih =>
    exact hI.subproperties _ _ (((keeping_after calls).properties _).mp hstep) x y ih

theorem Satisfies.members (hI : Satisfies calls I) {i : Nat} {d : Disjointness}
    (hd : (after calls).disjointness[i]? = some d) :
    d.members.Pairwise fun a b =>
      (after calls).extension I a ∩ (after calls).extension I b = ∅ :=
  hI.disjointness _ (mem_disjointness.mpr ⟨i, hd⟩)

theorem Satisfies.of_ne (hI : Satisfies calls I) {i : Nat} {d : Disjointness}
    (hd : (after calls).disjointness[i]? = some d) (ha : a ∈ d.members) (hb : b ∈ d.members)
    (hne : a ≠ b) : (after calls).extension I a ∩ (after calls).extension I b = ∅ := by
  have : Std.Symm fun a b => (after calls).extension I a ∩ (after calls).extension I b = ∅ :=
    ⟨fun x y h => by rw [Set.inter_comm]; exact h⟩
  exact (hI.members hd).forall ha hb hne

/-- A member listed twice is disjoint from itself. -/
theorem Satisfies.of_twice (hI : Satisfies calls I) {i : Nat} {d : Disjointness}
    (hd : (after calls).disjointness[i]? = some d) (ha : d.isSelfDisjoint a = true) :
    (after calls).extension I a = ∅ := by
  have hcount : 2 ≤ d.members.count a := by
    simpa [Disjointness.isSelfDisjoint, Nat.succ_le_iff] using ha
  have hpair := (hI.members hd).sublist (List.replicate_sublist_iff.mpr hcount)
  have hself : (after calls).extension I a ∩ (after calls).extension I a = ∅ := by
    simpa [List.replicate] using hpair
  rwa [Set.inter_self] at hself

end Subsumption.Ontology
