import Subsumption.Ontology.Axioms
import Subsumption.Ontology.Hierarchy
import Subsumption.Proofs.ChainContents
import Mathlib.Logic.Relation

/-! The small changes that every edit of an ontology is made of. -/
namespace Subsumption.Ontology

variable (o : Ontology) {n m : NodeId}

/-! ### Looking up after a change -/

@[simp] theorem size_modifyRules (f : RuleChain → RuleChain) :
    (o.modifyRules n f).size = o.size := by
  simp [modifyRules, size]

@[simp] theorem size_modifyNegative (f : UInt32 → UInt32) :
    (o.modifyNegative n f).size = o.size := by
  simp [modifyNegative, size]

theorem node?_modifyRules (f : RuleChain → RuleChain) :
    (o.modifyRules n f).node? m =
      if m = n then (o.node? m).map (fun x => { x with rules := f x.rules }) else o.node? m := by
  simp only [modifyRules, node?, Array.getElem?_modify]
  by_cases h : m = n
  · simp [h]
  · have : n.index ≠ m.index := fun he => h (NodeId.index_inj.mp he.symm)
    simp [h, this]

theorem node?_modifyNegative (f : UInt32 → UInt32) :
    (o.modifyNegative n f).node? m =
      if m = n then (o.node? m).map (fun x => { x with negative := f x.negative })
      else o.node? m := by
  simp only [modifyNegative, node?, Array.getElem?_modify]
  by_cases h : m = n
  · simp [h]
  · have : n.index ≠ m.index := fun he => h (NodeId.index_inj.mp he.symm)
    simp [h, this]

theorem isSome_node? : (o.node? n).isSome = true ↔ n.index < o.size := by
  simp [node?, size]

theorem isSome_expression? : (o.expression? n).isSome = true ↔ n.index < o.size := by
  rw [← isSome_node?, expression?, Option.isSome_map]

@[simp] theorem expression?_modifyRules (f : RuleChain → RuleChain) :
    (o.modifyRules n f).expression? m = o.expression? m := by
  simp only [expression?, node?_modifyRules]
  split <;> simp [Function.comp_def]

@[simp] theorem expression?_modifyNegative (f : UInt32 → UInt32) :
    (o.modifyNegative n f).expression? m = o.expression? m := by
  simp only [expression?, node?_modifyNegative]
  split <;> simp [Function.comp_def]

@[simp] theorem rules_modifyNegative (f : UInt32 → UInt32) :
    (o.modifyNegative n f).rules m = o.rules m := by
  simp only [rules, node?_modifyNegative]
  split <;> simp [Function.comp_def]

theorem rules_modifyRules (f : RuleChain → RuleChain) :
    (o.modifyRules n f).rules m =
      if m = n ∧ n.index < o.size then f (o.rules m) else o.rules m := by
  simp only [rules, node?_modifyRules]
  by_cases h : m = n
  · subst h
    cases hm : o.node? m with
    | none =>
      have : ¬ m.index < o.size := fun hs => by simpa [hm] using o.isSome_node?.mpr hs
      simp [this]
    | some x =>
      have : m.index < o.size := o.isSome_node?.mp (by simp [hm])
      simp [this]
  · simp [h]

@[simp] theorem negative_modifyRules (f : RuleChain → RuleChain) :
    (o.modifyRules n f).negative m = o.negative m := by
  simp only [negative, node?_modifyRules]
  split <;> simp [Function.comp_def]

theorem negative_modifyNegative (f : UInt32 → UInt32) :
    (o.modifyNegative n f).negative m =
      if m = n ∧ n.index < o.size then f (o.negative m) else o.negative m := by
  simp only [negative, node?_modifyNegative]
  by_cases h : m = n
  · subst h
    cases hm : o.node? m with
    | none =>
      have : ¬ m.index < o.size := fun hs => by simpa [hm] using o.isSome_node?.mpr hs
      simp [this]
    | some x =>
      have : m.index < o.size := o.isSome_node?.mp (by simp [hm])
      simp [this]
  · simp [h]

/-! ### Changes -/

/-- The parts of an expression are nodes and properties of the ontology. -/
def HasParts : Expression → Prop
  | .intersection a b => a.index < o.size ∧ b.index < o.size
  | .existential p f => p.index < o.properties.size ∧ f.index < o.size
  | _ => True

/-- What registering and withdrawing comes down to. Both conjuncts of an intersection get and lose
their entries at once. -/
inductive Adjust : Ontology → Ontology → Prop
  | count {o n f} : Adjust o (o.modifyNegative n f)
  | addPartners {o n a b} (h : o.expression? n = some (.intersection a b)) :
    Adjust o ((o.modifyRules a (·.addPartner ⟨b, n⟩)).modifyRules b (·.addPartner ⟨a, n⟩))
  | erasePartners {o n a b} (h : o.expression? n = some (.intersection a b)) :
    Adjust o ((o.modifyRules a (·.erasePartner ⟨b, n⟩)).modifyRules b (·.erasePartner ⟨a, n⟩))
  | addExistential {o n p f} (h : o.expression? n = some (.existential p f)) :
    Adjust o (o.modifyRules f (·.addExistential n))
  | eraseExistential {o n p f} (h : o.expression? n = some (.existential p f)) :
    Adjust o (o.modifyRules f (·.eraseExistential n))

/-- The small changes. -/
inductive Change : Ontology → Ontology → Prop
  | intern {o e} (hp : o.HasParts e) (hn : o.find? e = none) :
    Change o { o with nodes := o.nodes.push (.fresh e) }
  | property {o name} (hn : o.findProperty? name = none) :
    Change o { o with
      properties := o.properties.push
        ⟨name, [.ofIndex o.properties.size], [.ofIndex o.properties.size]⟩ }
  | hierarchy {o sub sup} (hs : sub.index < o.properties.size)
    (ht : sup.index < o.properties.size) :
    Change o (withHierarchy { o with toldProperties := o.toldProperties ++ [(sub, sup)] })
  | addSuper {o sub sup} (h : sup.index < o.size) :
    Change o (o.modifyRules sub (·.addSuper sup))
  | eraseSuper {o sub sup} : Change o (o.modifyRules sub (·.eraseSuper sup))
  | adjust {o o'} (h : Adjust o o') : Change o o'
  | disjointness {o members} :
    Change o { o with disjointness := o.disjointness.push ⟨members⟩ }
  | member {o m d} (h : d.index < o.disjointness.size) :
    Change o (o.modifyRules m (·.addDisjointness d))

/-- Any number of changes. -/
abbrev Changes : Ontology → Ontology → Prop := Relation.ReflTransGen Change

open Relation in
theorem adjusts_register (o : Ontology) (n : NodeId) : ReflTransGen Adjust o (o.register n) := by
  induction hi : n.index using Nat.strongRecOn generalizing o n with
  | _ i ih =>
    subst hi
    rw [register]
    have hcount : ReflTransGen Adjust o (o.modifyNegative n (· + 1)) := .single .count
    split
    · exact hcount
    · split
      · rename_i a b he
        have hpair := hcount.tail (.addPartners he)
        dsimp only
        split <;> split
        · exact (hpair.trans (ih _ ‹_› _ _ rfl)).trans (ih _ ‹_› _ _ rfl)
        · exact hpair.trans (ih _ ‹_› _ _ rfl)
        · exact hpair.trans (ih _ ‹_› _ _ rfl)
        · exact hpair
      · rename_i p f he
        have hentry := hcount.tail (.addExistential he)
        dsimp only
        split
        · exact hentry.trans (ih _ ‹_› _ _ rfl)
        · exact hentry
      · exact hcount

open Relation in
theorem adjusts_withdraw (o : Ontology) (n : NodeId) : ReflTransGen Adjust o (o.withdraw n) := by
  induction hi : n.index using Nat.strongRecOn generalizing o n with
  | _ i ih =>
    subst hi
    rw [withdraw]
    have hcount : ReflTransGen Adjust o (o.modifyNegative n decrement) := .single .count
    split
    · exact hcount
    · split
      · rename_i a b he
        have hpair := hcount.tail (.erasePartners he)
        dsimp only
        split <;> split
        · exact (hpair.trans (ih _ ‹_› _ _ rfl)).trans (ih _ ‹_› _ _ rfl)
        · exact hpair.trans (ih _ ‹_› _ _ rfl)
        · exact hpair.trans (ih _ ‹_› _ _ rfl)
        · exact hpair
      · rename_i p f he
        have hentry := hcount.tail (.eraseExistential he)
        dsimp only
        split
        · exact hentry.trans (ih _ ‹_› _ _ rfl)
        · exact hentry
      · exact hcount

theorem changes_of_adjusts {o o' : Ontology} (h : Relation.ReflTransGen Adjust o o') :
    Changes o o' :=
  Relation.ReflTransGen.mono (fun _ _ h => Change.adjust h) _ _ h

/-- What every adjustment keeps is kept by registering and withdrawing. -/
theorem preserved_adjusts {P : Ontology → Prop} (hs : ∀ o o', Adjust o o' → P o → P o')
    {o o' : Ontology} (h : Relation.ReflTransGen Adjust o o') (ho : P o) : P o' := by
  induction h with
  | refl => exact ho
  | tail _ hc ih => exact hs _ _ hc ih

/-! ### Calls -/

/-- The calls that build and edit an ontology. -/
inductive Call where
  | addClass (name : String)
  | addIntersection (a b : NodeId)
  | addExistential (property : PropertyId) (filler : NodeId)
  | addProperty (name : String)
  | addSubProperty (sub sup : PropertyId)
  | addSubclass (sub sup : NodeId)
  | removeSubclass (sub sup : NodeId)
  | addDisjointness (members : List NodeId)
deriving DecidableEq, Repr

/-- The ontology after a call, whether the call was refused or not. -/
def perform : Call → Ontology
  | .addClass name => (o.addClass name).2
  | .addIntersection a b => (o.addIntersection a b).2
  | .addExistential p f => (o.addExistential p f).2
  | .addProperty name => (o.addProperty name).2
  | .addSubProperty r s => (o.addSubProperty r s).2
  | .addSubclass a b => (o.addSubclass a b).2
  | .removeSubclass a b => (o.removeSubclass a b).2
  | .addDisjointness members => (o.addDisjointness members).2

/-- The ontology that a history of calls leaves, the latest call first. -/
def after : List Call → Ontology
  | [] => empty
  | c :: earlier => (after earlier).perform c

/-! ### What calls do -/

theorem guarded_checkNode {α : Type} (e : Edit α) :
    (o.guarded (o.checkNode n) e).2 = if n.index < o.size then e.2 else o := by
  unfold guarded checkNode
  by_cases h : n.index < o.size <;> simp [h]

theorem guarded_checkProperty {α : Type} {p : PropertyId} (e : Edit α) :
    (o.guarded (o.checkProperty p) e).2 = if p.index < o.properties.size then e.2 else o := by
  unfold guarded checkProperty
  by_cases h : p.index < o.properties.size <;> simp [h]

theorem addSubclass_eq (a b : NodeId) :
    (∃ e, o.addSubclass a b = (.error e, o)) ∨
      ((a.index < o.size ∧ b.index < o.size) ∧
        o.addSubclass a b = (.ok (), (o.modifyRules a (·.addSuper b)).register a)) := by
  unfold addSubclass guarded checkNode
  by_cases ha : a.index < o.size
  · by_cases hb : b.index < o.size
    · exact Or.inr ⟨⟨ha, hb⟩, by simp [ha, hb]⟩
    · exact Or.inl ⟨_, by simp [ha, hb]; rfl⟩
  · exact Or.inl ⟨_, by simp [ha]; rfl⟩

theorem removeSubclass_eq (a b : NodeId) :
    (∃ e, o.removeSubclass a b = (.error e, o)) ∨
      ((a.index < o.size ∧ b.index < o.size) ∧ o.removeSubclass a b =
        if b ∈ (o.rules a).supers then (.ok (), (o.modifyRules a (·.eraseSuper b)).withdraw a)
        else (.error (.noSuchAxiom a b), o.modifyRules a (·.eraseSuper b))) := by
  unfold removeSubclass guarded checkNode
  by_cases ha : a.index < o.size
  · by_cases hb : b.index < o.size
    · refine Or.inr ⟨⟨ha, hb⟩, ?_⟩
      simp only [ha, hb, if_true]
      by_cases hs : b ∈ (o.rules a).supers
      · rw [if_pos ((RuleChain.hasSuper_iff _ _).mpr hs), if_pos hs]
      · rw [if_neg fun h => hs ((RuleChain.hasSuper_iff _ _).mp h), if_neg hs]
    · exact Or.inl ⟨_, by simp [ha, hb]; rfl⟩
  · exact Or.inl ⟨_, by simp [ha]; rfl⟩

theorem addSubProperty_eq (p q : PropertyId) :
    (∃ e, o.addSubProperty p q = (.error e, o)) ∨
      (p.index < o.properties.size ∧ q.index < o.properties.size ∧ o.addSubProperty p q =
        (.ok (), withHierarchy { o with toldProperties := o.toldProperties ++ [(p, q)] })) := by
  unfold addSubProperty guarded checkProperty
  by_cases hp : p.index < o.properties.size
  · by_cases hq : q.index < o.properties.size
    · exact Or.inr ⟨hp, hq, by simp [hp, hq]⟩
    · exact Or.inl ⟨_, by simp [hp, hq]; rfl⟩
  · exact Or.inl ⟨_, by simp [hp]; rfl⟩

theorem checkNodes_ok {members : List NodeId} (h : o.checkNodes members = .ok ()) :
    ∀ m ∈ members, m.index < o.size := by
  induction members with
  | nil => simp
  | cons a rest ih =>
    simp only [checkNodes, checkNode] at h
    by_cases ha : a.index < o.size
    · simp only [ha, if_true] at h
      exact List.forall_mem_cons.mpr ⟨ha, ih h⟩
    · simp [ha] at h

/-- The ontology after the members of an axiom have been told of it. -/
def attachMembers (d : DisjointnessId) (members : List NodeId) : Ontology :=
  members.foldl (fun o m => o.modifyRules m (·.addDisjointness d)) o

theorem addDisjointness_eq (members : List NodeId) :
    (∃ e, o.addDisjointness members = (.error e, o)) ∨
      ((∀ m ∈ members, m.index < o.size) ∧ o.addDisjointness members =
        (.ok (.ofIndex o.disjointness.size),
          attachMembers { o with disjointness := o.disjointness.push ⟨members⟩ }
            (.ofIndex o.disjointness.size) members)) := by
  unfold addDisjointness guarded
  by_cases hl : members.length < 2
  · exact Or.inl ⟨_, by simp [hl]; rfl⟩
  · cases hc : o.checkNodes members with
    | ok u =>
      refine Or.inr ⟨o.checkNodes_ok hc, ?_⟩
      simp [hl, attachMembers]
    | error e => exact Or.inl ⟨e, by simp [hl]⟩

/-- The calls that tell no axiom and remove none. -/
def Call.interns : Call → Bool
  | .addClass _ | .addIntersection _ _ | .addExistential _ _ | .addProperty _ => true
  | _ => false

/-- They add at most one node or one property. -/
theorem perform_interns {c : Call} (hc : c.interns = true) :
    o.perform c = o ∨ (∃ e, o.HasParts e ∧ o.perform c = (o.intern e).2) ∨
      ∃ name, o.findProperty? name = none ∧ o.perform c = { o with
        properties := o.properties.push
          ⟨name, [.ofIndex o.properties.size], [.ofIndex o.properties.size]⟩ } := by
  cases c with
  | addClass name => exact Or.inr (Or.inl ⟨.named name, trivial, rfl⟩)
  | addIntersection a b =>
    simp only [perform, addIntersection, guarded_checkNode]
    split
    · split
      · refine Or.inr (Or.inl ⟨_, ?_, rfl⟩)
        unfold Expression.meet
        split
        · exact ⟨‹_›, ‹_›⟩
        · exact ⟨‹_›, ‹_›⟩
      · exact Or.inl rfl
    · exact Or.inl rfl
  | addExistential p f =>
    simp only [perform, addExistential, guarded_checkNode, guarded_checkProperty]
    split
    · split
      · exact Or.inr (Or.inl ⟨.existential p f, ⟨‹_›, ‹_›⟩, rfl⟩)
      · exact Or.inl rfl
    · exact Or.inl rfl
  | addProperty name =>
    simp only [perform, addProperty]
    split
    · exact Or.inl rfl
    · exact Or.inr (Or.inr ⟨name, ‹_›, rfl⟩)
  | addSubProperty | addSubclass | removeSubclass | addDisjointness => cases hc

/-! ### Calls as changes -/

theorem changes_intern {e : Expression} (hp : o.HasParts e) : Changes o (o.intern e).2 := by
  unfold intern
  split
  · exact .refl
  · exact .single (.intern hp ‹_›)

theorem changes_members {members : List NodeId} {d : DisjointnessId}
    (h : d.index < o.disjointness.size) : Changes o (o.attachMembers d members) := by
  induction members generalizing o with
  | nil => exact .refl
  | cons m rest ih => exact (Relation.ReflTransGen.single (.member h)).trans (ih _ h)

/-- Every call comes down to small changes. -/
theorem changes_perform (c : Call) : Changes o (o.perform c) := by
  have hinterns := o.perform_interns (c := c)
  cases c with
  | addClass | addIntersection | addExistential | addProperty =>
    rcases hinterns rfl with he | ⟨e, hp, he⟩ | ⟨name, hn, he⟩
    · rw [he]
    · rw [he]
      exact o.changes_intern hp
    · rw [he]
      exact .single (.property hn)
  | addSubProperty r s =>
    rcases o.addSubProperty_eq r s with ⟨e, he⟩ | ⟨hr, hs, he⟩
    · rw [perform, he]
    · rw [perform, he]
      exact .single (.hierarchy hr hs)
  | addSubclass a b =>
    rcases o.addSubclass_eq a b with ⟨e, he⟩ | ⟨hab, he⟩
    · rw [perform, he]
    · rw [perform, he]
      exact (Relation.ReflTransGen.single (.addSuper hab.2)).trans
        (changes_of_adjusts (adjusts_register _ _))
  | removeSubclass a b =>
    rcases o.removeSubclass_eq a b with ⟨e, he⟩ | ⟨_, he⟩
    · rw [perform, he]
    · rw [perform, he]
      split
      · exact (Relation.ReflTransGen.single .eraseSuper).trans
          (changes_of_adjusts (adjusts_withdraw _ _))
      · exact .single .eraseSuper
  | addDisjointness members =>
    rcases o.addDisjointness_eq members with ⟨e, he⟩ | ⟨_, he⟩
    · rw [perform, he]
    · have hpush : Changes o { o with disjointness := o.disjointness.push ⟨members⟩ } :=
        .single .disjointness
      rw [perform, he]
      apply hpush.trans
      apply changes_members
      have hmod := Nat.mod_le o.disjointness.size UInt32.size
      simp only [DisjointnessId.index, DisjointnessId.ofIndex, UInt32.toNat_ofNat',
        Array.size_push]
      omega

theorem preserved_changes {P : Ontology → Prop} (hs : ∀ o o', Change o o' → P o → P o')
    {o o' : Ontology} (h : Changes o o') (ho : P o) : P o' := by
  induction h with
  | refl => exact ho
  | tail _ hc ih => exact hs _ _ hc ih

/-- What holds of the empty ontology and is kept by every change holds after every history. -/
theorem after_induction {P : Ontology → Prop} (h₀ : P empty)
    (hs : ∀ o o', Change o o' → P o → P o') (calls : List Call) : P (after calls) := by
  induction calls with
  | nil => exact h₀
  | cons c earlier ih => exact preserved_changes hs (changes_perform _ c) ih

end Subsumption.Ontology
