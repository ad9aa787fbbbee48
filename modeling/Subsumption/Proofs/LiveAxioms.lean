import Subsumption.Proofs.PropertyClosure
import Subsumption.Proofs.WellFormed

/-! The axioms that a history of calls leaves in force, and where the ontology keeps them. -/
namespace Subsumption.Ontology

variable {o o' : Ontology} {n x s : NodeId} {d : DisjointnessId} {calls : List Call}

/-! ### Histories -/

/-- The told subclass axioms that have not been removed, one entry for each registration. -/
def liveSubclasses : List Call → List (NodeId × NodeId)
  | [] => []
  | .addSubclass a b :: earlier =>
    match ((after earlier).addSubclass a b).1 with
    | .ok _ => (a, b) :: liveSubclasses earlier
    | .error _ => liveSubclasses earlier
  | .removeSubclass a b :: earlier =>
    match ((after earlier).removeSubclass a b).1 with
    | .ok _ => (liveSubclasses earlier).erase (a, b)
    | .error _ => liveSubclasses earlier
  | _ :: earlier => liveSubclasses earlier

/-- The told sub-property axioms, which are never removed. -/
def liveSubproperties : List Call → List (PropertyId × PropertyId)
  | [] => []
  | .addSubProperty p q :: earlier =>
    match ((after earlier).addSubProperty p q).1 with
    | .ok _ => (p, q) :: liveSubproperties earlier
    | .error _ => liveSubproperties earlier
  | _ :: earlier => liveSubproperties earlier

/-- The member lists of the disjointness axioms, which are never removed either. -/
def liveDisjointness : List Call → List (List NodeId)
  | [] => []
  | .addDisjointness members :: earlier =>
    match ((after earlier).addDisjointness members).1 with
    | .ok _ => members :: liveDisjointness earlier
    | .error _ => liveDisjointness earlier
  | _ :: earlier => liveDisjointness earlier

/-! ### What adjusting leaves alone -/

/-- Registering and withdrawing change counts, conjunction rules and propagation rules only. -/
structure Adjusted (o o' : Ontology) : Prop where
  expression? : ∀ n, o'.expression? n = o.expression? n
  size : o'.size = o.size
  properties : o'.properties = o.properties
  toldProperties : o'.toldProperties = o.toldProperties
  disjointness : o'.disjointness = o.disjointness
  rule : ∀ n k, k ≠ .conjunction → k ≠ .propagation → (o'.rules n).rule k = (o.rules n).rule k

theorem adjusted_adjust (ho : o.Attached) (h : Adjust o o') : Adjusted o o' := by
  cases h with
  | count => exact ⟨by simp, by simp, rfl, rfl, rfl, by simp⟩
  | addPartners =>
    refine ⟨by simp, by simp, rfl, rfl, rfl, ?_⟩
    intro n k hk _
    rw [rule_modifyRules_of_ne (RuleChain.edits_addPartner _)
      (proper_modifyRules (RuleChain.edits_addPartner _) ho.proper) hk,
      rule_modifyRules_of_ne (RuleChain.edits_addPartner _) ho.proper hk]
  | erasePartners =>
    refine ⟨by simp, by simp, rfl, rfl, rfl, ?_⟩
    intro n k hk _
    rw [rule_modifyRules_of_ne (RuleChain.edits_erasePartner _)
      (proper_modifyRules (RuleChain.edits_erasePartner _) ho.proper) hk,
      rule_modifyRules_of_ne (RuleChain.edits_erasePartner _) ho.proper hk]
  | addExistential =>
    refine ⟨by simp, by simp, rfl, rfl, rfl, ?_⟩
    intro n k _ hk
    rw [rule_modifyRules_of_ne (RuleChain.edits_addExistential _) ho.proper hk]
  | eraseExistential =>
    refine ⟨by simp, by simp, rfl, rfl, rfl, ?_⟩
    intro n k _ hk
    rw [rule_modifyRules_of_ne (RuleChain.edits_eraseExistential _) ho.proper hk]

theorem adjusted_adjusts (hi : o.Interned) (ho : o.Attached)
    (h : Relation.ReflTransGen Adjust o o') : Adjusted o o' ∧ o'.Interned ∧ o'.Attached :=
  preserved_adjusts (P := fun o' => Adjusted o o' ∧ o'.Interned ∧ o'.Attached)
    (fun u v hs ⟨ha, hi, ho⟩ => by
      have hv := adjusted_adjust ho hs
      refine ⟨⟨fun n => (hv.expression? n).trans (ha.expression? n), hv.size.trans ha.size,
        hv.properties.trans ha.properties, hv.toldProperties.trans ha.toldProperties,
        hv.disjointness.trans ha.disjointness,
        fun n k h₁ h₂ => (hv.rule n k h₁ h₂).trans (ha.rule n k h₁ h₂)⟩,
        interned_change (.adjust hs) hi, attached_change hi (.adjust hs) ho⟩)
    h ⟨⟨fun _ => rfl, rfl, rfl, rfl, rfl, fun _ _ _ _ => rfl⟩, hi, ho⟩

theorem Adjusted.supers (h : Adjusted o o') : (o'.rules n).supers = (o.rules n).supers := by
  rw [RuleChain.supers, h.rule n .told (by decide) (by decide), ← RuleChain.supers]

theorem adjusted_register (hi : o.Interned) (ho : o.Attached) : Adjusted o (o.register n) :=
  (adjusted_adjusts hi ho (adjusts_register o n)).1

theorem adjusted_withdraw (hi : o.Interned) (ho : o.Attached) : Adjusted o (o.withdraw n) :=
  (adjusted_adjusts hi ho (adjusts_withdraw o n)).1

/-! ### Members of an axiom -/

/-- Telling members of an axiom changes their disjointness rules only. -/
structure TellsMembers (o o' : Ontology) (d : DisjointnessId) (members : List NodeId) : Prop where
  expression? : ∀ n, o'.expression? n = o.expression? n
  negative : ∀ n, o'.negative n = o.negative n
  toldProperties : o'.toldProperties = o.toldProperties
  disjointness : o'.disjointness = o.disjointness
  rule : ∀ n k, k ≠ .disjointness → (o'.rules n).rule k = (o.rules n).rule k
  axioms : ∀ n d', d' ∈ (o'.rules n).axioms ↔
    d' ∈ (o.rules n).axioms ∨ (d' = d ∧ n ∈ members ∧ n.index < o.size)

theorem TellsMembers.supers {members : List NodeId} (h : TellsMembers o o' d members) :
    (o'.rules n).supers = (o.rules n).supers := by
  rw [RuleChain.supers, h.rule n .told (by decide), ← RuleChain.supers]

theorem tellsMembers (ho : ∀ n, (o.rules n).Proper) (members : List NodeId) :
    TellsMembers o (o.attachMembers d members) d members := by
  induction members generalizing o with
  | nil =>
    exact ⟨fun _ => rfl, fun _ => rfl, rfl, rfl, fun _ _ _ => rfl, by simp [attachMembers]⟩
  | cons m rest ih =>
    have h := ih (proper_modifyRules (m := m) (RuleChain.edits_addDisjointness d) ho)
    refine ⟨fun n => (h.expression? n).trans (by simp), fun n => (h.negative n).trans (by simp),
      h.toldProperties, h.disjointness, ?_, ?_⟩
    · intro n k hk
      exact (h.rule n k hk).trans (rule_modifyRules_of_ne (RuleChain.edits_addDisjointness d) ho hk)
    · intro n d'
      refine (h.axioms n d').trans ?_
      rw [mem_axioms_addDisjointness ho, size_modifyRules, List.mem_cons]
      constructor
      · rintro ((h | ⟨rfl, hn, rfl⟩) | ⟨rfl, hm, hn⟩)
        · exact Or.inl h
        · exact Or.inr ⟨rfl, Or.inl rfl, hn⟩
        · exact Or.inr ⟨rfl, Or.inr hm, hn⟩
      · rintro (h | ⟨rfl, rfl | hm, hn⟩)
        · exact Or.inl (Or.inl h)
        · exact Or.inl (Or.inr ⟨rfl, hn, rfl⟩)
        · exact Or.inr ⟨rfl, hm, hn⟩

/-- The same after the axiom has been put into the table. -/
theorem tellsMembers_push (ho : o.Attached) (members : List NodeId) :
    TellsMembers { o with disjointness := o.disjointness.push ⟨members⟩ }
      (attachMembers { o with disjointness := o.disjointness.push ⟨members⟩ } d members) d
      members :=
  tellsMembers (o := { o with disjointness := o.disjointness.push ⟨members⟩ }) ho.proper members

/-! ### Where the axioms are kept -/

/-- The same axioms are kept in both ontologies. -/
structure SameAxioms (o o' : Ontology) : Prop where
  rules : ∀ n, o'.rules n = o.rules n
  toldProperties : o'.toldProperties = o.toldProperties
  disjointness : o'.disjointness = o.disjointness

theorem sameAxioms_intern (e : Expression) : SameAxioms o (o.intern e).2 := by
  unfold intern
  split
  · exact ⟨fun _ => rfl, rfl, rfl⟩
  · exact ⟨fun _ => rules_push e, rfl, rfl⟩

theorem sameAxioms_perform (o : Ontology) {c : Call} (hc : c.interns = true) :
    SameAxioms o (o.perform c) := by
  rcases perform_interns o hc with h | ⟨e, _, h⟩ | ⟨name, _, h⟩
  · rw [h]
    exact ⟨fun _ => rfl, rfl, rfl⟩
  · rw [h]
    exact sameAxioms_intern e
  · rw [h]
    exact ⟨fun _ => rfl, rfl, rfl⟩

theorem adjusted_addSuper (hi : o.Interned) (ho : o.Attached) {a b : NodeId}
    (hb : b.index < o.size) : Adjusted (o.modifyRules a (·.addSuper b))
      ((o.modifyRules a (·.addSuper b)).register a) := by
  have hc : Change o (o.modifyRules a (·.addSuper b)) := .addSuper hb
  exact adjusted_register (interned_change hc hi) (attached_change hi hc ho)

theorem adjusted_eraseSuper (hi : o.Interned) (ho : o.Attached) {a b : NodeId} :
    Adjusted (o.modifyRules a (·.eraseSuper b))
      ((o.modifyRules a (·.eraseSuper b)).withdraw a) := by
  have hc : Change o (o.modifyRules a (·.eraseSuper b)) := .eraseSuper
  exact adjusted_withdraw (interned_change hc hi) (attached_change hi hc ho)

theorem supers_registered (hi : o.Interned) (ho : o.Attached) {a b : NodeId}
    (hab : a.index < o.size ∧ b.index < o.size) :
    (((o.modifyRules a (·.addSuper b)).register a).rules x).supers =
      if x = a then (o.rules x).supers ++ [b] else (o.rules x).supers := by
  rw [(adjusted_addSuper hi ho hab.2).supers, supers_addSuper ho.proper]
  simp [hab.1]

theorem supers_withdrawn (hi : o.Interned) (ho : o.Attached) {a b : NodeId}
    (hab : a.index < o.size ∧ b.index < o.size) :
    (((o.modifyRules a (·.eraseSuper b)).withdraw a).rules x).supers =
      if x = a then (o.rules x).supers.erase b else (o.rules x).supers := by
  rw [(adjusted_eraseSuper hi ho).supers, supers_eraseSuper ho.proper]
  simp [hab.1]

/-- The ontology keeps the axioms that the calls leave in force: told superclasses in the chains,
and disjointness axioms in a table whose positions the chains of the members list. -/
structure Keeping (calls : List Call) (o : Ontology) : Prop where
  supers : ∀ x s, (o.rules x).supers.count s = (liveSubclasses calls).count (x, s)
  properties : ∀ x, x ∈ o.toldProperties ↔ x ∈ liveSubproperties calls
  disjointness : o.disjointness.toList.map (·.members) = (liveDisjointness calls).reverse
  axioms : o.disjointness.size ≤ UInt32.size → ∀ x d,
    d ∈ (o.rules x).axioms ↔ ∃ a, o.disjointness? d = some a ∧ x ∈ a.members

theorem Keeping.of_same (h : Keeping calls o) (hs : SameAxioms o o') : Keeping calls o' := by
  refine ⟨?_, ?_, ?_, ?_⟩
  · intro x s
    rw [hs.rules]
    exact h.supers x s
  · intro x
    rw [hs.toldProperties]
    exact h.properties x
  · rw [hs.disjointness]
    exact h.disjointness
  · intro hb x d
    rw [hs.disjointness] at hb
    rw [hs.rules, disjointness?, hs.disjointness]
    exact h.axioms hb x d

/-- Whether an axiom `a ⊑ b` was told or removed shows in the superclasses only. -/
theorem Keeping.of_told {later : List Call} (h : Keeping calls o)
    (hs : ∀ x s, (o'.rules x).supers.count s = (liveSubclasses later).count (x, s))
    (hk : ∀ x, (o'.rules x).rule .disjointness = (o.rules x).rule .disjointness)
    (hp : o'.toldProperties = o.toldProperties) (hd : o'.disjointness = o.disjointness)
    (hp' : liveSubproperties later = liveSubproperties calls)
    (hd' : liveDisjointness later = liveDisjointness calls) : Keeping later o' := by
  refine ⟨hs, ?_, ?_, ?_⟩
  · intro x
    rw [hp, hp']
    exact h.properties x
  · rw [hd, hd']
    exact h.disjointness
  · intro hb x d
    rw [hd] at hb
    rw [RuleChain.axioms, hk, disjointness?, hd]
    exact h.axioms hb x d

theorem keeping_addSubclass (hi : o.Interned) (ho : o.Attached) (ha : after calls = o)
    (h : Keeping calls o) (a b : NodeId) :
    Keeping (.addSubclass a b :: calls) (o.perform (.addSubclass a b)) := by
  rcases addSubclass_eq o a b with ⟨e, he⟩ | ⟨hab, he⟩
  · rw [perform, he]
    exact h.of_told (by simpa [liveSubclasses, ha, he] using h.supers) (fun _ => rfl)
      rfl rfl rfl rfl
  · have hkeep := adjusted_addSuper (a := a) hi ho hab.2
    have hlive : liveSubclasses (.addSubclass a b :: calls) = (a, b) :: liveSubclasses calls := by
      simp [liveSubclasses, ha, he]
    rw [perform, he]
    refine h.of_told ?_ ?_ hkeep.toldProperties hkeep.disjointness rfl rfl
    · intro x s
      rw [supers_registered hi ho hab, hlive, List.count_cons, ← h.supers]
      by_cases hx : x = a
      · subst hx
        simp [List.count_cons, List.count_nil, Prod.ext_iff]
      · simp [hx, Ne.symm hx]
    · intro x
      rw [hkeep.rule x _ (by decide) (by decide)]
      exact rule_modifyRules_of_ne (RuleChain.edits_addSuper b) ho.proper (by decide)

theorem keeping_removeSubclass (hi : o.Interned) (ho : o.Attached) (ha : after calls = o)
    (h : Keeping calls o) (a b : NodeId) :
    Keeping (.removeSubclass a b :: calls) (o.perform (.removeSubclass a b)) := by
  rcases removeSubclass_eq o a b with ⟨e, he⟩ | ⟨hab, he⟩
  · rw [perform, he]
    exact h.of_told (by simpa [liveSubclasses, ha, he] using h.supers) (fun _ => rfl)
      rfl rfl rfl rfl
  · have hrule : ∀ x, ((o.modifyRules a (·.eraseSuper b)).rules x).rule .disjointness =
        (o.rules x).rule .disjointness := by
      intro x
      exact rule_modifyRules_of_ne (RuleChain.edits_eraseSuper b) ho.proper (by decide)
    by_cases hs : b ∈ (o.rules a).supers
    · have hkeep := adjusted_eraseSuper (a := a) (b := b) hi ho
      rw [if_pos hs] at he
      have hlive : liveSubclasses (.removeSubclass a b :: calls) =
          (liveSubclasses calls).erase (a, b) := by
        simp [liveSubclasses, ha, he]
      rw [perform, he]
      refine h.of_told ?_ ?_ hkeep.toldProperties hkeep.disjointness rfl rfl
      · intro x s
        rw [supers_withdrawn hi ho hab, hlive, List.count_erase, ← h.supers]
        by_cases hx : x = a
        · subst hx
          simp [List.count_erase, Prod.ext_iff]
        · simp [hx, Ne.symm hx]
      · intro x
        rw [hkeep.rule x _ (by decide) (by decide)]
        exact hrule x
    · rw [if_neg hs] at he
      have hlive : liveSubclasses (.removeSubclass a b :: calls) = liveSubclasses calls := by
        simp [liveSubclasses, ha, he]
      rw [perform, he]
      refine h.of_told ?_ hrule rfl rfl rfl rfl
      intro x s
      rw [supers_eraseSuper ho.proper, hlive, ← h.supers]
      split
      · rename_i hx
        rw [List.erase_of_not_mem (hx.1 ▸ hs)]
      · rfl

theorem keeping_addSubProperty (ha : after calls = o) (h : Keeping calls o) (p q : PropertyId) :
    Keeping (.addSubProperty p q :: calls) (o.perform (.addSubProperty p q)) := by
  rcases addSubProperty_eq o p q with ⟨e, he⟩ | ⟨_, _, he⟩
  · refine ⟨?_, ?_, ?_, ?_⟩ <;> simp only [perform, he, liveSubproperties, ha]
    exacts [h.supers, h.properties, h.disjointness, h.axioms]
  · have hlive : liveSubproperties (.addSubProperty p q :: calls) =
        (p, q) :: liveSubproperties calls := by
      simp [liveSubproperties, ha, he]
    rw [perform, he]
    refine ⟨h.supers, ?_, h.disjointness, h.axioms⟩
    intro x
    rw [hlive, List.mem_cons, ← h.properties]
    simp [withHierarchy, or_comm]

/-- The entries made for a new axiom are those of its members. -/
theorem mem_axioms_attached (ho : o.Attached) {members : List NodeId}
    (hm : ∀ m ∈ members, m.index < o.size) (hb : o.disjointness.size < UInt32.size)
    (h : ∀ x d, d ∈ (o.rules x).axioms ↔ ∃ a, o.disjointness? d = some a ∧ x ∈ a.members) :
    d ∈ ((attachMembers { o with disjointness := o.disjointness.push ⟨members⟩ }
        (.ofIndex o.disjointness.size) members).rules x).axioms ↔
      ∃ a, (o.disjointness.push ⟨members⟩)[d.index]? = some a ∧ x ∈ a.members := by
  have hold : d ∈ (rules { o with disjointness := o.disjointness.push ⟨members⟩ } x).axioms ↔
      ∃ a, o.disjointness[d.index]? = some a ∧ x ∈ a.members := h x d
  rw [(tellsMembers_push ho members).axioms, hold, Array.getElem?_push]
  have hnew : d = .ofIndex o.disjointness.size ↔ d.index = o.disjointness.size := by
    constructor
    · rintro rfl
      exact DisjointnessId.index_ofIndex hb
    · intro hd
      rw [← hd, DisjointnessId.ofIndex_index]
  rw [hnew]
  by_cases hd : d.index = o.disjointness.size
  · have hnone : o.disjointness[d.index]? = none := by simp [hd]
    rw [hnone]
    simp only [hd, if_true, Option.some.injEq]
    constructor
    · rintro (⟨a, ha, _⟩ | ⟨_, hx, _⟩)
      · cases ha
      · exact ⟨_, rfl, hx⟩
    · rintro ⟨a, rfl, hx⟩
      exact Or.inr ⟨trivial, hx, hm x hx⟩
  · simp [hd]

theorem keeping_addDisjointness (ho : o.Attached) (ha : after calls = o) (h : Keeping calls o)
    (members : List NodeId) :
    Keeping (.addDisjointness members :: calls) (o.perform (.addDisjointness members)) := by
  rcases addDisjointness_eq o members with ⟨e, he⟩ | ⟨hm, he⟩
  · refine ⟨?_, ?_, ?_, ?_⟩ <;> simp only [perform, he, liveDisjointness, ha]
    exacts [h.supers, h.properties, h.disjointness, h.axioms]
  · have hlive : liveDisjointness (.addDisjointness members :: calls) =
        members :: liveDisjointness calls := by
      simp [liveDisjointness, ha, he]
    have ht := tellsMembers_push (d := .ofIndex o.disjointness.size) ho members
    rw [perform, he]
    refine ⟨?_, ?_, ?_, ?_⟩
    · intro x s
      rw [ht.supers]
      exact h.supers x s
    · intro x
      rw [ht.toldProperties]
      exact h.properties x
    · rw [ht.disjointness, hlive]
      simp [h.disjointness]
    · intro hb x d
      rw [ht.disjointness, Array.size_push] at hb
      rw [disjointness?, ht.disjointness]
      exact mem_axioms_attached ho hm (by omega) (h.axioms (by omega))

theorem keeping_empty : Keeping [] empty := by
  refine ⟨?_, ?_, rfl, ?_⟩
  · intro x s
    rw [rules_empty]
    split <;> rfl
  · intro x
    simp [empty, liveSubproperties]
  · intro _ x d
    rw [rules_empty]
    have : (empty.disjointness? d) = none := by simp [disjointness?, empty]
    split <;> simp [this, RuleChain.axioms, RuleChain.rule, RuleChain.find?, RuleChain.empty,
      Rule.kind, Rule.empty, Rule.axioms]

theorem keeping_after (calls : List Call) : Keeping calls (after calls) := by
  induction calls with
  | nil => exact keeping_empty
  | cons c earlier ih =>
    have hi := interned_after earlier
    have ho := attached_after earlier
    have hsame := sameAxioms_perform (after earlier) (c := c)
    cases c with
    | addClass | addIntersection | addExistential | addProperty =>
      have h := ih.of_same (hsame rfl)
      exact ⟨h.supers, h.properties, h.disjointness, h.axioms⟩
    | addSubProperty p q => exact keeping_addSubProperty rfl ih p q
    | addSubclass a b => exact keeping_addSubclass hi ho rfl ih a b
    | removeSubclass a b => exact keeping_removeSubclass hi ho rfl ih a b
    | addDisjointness members => exact keeping_addDisjointness ho rfl ih members

theorem mem_supers : s ∈ ((after calls).rules x).supers ↔ (x, s) ∈ liveSubclasses calls := by
  rw [← List.count_pos_iff, (keeping_after calls).supers, List.count_pos_iff]

theorem size_disjointness : (after calls).disjointness.size = (liveDisjointness calls).length := by
  have := congrArg List.length (keeping_after calls).disjointness
  simpa using this

theorem mem_disjointness {members : List NodeId} :
    members ∈ liveDisjointness calls ↔
      ∃ i : Nat, (after calls).disjointness[i]? = some ⟨members⟩ := by
  rw [← List.mem_reverse, ← (keeping_after calls).disjointness, List.mem_map]
  constructor
  · rintro ⟨a, ha, rfl⟩
    obtain ⟨i, hi⟩ := List.mem_iff_getElem?.mp ha
    exact ⟨i, by simpa using hi⟩
  · rintro ⟨i, hi⟩
    exact ⟨_, Array.mem_toList_iff.mpr (Array.mem_of_getElem? hi), rfl⟩

end Subsumption.Ontology
