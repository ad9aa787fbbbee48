import Subsumption.Proofs.Changes

/-! What holds of every ontology that calls have built, apart from the property hierarchy. -/
namespace Subsumption.Ontology

variable {o o' : Ontology} {n m : NodeId} {e : Expression}

/-! ### Expressions -/

theorem node?_push (x : Node) :
    node? { o with nodes := o.nodes.push x } n =
      if n.index = o.size then some x else o.node? n := by
  simp only [node?, Array.getElem?_push]
  rfl

theorem rules_push (e : Expression) :
    rules { o with nodes := o.nodes.push (.fresh e) } n = o.rules n := by
  simp only [rules, node?_push]
  by_cases h : n.index = o.size
  · have : o.node? n = none := by simp [node?, h, size]
    simp [h, this, Node.fresh]
  · simp [h]

/-- A change gives at most one number an expression, and takes none away. -/
theorem expression?_change (h : Change o o') :
    (∀ n, o'.expression? n = o.expression? n) ∨
    ∃ e, o.HasParts e ∧ o.find? e = none ∧ o'.size = o.size + 1 ∧
      ∀ n, o'.expression? n = if n.index = o.size then some e else o.expression? n := by
  cases h with
  | intern hp hn =>
    refine Or.inr ⟨_, hp, hn, by simp [size], ?_⟩
    intro n
    simp only [expression?, node?_push, Node.fresh]
    split <;> rfl
  | property | hierarchy | disjointness => exact Or.inl fun n => rfl
  | addSuper | eraseSuper | member => left; intro n; simp
  | adjust h => left; intro n; cases h <;> simp

theorem size_change (h : Change o o') : o.size ≤ o'.size := by
  cases h with
  | intern => simp [size]
  | property | hierarchy | disjointness => exact Nat.le_refl _
  | addSuper | eraseSuper | member => simp
  | adjust h => cases h <;> simp

theorem properties_change (h : Change o o') : o.properties.size ≤ o'.properties.size := by
  cases h with
  | adjust h => cases h <;> exact Nat.le_refl _
  | _ => simp [modifyRules, withHierarchy]

theorem expression?_lt (h : o.expression? n = some e) : n.index < o.size :=
  o.isSome_expression?.mp (by simp [h])

/-- What is known of an expression stays known. -/
theorem expression?_kept (h : Change o o') (he : o.expression? n = some e) :
    o'.expression? n = some e := by
  rcases expression?_change h with heq | ⟨e', _, _, _, heq⟩
  · rw [heq, he]
  · have hlt := expression?_lt he
    rw [heq, if_neg (by omega), he]

theorem find?_eq_none (h : o.find? e = none) : o.expression? n ≠ some e := by
  intro hn
  simp only [find?, Option.map_eq_none_iff, Array.findIdx?_eq_none_iff, beq_eq_false_iff_ne] at h
  simp only [expression?, node?, Option.map_eq_some_iff] at hn
  obtain ⟨x, hx, he⟩ := hn
  exact h x (Array.mem_of_getElem? hx) he

/-- Parts come before wholes, and no two numbers have one expression. -/
structure Interned (o : Ontology) : Prop where
  top : o.expression? top = some .top
  bottom : o.expression? bottom = some .bottom
  conjuncts : ∀ n a b, o.expression? n = some (.intersection a b) →
    a.index < n.index ∧ b.index < n.index
  filler : ∀ n p f, o.expression? n = some (.existential p f) →
    p.index < o.properties.size ∧ f.index < n.index
  distinct : ∀ n m e, o.expression? n = some e → o.expression? m = some e → n = m

theorem interned_empty : Interned empty := by
  have hcases : ∀ n e, empty.expression? n = some e →
      (n = top ∧ e = .top) ∨ (n = bottom ∧ e = .bottom) := by
    intro n e h
    have hlt : n.index < 2 := expression?_lt h
    obtain h0 | h1 : n.index = 0 ∨ n.index = 1 := by omega
    · have : n = top := NodeId.index_inj.mp h0
      subst this
      exact Or.inl ⟨rfl, (Option.some.inj h).symm⟩
    · have : n = bottom := NodeId.index_inj.mp h1
      subst this
      exact Or.inr ⟨rfl, (Option.some.inj h).symm⟩
  refine ⟨rfl, rfl, ?_, ?_, ?_⟩
  · intro n a b h
    rcases hcases n _ h with ⟨_, h⟩ | ⟨_, h⟩ <;> cases h
  · intro n p f h
    rcases hcases n _ h with ⟨_, h⟩ | ⟨_, h⟩ <;> cases h
  · intro n m e hn hm
    rcases hcases n e hn with ⟨hn, he⟩ | ⟨hn, he⟩ <;>
      rcases hcases m e hm with ⟨hm, he'⟩ | ⟨hm, he'⟩ <;> simp_all

theorem interned_change (h : Change o o') (ho : Interned o) : Interned o' := by
  have hpr := properties_change h
  rcases expression?_change h with heq | ⟨e, hparts, hnew, _, heq⟩
  · refine ⟨?_, ?_, ?_, ?_, ?_⟩
    · rw [heq, ho.top]
    · rw [heq, ho.bottom]
    · intro n a b hn
      exact ho.conjuncts n a b (by rwa [heq] at hn)
    · intro n p f hn
      have := ho.filler n p f (by rwa [heq] at hn)
      exact ⟨by omega, this.2⟩
    · intro n m e hn hm
      rw [heq] at hn hm
      exact ho.distinct n m e hn hm
  · refine ⟨expression?_kept h ho.top, expression?_kept h ho.bottom, ?_, ?_, ?_⟩
    · intro n a b hn
      rw [heq] at hn
      split at hn
      · cases hn
        simp only [HasParts] at hparts
        omega
      · exact ho.conjuncts n a b hn
    · intro n p f hn
      rw [heq] at hn
      split at hn
      · cases hn
        simp only [HasParts] at hparts
        omega
      · have := ho.filler n p f hn
        exact ⟨by omega, this.2⟩
    · intro n m e' hn hm
      rw [heq] at hn hm
      split at hn <;> split at hm
      · exact NodeId.index_inj.mp (by omega)
      · cases hn
        exact absurd hm (find?_eq_none hnew)
      · cases hm
        exact absurd hn (find?_eq_none hnew)
      · exact ho.distinct n m e' hn hm

theorem interned_after (calls : List Call) : Interned (after calls) :=
  after_induction interned_empty (fun _ _ => interned_change) calls

/-! ### Rules -/

variable {f : RuleChain → RuleChain} {k l : RuleKind} {g : Rule → Rule}

theorem proper_modifyRules (he : RuleChain.Edits f k g) (ho : ∀ n, (o.rules n).Proper) :
    ∀ n, ((o.modifyRules m f).rules n).Proper := by
  intro n
  rw [rules_modifyRules]
  split
  · exact he.proper _ (ho n)
  · exact ho n

theorem contradicts_modifyRules (he : RuleChain.Edits f k g) (ho : ∀ n, (o.rules n).Proper) :
    ((o.modifyRules m f).rules n).contradicts = (o.rules n).contradicts := by
  rw [rules_modifyRules]
  split
  · exact he.contradicts _ (ho n)
  · rfl

theorem rule_modifyRules (he : RuleChain.Edits f k g) (ho : ∀ n, (o.rules n).Proper) :
    ((o.modifyRules m f).rules n).rule l =
      if n = m ∧ m.index < o.size ∧ l = k then g ((o.rules n).rule l) else (o.rules n).rule l := by
  rw [rules_modifyRules]
  by_cases h : n = m ∧ m.index < o.size
  · rw [if_pos h, he.rule _ (ho n)]
    by_cases hl : l = k
    · simp [h.1, h.2, hl]
    · simp [hl]
  · rw [if_neg h, if_neg (fun h' => h ⟨h'.1, h'.2.1⟩)]

theorem rule_modifyRules_of_ne (he : RuleChain.Edits f k g) (ho : ∀ n, (o.rules n).Proper)
    (hl : l ≠ k) : ((o.modifyRules m f).rules n).rule l = (o.rules n).rule l := by
  rw [rule_modifyRules he ho, if_neg (fun h => hl h.2.2)]

theorem supers_addSuper (ho : ∀ n, (o.rules n).Proper) {x : NodeId} :
    ((o.modifyRules m (·.addSuper x)).rules n).supers =
      if n = m ∧ m.index < o.size then (o.rules n).supers ++ [x] else (o.rules n).supers := by
  simp only [RuleChain.supers, rule_modifyRules (RuleChain.edits_addSuper x) ho, and_true]
  split
  · exact Rule.supers_addSuper (RuleChain.kind_rule _) x
  · rfl

theorem supers_eraseSuper (ho : ∀ n, (o.rules n).Proper) {x : NodeId} :
    ((o.modifyRules m (·.eraseSuper x)).rules n).supers =
      if n = m ∧ m.index < o.size then (o.rules n).supers.erase x else (o.rules n).supers := by
  simp only [RuleChain.supers, rule_modifyRules (RuleChain.edits_eraseSuper x) ho, and_true]
  split
  · exact Rule.supers_eraseSuper x
  · rfl

theorem mem_supers_addSuper (ho : ∀ n, (o.rules n).Proper) {x y : NodeId} :
    y ∈ ((o.modifyRules m (·.addSuper x)).rules n).supers ↔
      y ∈ (o.rules n).supers ∨ (n = m ∧ m.index < o.size ∧ y = x) := by
  rw [supers_addSuper ho]
  split
  · rw [List.mem_append, List.mem_singleton]
    tauto
  · tauto

theorem mem_supers_eraseSuper (ho : ∀ n, (o.rules n).Proper) {x y : NodeId}
    (h : y ∈ ((o.modifyRules m (·.eraseSuper x)).rules n).supers) : y ∈ (o.rules n).supers := by
  rw [supers_eraseSuper ho] at h
  split at h
  · exact List.mem_of_mem_erase h
  · exact h

theorem mem_partners_addPartner (ho : ∀ n, (o.rules n).Proper) {e x : Partner} :
    e ∈ ((o.modifyRules m (·.addPartner x)).rules n).partners ↔
      e ∈ (o.rules n).partners ∨ (n = m ∧ m.index < o.size ∧ e = x) := by
  simp only [RuleChain.partners, rule_modifyRules (RuleChain.edits_addPartner x) ho]
  split
  · rw [Rule.mem_partners_addPartner (RuleChain.kind_rule _)]
    tauto
  · tauto

theorem mem_partners_erasePartner (ho : ∀ n, (o.rules n).Proper) {e x : Partner} :
    e ∈ ((o.modifyRules m (·.erasePartner x)).rules n).partners ↔
      e ∈ (o.rules n).partners ∧ ¬ (n = m ∧ m.index < o.size ∧ e = x) := by
  simp only [RuleChain.partners, rule_modifyRules (RuleChain.edits_erasePartner x) ho]
  split
  · rw [Rule.mem_partners_erasePartner]
    tauto
  · tauto

theorem mem_existentials_addExistential (ho : ∀ n, (o.rules n).Proper) {x y : NodeId} :
    y ∈ ((o.modifyRules m (·.addExistential x)).rules n).existentials ↔
      y ∈ (o.rules n).existentials ∨ (n = m ∧ m.index < o.size ∧ y = x) := by
  simp only [RuleChain.existentials, rule_modifyRules (RuleChain.edits_addExistential x) ho]
  split
  · rw [Rule.mem_existentials_addExistential (RuleChain.kind_rule _)]
    tauto
  · tauto

theorem mem_existentials_eraseExistential (ho : ∀ n, (o.rules n).Proper) {x y : NodeId} :
    y ∈ ((o.modifyRules m (·.eraseExistential x)).rules n).existentials ↔
      y ∈ (o.rules n).existentials ∧ ¬ (n = m ∧ m.index < o.size ∧ y = x) := by
  simp only [RuleChain.existentials, rule_modifyRules (RuleChain.edits_eraseExistential x) ho]
  split
  · rw [Rule.mem_existentials_eraseExistential]
    tauto
  · tauto

theorem mem_axioms_addDisjointness (ho : ∀ n, (o.rules n).Proper) {x y : DisjointnessId} :
    y ∈ ((o.modifyRules m (·.addDisjointness x)).rules n).axioms ↔
      y ∈ (o.rules n).axioms ∨ (n = m ∧ m.index < o.size ∧ y = x) := by
  simp only [RuleChain.axioms, rule_modifyRules (RuleChain.edits_addDisjointness x) ho]
  split
  · rw [Rule.mem_axioms_addDisjointness (RuleChain.kind_rule _)]
    tauto
  · tauto

/-- The chains hold what the expressions call for: both conjuncts list an intersection and the
filler an existential, and the contradiction is with owl:Nothing. -/
structure Attached (o : Ontology) : Prop where
  proper : ∀ n, (o.rules n).Proper
  contradicts : ∀ n, (o.rules n).contradicts = true ↔ n = bottom
  supers : ∀ n s, s ∈ (o.rules n).supers → s.index < o.size
  partners : ∀ n e, e ∈ (o.rules n).partners →
    (o.expression? e.conjunction = some (.intersection n e.partner) ∨
      o.expression? e.conjunction = some (.intersection e.partner n)) ∧
    ⟨n, e.conjunction⟩ ∈ (o.rules e.partner).partners
  existentials : ∀ n E, E ∈ (o.rules n).existentials →
    ∃ p, o.expression? E = some (.existential p n)
  axioms : ∀ n d, d ∈ (o.rules n).axioms → d.index < o.disjointness.size

/-- Only the entries of the kind that an edit is about have to be looked at again. -/
theorem Attached.of_edit (ho : Attached o) (k : RuleKind) (hp : ∀ n, (o'.rules n).Proper)
    (hc : ∀ n, (o'.rules n).contradicts = (o.rules n).contradicts)
    (hr : ∀ n l, l ≠ k → (o'.rules n).rule l = (o.rules n).rule l)
    (hx : ∀ n e, o.expression? n = some e → o'.expression? n = some e)
    (hs : o.size ≤ o'.size) (hd : o.disjointness.size ≤ o'.disjointness.size)
    (hsupers : k = .told → ∀ n s, s ∈ (o'.rules n).supers → s.index < o'.size)
    (hpartners : k = .conjunction → ∀ n e, e ∈ (o'.rules n).partners →
      (o'.expression? e.conjunction = some (.intersection n e.partner) ∨
        o'.expression? e.conjunction = some (.intersection e.partner n)) ∧
      ⟨n, e.conjunction⟩ ∈ (o'.rules e.partner).partners)
    (hexistentials : k = .propagation → ∀ n E, E ∈ (o'.rules n).existentials →
      ∃ p, o'.expression? E = some (.existential p n))
    (haxioms : k = .disjointness → ∀ n d, d ∈ (o'.rules n).axioms →
      d.index < o'.disjointness.size) : Attached o' := by
  refine ⟨hp, ?_, ?_, ?_, ?_, ?_⟩
  · intro n
    rw [hc]
    exact ho.contradicts n
  · by_cases hk : k = .told
    · exact hsupers hk
    · intro n s h
      simp only [RuleChain.supers, hr n .told (Ne.symm hk)] at h
      exact Nat.lt_of_lt_of_le (ho.supers n s h) hs
  · by_cases hk : k = .conjunction
    · exact hpartners hk
    · intro n e h
      have hsame := fun n => hr n .conjunction (Ne.symm hk)
      simp only [RuleChain.partners, hsame] at h ⊢
      exact ⟨(ho.partners n e h).1.imp (hx _ _) (hx _ _), (ho.partners n e h).2⟩
  · by_cases hk : k = .propagation
    · exact hexistentials hk
    · intro n E h
      simp only [RuleChain.existentials, hr n .propagation (Ne.symm hk)] at h
      obtain ⟨p, hp⟩ := ho.existentials n E h
      exact ⟨p, hx _ _ hp⟩
  · by_cases hk : k = .disjointness
    · exact haxioms hk
    · intro n d h
      simp only [RuleChain.axioms, hr n .disjointness (Ne.symm hk)] at h
      exact Nat.lt_of_lt_of_le (ho.axioms n d h) hd

/-- One edit of one chain. -/
theorem Attached.of_modifyRules (ho : Attached o) (he : RuleChain.Edits f k g)
    (hpartners : k ≠ .conjunction)
    (hsupers : k = .told → ∀ n s, s ∈ ((o.modifyRules m f).rules n).supers → s.index < o.size)
    (hexistentials : k = .propagation → ∀ n E, E ∈ ((o.modifyRules m f).rules n).existentials →
      ∃ p, o.expression? E = some (.existential p n))
    (haxioms : k = .disjointness → ∀ n d, d ∈ ((o.modifyRules m f).rules n).axioms →
      d.index < o.disjointness.size) : Attached (o.modifyRules m f) :=
  ho.of_edit k (proper_modifyRules he ho.proper) (fun _ => contradicts_modifyRules he ho.proper)
    (fun _ _ hl => rule_modifyRules_of_ne he ho.proper hl) (fun _ _ h => by simpa using h)
    (Nat.le_of_eq (o.size_modifyRules f).symm) (Nat.le_refl _)
    (fun h n s hs => by simpa using hsupers h n s hs) (fun h => absurd h hpartners)
    (fun h n E hE => by simpa using hexistentials h n E hE) haxioms

theorem rules_empty (n : NodeId) :
    empty.rules n = if n = bottom then ⟨[.contradiction]⟩ else .empty := by
  by_cases h1 : n = bottom
  · subst h1
    rfl
  · rw [if_neg h1]
    by_cases h0 : n = top
    · subst h0
      rfl
    · have hlt : ¬ n.index < 2 := by
        intro h
        obtain h | h : n.index = 0 ∨ n.index = 1 := by omega
        · exact h0 (NodeId.index_inj.mp h)
        · exact h1 (NodeId.index_inj.mp h)
      have : empty.node? n = none := by
        simp only [node?, empty, Array.getElem?_eq_none_iff]
        exact Nat.not_lt.mp hlt
      simp [rules, this]

theorem attached_empty : Attached empty := by
  have hproper : ∀ n, (empty.rules n).Proper := by
    intro n
    rw [rules_empty]
    split
    · exact ⟨by simp, by simp [Rule.isEmpty]⟩
    · exact .empty
  refine ⟨hproper, ?_, ?_, ?_, ?_, ?_⟩
  · intro n
    rw [rules_empty]
    split
    · exact ⟨fun _ => ‹_›, fun _ => rfl⟩
    · exact ⟨fun h => absurd h (by decide), fun h => absurd h ‹_›⟩
  all_goals
    intro n e h
    rw [rules_empty] at h
    split at h <;> simp [RuleChain.supers, RuleChain.partners, RuleChain.existentials,
      RuleChain.axioms, RuleChain.rule, RuleChain.find?, RuleChain.empty, Rule.kind, Rule.empty,
      Rule.supers, Rule.partners, Rule.existentials, Rule.axioms] at h

theorem parts_lt (ho : Interned o) {a b : NodeId}
    (h : o.expression? n = some (.intersection a b)) : a.index < o.size ∧ b.index < o.size := by
  have := ho.conjuncts n a b h
  have := expression?_lt h
  omega

/-- Two edits of chains, at both conjuncts of an intersection. -/
theorem Attached.of_modifyRules₂ (ho : Attached o) {f' : RuleChain → RuleChain} {g' : Rule → Rule}
    {a b : NodeId} (he : RuleChain.Edits f .conjunction g)
    (he' : RuleChain.Edits f' .conjunction g')
    (hpartners : ∀ n e, e ∈ (((o.modifyRules a f).modifyRules b f').rules n).partners →
      (o.expression? e.conjunction = some (.intersection n e.partner) ∨
        o.expression? e.conjunction = some (.intersection e.partner n)) ∧
      ⟨n, e.conjunction⟩ ∈ (((o.modifyRules a f).modifyRules b f').rules e.partner).partners) :
    Attached ((o.modifyRules a f).modifyRules b f') := by
  have hp := proper_modifyRules (m := a) he ho.proper
  refine ho.of_edit .conjunction (proper_modifyRules he' hp) ?_ ?_ ?_ (by simp) (Nat.le_refl _)
    ?_ ?_ ?_ ?_
  · intro n
    rw [contradicts_modifyRules he' hp, contradicts_modifyRules he ho.proper]
  · intro n l hl
    rw [rule_modifyRules_of_ne he' hp hl, rule_modifyRules_of_ne he ho.proper hl]
  · intro n e h
    simpa using h
  · exact fun h => absurd h (by decide)
  · intro _ n e h
    simpa using hpartners n e h
  · exact fun h => absurd h (by decide)
  · exact fun h => absurd h (by decide)

theorem attached_addPartners (hi : Interned o) (ho : Attached o) {a b : NodeId}
    (h : o.expression? m = some (.intersection a b)) :
    Attached ((o.modifyRules a (·.addPartner ⟨b, m⟩)).modifyRules b (·.addPartner ⟨a, m⟩)) := by
  obtain ⟨ha, hb⟩ := parts_lt hi h
  have hp := proper_modifyRules (m := a) (RuleChain.edits_addPartner ⟨b, m⟩) ho.proper
  have hmem : ∀ n e, e ∈ (((o.modifyRules a (·.addPartner ⟨b, m⟩)).modifyRules b
      (·.addPartner ⟨a, m⟩)).rules n).partners ↔
      e ∈ (o.rules n).partners ∨ (n = a ∧ e = ⟨b, m⟩) ∨ (n = b ∧ e = ⟨a, m⟩) := by
    intro n e
    rw [mem_partners_addPartner hp, mem_partners_addPartner ho.proper]
    simp [ha, hb, or_assoc]
  refine ho.of_modifyRules₂ (RuleChain.edits_addPartner _) (RuleChain.edits_addPartner _) ?_
  intro n e hm
  rw [hmem] at hm ⊢
  rcases hm with hm | ⟨rfl, rfl⟩ | ⟨rfl, rfl⟩
  · exact ⟨(ho.partners n e hm).1, Or.inl (ho.partners n e hm).2⟩
  · exact ⟨Or.inl h, Or.inr (Or.inr ⟨rfl, rfl⟩)⟩
  · exact ⟨Or.inr h, Or.inr (Or.inl ⟨rfl, rfl⟩)⟩

theorem attached_erasePartners (hi : Interned o) (ho : Attached o) {a b : NodeId}
    (h : o.expression? m = some (.intersection a b)) :
    Attached
      ((o.modifyRules a (·.erasePartner ⟨b, m⟩)).modifyRules b (·.erasePartner ⟨a, m⟩)) := by
  obtain ⟨ha, hb⟩ := parts_lt hi h
  have hp := proper_modifyRules (m := a) (RuleChain.edits_erasePartner ⟨b, m⟩) ho.proper
  have hmem : ∀ n e, e ∈ (((o.modifyRules a (·.erasePartner ⟨b, m⟩)).modifyRules b
      (·.erasePartner ⟨a, m⟩)).rules n).partners ↔
      e ∈ (o.rules n).partners ∧ ¬ (n = a ∧ e = ⟨b, m⟩) ∧ ¬ (n = b ∧ e = ⟨a, m⟩) := by
    intro n e
    rw [mem_partners_erasePartner hp, mem_partners_erasePartner ho.proper]
    simp [ha, hb, and_assoc]
  refine ho.of_modifyRules₂ (RuleChain.edits_erasePartner _) (RuleChain.edits_erasePartner _) ?_
  intro n e hm
  rw [hmem] at hm ⊢
  obtain ⟨hm, hna, hnb⟩ := hm
  refine ⟨(ho.partners n e hm).1, (ho.partners n e hm).2, ?_, ?_⟩
  · rintro ⟨h1, h2⟩
    cases e
    simp only [Partner.mk.injEq] at h1 h2 hnb
    exact hnb ⟨h2.1, h1, h2.2⟩
  · rintro ⟨h1, h2⟩
    cases e
    simp only [Partner.mk.injEq] at h1 h2 hna
    exact hna ⟨h2.1, h1, h2.2⟩

theorem attached_adjust (hi : Interned o) (h : Adjust o o') (ho : Attached o) : Attached o' := by
  cases h with
  | @count n f =>
    refine ho.of_edit .bottom (fun m => ?_) (fun m => ?_) (fun m l _ => ?_) ?_ (by simp)
      (Nat.le_refl _) ?_ ?_ ?_ ?_
    · rw [rules_modifyNegative]
      exact ho.proper m
    · rw [rules_modifyNegative]
    · rw [rules_modifyNegative]
    · intro m e he
      simpa using he
    all_goals exact fun h => absurd h (by decide)
  | addPartners h => exact attached_addPartners hi ho h
  | erasePartners h => exact attached_erasePartners hi ho h
  | @addExistential n p c h =>
    refine ho.of_modifyRules (RuleChain.edits_addExistential _) (by decide)
      (fun h => absurd h (by decide)) ?_ (fun h => absurd h (by decide))
    intro _ x E hE
    rw [mem_existentials_addExistential ho.proper] at hE
    rcases hE with hE | ⟨rfl, _, rfl⟩
    · exact ho.existentials x E hE
    · exact ⟨p, h⟩
  | eraseExistential h =>
    refine ho.of_modifyRules (RuleChain.edits_eraseExistential _) (by decide)
      (fun h => absurd h (by decide)) ?_ (fun h => absurd h (by decide))
    intro _ x E hE
    rw [mem_existentials_eraseExistential ho.proper] at hE
    exact ho.existentials x E hE.1

theorem attached_change (hi : Interned o) (h : Change o o') (ho : Attached o) : Attached o' := by
  have hsize := size_change h
  cases h with
  | intern hp hn =>
    refine ho.of_edit .bottom (fun n => ?_) (fun n => ?_) (fun n l _ => ?_)
      (fun n e he => expression?_kept (.intern hp hn) he) hsize (Nat.le_refl _) ?_ ?_ ?_ ?_
    · rw [rules_push]
      exact ho.proper n
    · rw [rules_push]
    · rw [rules_push]
    all_goals exact fun h => absurd h (by decide)
  | property | hierarchy =>
    exact ⟨ho.proper, ho.contradicts, ho.supers, ho.partners, ho.existentials, ho.axioms⟩
  | disjointness =>
    refine ⟨ho.proper, ho.contradicts, ho.supers, ho.partners, ho.existentials, ?_⟩
    intro n d hd
    have := ho.axioms n d hd
    simp only [Array.size_push]
    omega
  | addSuper h =>
    refine ho.of_modifyRules (RuleChain.edits_addSuper _) (by decide) ?_
      (fun h => absurd h (by decide)) (fun h => absurd h (by decide))
    intro _ n s hs
    rw [mem_supers_addSuper ho.proper] at hs
    rcases hs with hs | ⟨_, _, rfl⟩
    · exact ho.supers n s hs
    · exact h
  | eraseSuper =>
    refine ho.of_modifyRules (RuleChain.edits_eraseSuper _) (by decide) ?_
      (fun h => absurd h (by decide)) (fun h => absurd h (by decide))
    intro _ n s hs
    exact ho.supers n s (mem_supers_eraseSuper ho.proper hs)
  | adjust h => exact attached_adjust hi h ho
  | member h =>
    refine ho.of_modifyRules (RuleChain.edits_addDisjointness _) (by decide)
      (fun h => absurd h (by decide)) (fun h => absurd h (by decide)) ?_
    intro _ x d hd
    rw [mem_axioms_addDisjointness ho.proper] at hd
    rcases hd with hd | ⟨_, _, rfl⟩
    · exact ho.axioms x d hd
    · exact h

/-- Everything that calls have built is interned and attached properly. -/
theorem attached_after (calls : List Call) : Attached (after calls) :=
  (after_induction (P := fun o => Interned o ∧ Attached o) ⟨interned_empty, attached_empty⟩
    (fun _ _ h ho => ⟨interned_change h ho.1, attached_change ho.1 h ho.2⟩) calls).2

end Subsumption.Ontology
