import Subsumption.Proofs.Registration

/-! What the chains hold and how often nodes are registered is determined by the axioms in force. -/
namespace Subsumption

/-! ### No entry twice -/

namespace Rule

variable {r : Rule}

/-- Nothing is listed twice, but for told superclasses. -/
structure Distinct (r : Rule) : Prop where
  partners : r.partners.Nodup
  existentials : r.existentials.Nodup
  axioms : r.axioms.Nodup

theorem nodup_append_new {α : Type} [BEq α] [LawfulBEq α] {entries : List α} {entry : α}
    (h : entries.Nodup) :
    (if entries.contains entry then entries else entries ++ [entry]).Nodup := by
  split
  · exact h
  · rename_i hnew
    rw [List.contains_iff_mem] at hnew
    exact List.concat_eq_append ▸ h.concat hnew

theorem Distinct.empty (k : RuleKind) : (Rule.empty k).Distinct := by
  cases k <;> exact ⟨List.nodup_nil, List.nodup_nil, List.nodup_nil⟩

theorem Distinct.addSuper (h : r.Distinct) (s : NodeId) : (r.addSuper s).Distinct := by
  cases r with
  | told => exact ⟨List.nodup_nil, List.nodup_nil, List.nodup_nil⟩
  | _ => exact h

theorem Distinct.eraseSuper (h : r.Distinct) (s : NodeId) : (r.eraseSuper s).Distinct := by
  cases r with
  | told => exact ⟨List.nodup_nil, List.nodup_nil, List.nodup_nil⟩
  | _ => exact h

theorem Distinct.addPartner (h : r.Distinct) (e : Partner) : (r.addPartner e).Distinct := by
  cases r with
  | conjunction => exact ⟨nodup_append_new h.partners, List.nodup_nil, List.nodup_nil⟩
  | _ => exact h

theorem Distinct.erasePartner (h : r.Distinct) (e : Partner) : (r.erasePartner e).Distinct := by
  cases r with
  | conjunction => exact ⟨h.partners.filter _, List.nodup_nil, List.nodup_nil⟩
  | _ => exact h

theorem Distinct.addExistential (h : r.Distinct) (n : NodeId) :
    (r.addExistential n).Distinct := by
  cases r with
  | propagation => exact ⟨List.nodup_nil, nodup_append_new h.existentials, List.nodup_nil⟩
  | _ => exact h

theorem Distinct.eraseExistential (h : r.Distinct) (n : NodeId) :
    (r.eraseExistential n).Distinct := by
  cases r with
  | propagation => exact ⟨List.nodup_nil, h.existentials.filter _, List.nodup_nil⟩
  | _ => exact h

theorem Distinct.addDisjointness (h : r.Distinct) (d : DisjointnessId) :
    (r.addDisjointness d).Distinct := by
  cases r with
  | disjointness => exact ⟨List.nodup_nil, List.nodup_nil, nodup_append_new h.axioms⟩
  | _ => exact h

end Rule

/-! ### Chains with the same entries -/

namespace RuleChain

variable {c c' : RuleChain} {k : RuleKind}

/-- Rules of the same kinds with the same entries, in any order. -/
structure Same (c c' : RuleChain) : Prop where
  kinds : (c.rules.map Rule.kind).Perm (c'.rules.map Rule.kind)
  supers : c.supers.Perm c'.supers
  partners : c.partners.Perm c'.partners
  existentials : c.existentials.Perm c'.existentials
  axioms : c.axioms.Perm c'.axioms

theorem eq_nil_iff {α : Type} {l l' : List α} (h : l.Perm l') : l = [] ↔ l' = [] := by
  rw [← List.length_eq_zero_iff, h.length_eq, List.length_eq_zero_iff]

theorem mem_kinds : k ∈ c.rules.map Rule.kind ↔ (c.find? k).isSome = true := by
  simp [find?]

theorem isSome_find?_iff (hc : c.Proper) (hk : k ≠ .bottom) :
    (c.find? k).isSome = true ↔ (c.rule k).isEmpty = false := by
  unfold rule
  cases h : c.find? k with
  | none => simp [Rule.isEmpty_empty, hk]
  | some r => simp [hc.filled r (((find?_eq_some c hc.distinct).mp h).1)]

/-- A proper chain has the rules that its entries call for. -/
theorem same_of_entries (hc : c.Proper) (hc' : c'.Proper)
    (hcontradicts : c.contradicts = c'.contradicts) (hsupers : c.supers.Perm c'.supers)
    (hpartners : c.partners.Perm c'.partners) (hexistentials : c.existentials.Perm c'.existentials)
    (haxioms : c.axioms.Perm c'.axioms) : c.Same c' := by
  refine ⟨?_, hsupers, hpartners, hexistentials, haxioms⟩
  rw [List.perm_ext_iff_of_nodup hc.distinct hc'.distinct]
  intro k
  rw [mem_kinds, mem_kinds]
  by_cases hk : k = .bottom
  · rw [hk]
    exact Bool.eq_iff_iff.mp hcontradicts
  · rw [isSome_find?_iff hc hk, isSome_find?_iff hc' hk, ← Bool.not_eq_true, ← Bool.not_eq_true,
      not_iff_not]
    cases k with
    | bottom => exact absurd rfl hk
    | told =>
      rw [Rule.isEmpty_iff_supers c.kind_rule, Rule.isEmpty_iff_supers c'.kind_rule]
      exact eq_nil_iff hsupers
    | conjunction =>
      rw [Rule.isEmpty_iff_partners c.kind_rule, Rule.isEmpty_iff_partners c'.kind_rule]
      exact eq_nil_iff hpartners
    | propagation =>
      rw [Rule.isEmpty_iff_existentials c.kind_rule, Rule.isEmpty_iff_existentials c'.kind_rule]
      exact eq_nil_iff hexistentials
    | disjointness =>
      rw [Rule.isEmpty_iff_axioms c.kind_rule, Rule.isEmpty_iff_axioms c'.kind_rule]
      exact eq_nil_iff haxioms

end RuleChain

namespace Ontology

variable {o o' : Ontology} {n m x s : NodeId} {d : DisjointnessId} {calls calls' : List Call}

def Distinct (o : Ontology) : Prop := ∀ n k, ((o.rules n).rule k).Distinct

theorem Distinct.modifyRules {f : RuleChain → RuleChain} {g : Rule → Rule} {k : RuleKind}
    (h : o.Distinct) (ho : ∀ n, (o.rules n).Proper) (he : RuleChain.Edits f k g)
    (hg : ∀ r : Rule, r.Distinct → (g r).Distinct) : (o.modifyRules m f).Distinct := by
  intro n l
  rw [rule_modifyRules he ho]
  split
  · exact hg _ (h n l)
  · exact h n l

theorem distinct_adjust (ho : ∀ n, (o.rules n).Proper) (hc : Adjust o o') (h : o.Distinct) :
    o'.Distinct := by
  cases hc with
  | count =>
    intro n k
    rw [rules_modifyNegative]
    exact h n k
  | addPartners =>
    refine (h.modifyRules ho (RuleChain.edits_addPartner _) fun _ h => h.addPartner _).modifyRules
      (proper_modifyRules (RuleChain.edits_addPartner _) ho) (RuleChain.edits_addPartner _)
      fun _ h => h.addPartner _
  | erasePartners =>
    refine (h.modifyRules ho (RuleChain.edits_erasePartner _)
      fun _ h => h.erasePartner _).modifyRules
      (proper_modifyRules (RuleChain.edits_erasePartner _) ho) (RuleChain.edits_erasePartner _)
      fun _ h => h.erasePartner _
  | addExistential =>
    exact h.modifyRules ho (RuleChain.edits_addExistential _) fun _ h => h.addExistential _
  | eraseExistential =>
    exact h.modifyRules ho (RuleChain.edits_eraseExistential _) fun _ h => h.eraseExistential _

theorem distinct_change (ho : ∀ n, (o.rules n).Proper) (hc : Change o o') (h : o.Distinct) :
    o'.Distinct := by
  cases hc with
  | intern =>
    intro n k
    rw [rules_push]
    exact h n k
  | property | hierarchy | disjointness => exact h
  | addSuper => exact h.modifyRules ho (RuleChain.edits_addSuper _) fun _ h => h.addSuper _
  | eraseSuper => exact h.modifyRules ho (RuleChain.edits_eraseSuper _) fun _ h => h.eraseSuper _
  | adjust hadj => exact distinct_adjust ho hadj h
  | member =>
    exact h.modifyRules ho (RuleChain.edits_addDisjointness _) fun _ h => h.addDisjointness _

theorem distinct_empty : empty.Distinct := by
  intro n k
  by_cases hk : k = .bottom
  · subst hk
    have hkind := (empty.rules n).kind_rule (k := .bottom)
    cases hr : (empty.rules n).rule .bottom with
    | contradiction => exact .empty .bottom
    | _ => simp [hr, Rule.kind] at hkind
  · rw [rule_empty hk]
    exact .empty k

theorem distinct_after (calls : List Call) : (after calls).Distinct :=
  (after_induction (P := fun o => (Interned o ∧ Attached o) ∧ Distinct o)
    ⟨⟨interned_empty, attached_empty⟩, distinct_empty⟩
    (fun _ _ hc ⟨⟨hi, ho⟩, h⟩ =>
      ⟨⟨interned_change hc hi, attached_change hi hc ho⟩, distinct_change ho.proper hc h⟩) calls).2

/-- A conjunction is listed once in the chain of a conjunct, since it has only one partner there. -/
theorem nodup_conjunctions (ho : o.Attached) (hd : o.Distinct) :
    ((o.rules n).partners.map (·.conjunction)).Nodup := by
  refine List.Nodup.map_on ?_ (hd n .conjunction).partners
  rintro ⟨a, c⟩ ha ⟨b, _⟩ hb rfl
  have hea := (ho.partners n _ ha).1
  have heb := (ho.partners n _ hb).1
  have hab : a = b := by
    rcases hea with hea | hea <;> rcases heb with heb | heb <;> rw [hea] at heb <;> cases heb <;> rfl
  rw [hab]

/-! ### Told superclasses -/

/-- What is told of `n` and has not been taken back, one entry for each registration. -/
def live (calls : List Call) (n : NodeId) : List NodeId :=
  ((liveSubclasses calls).filter (·.1 = n)).map (·.2)

theorem count_live : (live calls n).count s = (liveSubclasses calls).count (n, s) := by
  rw [live, List.count, List.countP_map, List.countP_filter, List.count]
  refine List.countP_congr ?_
  rintro ⟨a, b⟩ _
  simp [and_comm]

theorem supers_perm_live : ((after calls).rules n).supers.Perm (live calls n) := by
  rw [List.perm_iff_count]
  intro s
  rw [(keeping_after calls).supers, count_live]

theorem told_after : (after calls).told = fun n => (live calls n).length :=
  funext fun _ => supers_perm_live.length_eq

/-! ### Disjointness axioms -/

/-- Only new disjointness axioms are entered as such. -/
theorem disjointness_kept (hi : o.Interned) (ho : o.Attached) {c : Call}
    (hc : ∀ members, c ≠ .addDisjointness members) :
    ((o.perform c).rules x).rule .disjointness = (o.rules x).rule .disjointness := by
  have hsame := sameAxioms_perform o (c := c)
  cases c with
  | addClass | addIntersection | addExistential | addProperty => rw [(hsame rfl).rules]
  | addSubProperty p q =>
    rcases addSubProperty_eq o p q with ⟨e, he⟩ | ⟨_, _, he⟩
    · rw [perform, he]
    · rw [perform, he]
      rfl
  | addSubclass a b =>
    rcases addSubclass_eq o a b with ⟨e, he⟩ | ⟨hab, he⟩
    · rw [perform, he]
    · rw [perform, he, (adjusted_addSuper hi ho hab.2).rule x _ (by decide) (by decide)]
      exact rule_modifyRules_of_ne (RuleChain.edits_addSuper b) ho.proper (by decide)
  | removeSubclass a b =>
    rcases removeSubclass_eq o a b with ⟨e, he⟩ | ⟨_, he⟩
    · rw [perform, he]
    · have hrule : ((o.modifyRules a (·.eraseSuper b)).rules x).rule .disjointness =
          (o.rules x).rule .disjointness :=
        rule_modifyRules_of_ne (RuleChain.edits_eraseSuper b) ho.proper (by decide)
      rw [perform, he]
      split
      · rw [(adjusted_eraseSuper hi ho).rule x _ (by decide) (by decide), hrule]
      · exact hrule
  | addDisjointness members => exact absurd rfl (hc members)

theorem mem_axioms_after : d ∈ ((after calls).rules x).axioms ↔
    ∃ (i : Nat) (members : List NodeId),
      (liveDisjointness calls).reverse[i]? = some members ∧ x ∈ members ∧ d = .ofIndex i := by
  induction calls with
  | nil => simp [after, RuleChain.axioms, rule_empty, Rule.empty, Rule.axioms, liveDisjointness]
  | cons c earlier ih =>
    have hi := interned_after earlier
    have ho := attached_after earlier
    cases c with
    | addDisjointness members =>
      rcases addDisjointness_eq (after earlier) members with ⟨e, he⟩ | ⟨hm, he⟩
      · simpa [after, perform, he, liveDisjointness] using ih
      · have ht := tellsMembers_push (d := .ofIndex (after earlier).disjointness.size) ho members
        have hlive : liveDisjointness (.addDisjointness members :: earlier) =
            members :: liveDisjointness earlier := by
          simp [liveDisjointness, he]
        have hold : d ∈ (rules { after earlier with
            disjointness := (after earlier).disjointness.push ⟨members⟩ } x).axioms ↔
            d ∈ ((after earlier).rules x).axioms := Iff.rfl
        rw [after, perform, he, ht.axioms, hold, ih, hlive, List.reverse_cons,
          size_disjointness, ← List.length_reverse]
        constructor
        · rintro (⟨i, ms, hms, hx⟩ | ⟨hd, hx, _⟩)
          · exact ⟨i, ms, List.getElem?_append_left (List.getElem?_eq_some_iff.mp hms).1 ▸ hms, hx⟩
          · exact ⟨_, members, List.getElem?_concat_length, hx, hd⟩
        · rintro ⟨i, ms, hms, hx, hd⟩
          rcases Nat.lt_trichotomy i (liveDisjointness earlier).reverse.length with hlt | rfl | hgt
          · exact Or.inl ⟨i, ms, List.getElem?_append_left hlt ▸ hms, hx, hd⟩
          · rw [List.getElem?_concat_length] at hms
            cases hms
            exact Or.inr ⟨hd, hx, hm x hx⟩
          · rw [List.getElem?_eq_none (by simpa using Nat.succ_le_of_lt hgt)] at hms
            cases hms
    | _ =>
      rw [after, RuleChain.axioms, disjointness_kept hi ho (by simp), ← RuleChain.axioms, ih]
      rfl

/-! ### Counts -/

/-- At no moment is a node registered 2³² times or more. -/
def Counted (calls : List Call) : Prop :=
  ∀ earlier, earlier <:+ calls → ∀ m,
    load (after earlier).parts (fun n => (live earlier n).length) m < UInt32.size

theorem Counted.registered (h : Counted calls) : (after calls).Registered fun _ => 0 := by
  refine registered_of_load fun earlier he m => ?_
  rw [told_after]
  exact h earlier he m

/-- Fewer than 2³¹ calls can always be counted. -/
theorem counted_of_length (h : 2 * calls.length < UInt32.size) : Counted calls := by
  intro earlier he m
  rw [← told_after]
  exact Nat.lt_of_le_of_lt load_le_capacity ((fits_of_length h).counts earlier he m)

/-- The counts are what is to be registered; they do not depend on how they came about. -/
theorem negative_eq_load (hi : o.Interned) (hr : o.Registered fun _ => 0) (m : NodeId) :
    (o.negative m).toNat = load o.parts o.told m := by
  induction hx : UInt32.size - m.index using Nat.strongRecOn generalizing m with
  | _ k ih =>
    subst hx
    have hbal : ((o.negative m).toNat : Int) + 0 = o.registrations m := hr.balanced m
    rw [load_eq hi]
    have hsum : o.registrations m = o.told m + ∑ i ∈ Finset.range UInt32.size,
        if 0 < load o.parts o.told (.ofIndex i) then (o.parts (.ofIndex i)).count m else 0 := by
      refine Nat.add_left_cancel_iff.mpr (Finset.sum_congr rfl fun i _ => ?_)
      by_cases hm : m ∈ o.parts (.ofIndex i)
      · have hlt := part_lt hi hm
        have hind := ih _ (by have := (NodeId.ofIndex i).index_lt; omega) (.ofIndex i) rfl
        simp only [← hind, UInt32.lt_iff_toNat_lt, UInt32.toNat_zero]
      · rw [List.count_eq_zero_of_not_mem hm, ite_self, ite_self]
    omega

/-! ### What is determined -/

/-- The counts and the chains hold what the axioms in force and the registered nodes call for, and
nothing else. -/
structure Accounted (calls : List Call) (o : Ontology) : Prop where
  counts : ∀ n, (o.negative n).toNat = (live calls n).length + ∑ i ∈ Finset.range UInt32.size,
    if 0 < o.negative (.ofIndex i) then (o.parts (.ofIndex i)).count n else 0
  proper : ∀ n, (o.rules n).Proper
  contradicts : ∀ n, (o.rules n).contradicts = true ↔ n = bottom
  supers : ∀ n, (o.rules n).supers.Perm (live calls n)
  partners : ∀ n e, e ∈ (o.rules n).partners ↔ 0 < o.negative e.conjunction ∧
    (o.expression? e.conjunction = some (.intersection n e.partner) ∨
      o.expression? e.conjunction = some (.intersection e.partner n))
  conjunctions : ∀ n, ((o.rules n).partners.map (·.conjunction)).Nodup
  existentials : ∀ n x, x ∈ (o.rules n).existentials ↔
    0 < o.negative x ∧ ∃ r, o.expression? x = some (.existential r n)
  existentials_nodup : ∀ n, (o.rules n).existentials.Nodup
  axioms : ∀ n d, d ∈ (o.rules n).axioms ↔ ∃ (i : Nat) (members : List NodeId),
    (liveDisjointness calls).reverse[i]? = some members ∧ n ∈ members ∧ d = .ofIndex i
  axioms_nodup : ∀ n, (o.rules n).axioms.Nodup

theorem mem_partners_iff (ho : o.Attached) (hr : o.Registered fun _ => 0) {e : Partner} :
    e ∈ (o.rules n).partners ↔ 0 < o.negative e.conjunction ∧
      (o.expression? e.conjunction = some (.intersection n e.partner) ∨
        o.expression? e.conjunction = some (.intersection e.partner n)) := by
  constructor
  · intro h
    refine ⟨UInt32.pos_iff_ne_zero.mpr fun hz => ?_, (ho.partners n e h).1⟩
    exact (hr.unlisted _ hz).partners n e h rfl
  · rintro ⟨hpos, he | he⟩
    · exact (hr.entered _ hpos).1 _ _ he
    · exact (ho.partners _ _ ((hr.entered _ hpos).1 _ _ he)).2

theorem mem_existentials_iff (ho : o.Attached) (hr : o.Registered fun _ => 0) :
    x ∈ (o.rules n).existentials ↔ 0 < o.negative x ∧ ∃ r, o.expression? x = some (.existential r n)
    := by
  constructor
  · intro h
    refine ⟨UInt32.pos_iff_ne_zero.mpr fun hz => ?_, ho.existentials n x h⟩
    exact (hr.unlisted _ hz).existentials n h
  · rintro ⟨hpos, r, he⟩
    exact (hr.entered _ hpos).2 r n he

theorem accounted_after (h : Counted calls) : Accounted calls (after calls) where
  counts n := by
    have hbal : (((after calls).negative n).toNat : Int) + 0 = (after calls).registrations n :=
      h.registered.balanced n
    have hlen : ((after calls).rules n).supers.length = (live calls n).length :=
      supers_perm_live.length_eq
    rw [registrations, hlen] at hbal
    omega
  proper := (attached_after calls).proper
  contradicts := (attached_after calls).contradicts
  supers _ := supers_perm_live
  partners _ _ := mem_partners_iff (attached_after calls) h.registered
  conjunctions _ := nodup_conjunctions (attached_after calls) (distinct_after calls)
  existentials _ _ := mem_existentials_iff (attached_after calls) h.registered
  existentials_nodup n := (distinct_after calls n .propagation).existentials
  axioms _ _ := mem_axioms_after
  axioms_nodup n := (distinct_after calls n .disjointness).axioms

/-- Histories that make the same nodes and leave the same axioms in force agree on every count and
every chain. -/
theorem same_of_live (h : Counted calls) (h' : Counted calls')
    (he : ∀ n, (after calls').expression? n = (after calls).expression? n)
    (hs : (liveSubclasses calls').Perm (liveSubclasses calls))
    (hd : liveDisjointness calls' = liveDisjointness calls) (n : NodeId) :
    (after calls').negative n = (after calls).negative n ∧
      ((after calls').rules n).Same ((after calls).rules n) := by
  have hlive : ∀ n, (live calls' n).Perm (live calls n) := fun n => (hs.filter _).map _
  have hparts : (after calls').parts = (after calls).parts := by
    funext n
    rw [parts, he, ← parts]
  have htold : (after calls').told = (after calls).told := by
    rw [told_after, told_after]
    exact funext fun n => (hlive n).length_eq
  have hnegative : ∀ n, (after calls').negative n = (after calls).negative n := by
    intro n
    rw [← UInt32.toNat_inj, negative_eq_load (interned_after _) h'.registered, hparts, htold,
      negative_eq_load (interned_after _) h.registered]
  have ha := accounted_after h
  have ha' := accounted_after h'
  refine ⟨hnegative n, RuleChain.same_of_entries (ha'.proper n) (ha.proper n) ?_ ?_ ?_ ?_ ?_⟩
  · rw [Bool.eq_iff_iff, ha'.contradicts, ha.contradicts]
  · exact (ha'.supers n).trans ((hlive n).trans (ha.supers n).symm)
  · rw [List.perm_ext_iff_of_nodup (.of_map _ (ha'.conjunctions n)) (.of_map _ (ha.conjunctions n))]
    intro e
    rw [ha'.partners, ha.partners, hnegative, he]
  · rw [List.perm_ext_iff_of_nodup (ha'.existentials_nodup n) (ha.existentials_nodup n)]
    intro x
    simp only [ha'.existentials, ha.existentials, hnegative, he]
  · rw [List.perm_ext_iff_of_nodup (ha'.axioms_nodup n) (ha.axioms_nodup n)]
    intro d
    rw [ha'.axioms, ha.axioms, hd]

theorem chains_from_axioms (h : Counted calls) :
    Accounted calls (after calls) ∧
      ∀ calls', Counted calls' →
        (∀ n, (after calls').expression? n = (after calls).expression? n) →
        (liveSubclasses calls').Perm (liveSubclasses calls) →
        liveDisjointness calls' = liveDisjointness calls →
        ∀ n, (after calls').negative n = (after calls).negative n ∧
          ((after calls').rules n).Same ((after calls).rules n) :=
  ⟨accounted_after h, fun _ h' he hs hd => same_of_live h h' he hs hd⟩

/-- ∃r.(A ⊓ B) ⊑ B, and A disjoint from B. -/
def shared : List Call :=
  [.addDisjointness [⟨2⟩, ⟨3⟩], .addSubclass ⟨5⟩ ⟨3⟩, .addExistential ⟨0⟩ ⟨4⟩,
    .addIntersection ⟨2⟩ ⟨3⟩, .addClass "B", .addClass "A", .addProperty "r"]

/-- The same after A ⊓ B ⊑ A has been told first, and taken back once and once too often. -/
def sharedAfterAll : List Call :=
  [.removeSubclass ⟨4⟩ ⟨2⟩, .addDisjointness [⟨2⟩, ⟨3⟩], .removeSubclass ⟨4⟩ ⟨2⟩,
    .addSubclass ⟨5⟩ ⟨3⟩, .addSubclass ⟨4⟩ ⟨2⟩, .addExistential ⟨0⟩ ⟨4⟩, .addIntersection ⟨2⟩ ⟨3⟩,
    .addClass "B", .addClass "A", .addProperty "r"]

theorem expression?_congr (h : o'.nodes.map (·.expression) = o.nodes.map (·.expression)) :
    o'.expression? n = o.expression? n := by
  simp only [expression?, node?, ← Array.getElem?_map, h]

theorem chains_from_axioms_shared :
    Accounted sharedAfterAll (after sharedAfterAll) ∧
      (after sharedAfterAll).negative ⟨4⟩ = (after shared).negative ⟨4⟩ ∧
      ((after sharedAfterAll).rules ⟨2⟩).Same ((after shared).rules ⟨2⟩) := by
  have hshared : Counted shared := counted_of_length (by decide)
  have hafterAll : Counted sharedAfterAll := counted_of_length (by decide)
  have hsame := (chains_from_axioms hshared).2 sharedAfterAll hafterAll
    (fun n => expression?_congr (by decide +kernel)) (by decide +kernel) (by decide +kernel)
  exact ⟨(chains_from_axioms hafterAll).1, (hsame ⟨4⟩).1, (hsame ⟨2⟩).2⟩

/-- The conjunction is still registered once, for the existential. -/
example : (after sharedAfterAll).negative ⟨4⟩ = 1 ∧
    ((after sharedAfterAll).rules ⟨2⟩).partners = [⟨⟨3⟩, ⟨4⟩⟩] := by decide +kernel

end Ontology

end Subsumption
