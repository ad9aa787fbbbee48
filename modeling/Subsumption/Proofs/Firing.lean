import Subsumption.Proofs.Delivery
import Subsumption.Proofs.Derivation
import Subsumption.Proofs.Sources

/-! What a context records and sends out when it looks at a conclusion. -/
namespace Subsumption

namespace Deduction

variable {o : Ontology} {f : Facts} {x n root : NodeId} {l : Conclusion}

/-- What the rules of a node derive where the facts `f` hold, by the entries of its chain. -/
inductive Fires (o : Ontology) (f : Facts) (x : NodeId) : Conclusion → Prop
  | contradiction (h : (o.rules x).contradicts = true) : Fires o f x .contradiction
  | told {s} (h : s ∈ (o.rules x).supers) : Fires o f x (.plain s)
  | conjunction {y m} (h : ⟨y, m⟩ ∈ (o.rules x).partners) (hy : y ∈ f.subsumers) :
    Fires o f x (.composed m)
  | propagation {e s g} (h : e ∈ (o.rules x).existentials)
    (he : o.expression? e = some (.existential s g)) : Fires o f x (.propagation s e)
  | disjoint {d} (h : d ∈ (o.rules x).axioms) : Fires o f x (.disjointSubsumer d x)

theorem mem_propagationOf {e : NodeId} : l ∈ propagationOf o e ↔
    ∃ s g, o.expression? e = some (.existential s g) ∧ l = .propagation s e := by
  unfold propagationOf
  split
  · rename_i s g he
    simp [he]
  · rename_i h
    simp only [List.not_mem_nil, false_iff]
    rintro ⟨s, g, he, _⟩
    exact h s g he

theorem fires_of_rule (hc : (o.rules x).Proper) {r : Rule} (hr : r ∈ (o.rules x).rules)
    (hl : l ∈ ruleConclusions o f x r) : Fires o f x l := by
  have hrule := RuleChain.rule_eq _ hc.distinct hr
  cases r with
  | contradiction =>
    rw [List.mem_singleton.mp hl]
    refine .contradiction ?_
    simp [RuleChain.contradicts, show (o.rules x).find? .bottom = some .contradiction from
      (RuleChain.mem_rules_iff _ hc.distinct).mp hr]
  | told supers =>
    obtain ⟨s, hs, rfl⟩ := List.mem_map.mp hl
    exact .told (by rw [RuleChain.supers, show (o.rules x).rule .told = _ from hrule]; exact hs)
  | conjunction partners =>
    obtain ⟨⟨y, m⟩, he, rfl⟩ := List.mem_map.mp hl
    obtain ⟨he, hy⟩ := List.mem_filter.mp he
    refine .conjunction ?_ (by simpa [Facts.hasSubsumer] using hy)
    rw [RuleChain.partners, show (o.rules x).rule .conjunction = _ from hrule]
    exact he
  | propagation existentials =>
    obtain ⟨e, he, hl⟩ := List.mem_flatMap.mp hl
    obtain ⟨s, g, hx, rfl⟩ := mem_propagationOf.mp hl
    refine .propagation ?_ hx
    rw [RuleChain.existentials, show (o.rules x).rule .propagation = _ from hrule]
    exact he
  | disjointness axioms =>
    obtain ⟨d, hd, rfl⟩ := List.mem_map.mp hl
    refine .disjoint ?_
    rw [RuleChain.axioms, show (o.rules x).rule .disjointness = _ from hrule]
    exact hd

theorem rule_of_fires (hc : (o.rules x).Proper) (h : Fires o f x l) :
    ∃ r ∈ (o.rules x).rules, l ∈ ruleConclusions o f x r := by
  -- A rule with an entry is in the chain; that there is an entry tells its kind apart from empty.
  have hmem : ∀ k r, (o.rules x).rule k = r → r ≠ .empty k → r ∈ (o.rules x).rules := by
    rintro k r rfl hne
    exact RuleChain.rule_mem _ hc.distinct hne
  cases h with
  | contradiction h =>
    obtain ⟨r, hr⟩ := Option.isSome_iff_exists.mp h
    obtain ⟨hm, hk⟩ := (RuleChain.find?_eq_some _ hc.distinct).mp hr
    refine ⟨r, hm, ?_⟩
    cases r with
    | contradiction => exact List.mem_singleton.mpr rfl
    | _ => cases hk
  | @told s h =>
    rw [RuleChain.supers] at h
    generalize hr : (o.rules x).rule .told = r at h
    have hne : r ≠ .empty .told := by rintro rfl; cases h
    refine ⟨r, hmem _ r hr hne, ?_⟩
    cases r with
    | told supers => exact List.mem_map_of_mem h
    | _ => cases h
  | @conjunction y m h hy =>
    rw [RuleChain.partners] at h
    generalize hr : (o.rules x).rule .conjunction = r at h
    have hne : r ≠ .empty .conjunction := by rintro rfl; cases h
    refine ⟨r, hmem _ r hr hne, ?_⟩
    cases r with
    | conjunction partners =>
      exact List.mem_map.mpr ⟨⟨y, m⟩,
        List.mem_filter.mpr ⟨h, by simpa [Facts.hasSubsumer] using hy⟩, rfl⟩
    | _ => cases h
  | @propagation e s g h he =>
    rw [RuleChain.existentials] at h
    generalize hr : (o.rules x).rule .propagation = r at h
    have hne : r ≠ .empty .propagation := by rintro rfl; cases h
    refine ⟨r, hmem _ r hr hne, ?_⟩
    cases r with
    | propagation existentials =>
      exact List.mem_flatMap.mpr ⟨e, h, mem_propagationOf.mpr ⟨s, g, he, rfl⟩⟩
    | _ => cases h
  | @disjoint d h =>
    rw [RuleChain.axioms] at h
    generalize hr : (o.rules x).rule .disjointness = r at h
    have hne : r ≠ .empty .disjointness := by rintro rfl; cases h
    refine ⟨r, hmem _ r hr hne, ?_⟩
    cases r with
    | disjointness axioms => exact List.mem_map.mpr ⟨d, h, rfl⟩
    | _ => cases h

/-! ### Mail -/

theorem mem_mail {es : List Effect} : l ∈ es.flatMap (·.mail root n) ↔
    (n = root ∧ .own l ∈ es) ∨ ∃ ks, .send n ks ∈ es ∧ l ∈ ks := by
  rw [List.mem_flatMap]
  constructor
  · rintro ⟨e, he, hl⟩
    cases e with
    | own k =>
      simp only [Effect.mail] at hl
      split at hl
      · rw [List.mem_singleton.mp hl]
        exact Or.inl ⟨‹_›, he⟩
      · cases hl
    | send a ks =>
      simp only [Effect.mail] at hl
      split at hl
      · rename_i ha
        subst ha
        exact Or.inr ⟨ks, he, hl⟩
      · cases hl
    | decomposed | applied | refuted => cases hl
  · rintro (⟨rfl, he⟩ | ⟨ks, he, hl⟩)
    · exact ⟨_, he, by simp [Effect.mail]⟩
    · exact ⟨_, he, by simpa [Effect.mail] using hl⟩

theorem mail_decompose :
    l ∈ (decompose o root x).flatMap (·.mail root n) ↔ Ontology.Parts o root x n l := by
  rw [mem_mail]
  unfold decompose
  constructor
  · split
    · rename_i a b he
      rintro (⟨rfl, h⟩ | ⟨ks, h, hl⟩)
      · simp only [List.mem_cons, Effect.own.injEq, reduceCtorEq, List.not_mem_nil,
          or_false] at h
        rcases h with rfl | rfl
        · exact .first he
        · exact .second he
      · simp at h
    · rename_i p g he
      rintro (⟨rfl, h⟩ | ⟨ks, h, hl⟩)
      · simp only [List.mem_cons, Effect.own.injEq, reduceCtorEq, List.not_mem_nil,
          or_false, false_or] at h
        subst h
        exact .forward he
      · simp only [List.mem_cons, Effect.send.injEq, reduceCtorEq, List.not_mem_nil,
          or_false] at h
        obtain ⟨rfl, rfl⟩ := h
        rw [List.mem_singleton.mp hl]
        exact .backward he
    · simp
  · intro h
    cases h with
    | first he | second he | forward he => simp [he]
    | backward he => simp [he]

theorem mail_compose (hc : (o.rules x).Proper) :
    l ∈ (compose o f x).flatMap (·.mail root n) ↔ n = root ∧ Fires o f x l := by
  rw [mem_mail]
  have hown : Effect.own l ∈ compose o f x ↔
      ∃ r ∈ (o.rules x).rules, l ∈ ruleConclusions o f x r := by
    simp [compose, ruleEffects]
  have hsend : ∀ ks, Effect.send n ks ∉ compose o f x := by
    intro ks
    simp [compose, ruleEffects]
  rw [hown]
  constructor
  · rintro (⟨rfl, r, hr, hl⟩ | ⟨ks, h, _⟩)
    · exact ⟨rfl, fires_of_rule hc hr hl⟩
    · exact absurd h (hsend ks)
  · rintro ⟨rfl, h⟩
    exact Or.inl ⟨rfl, rule_of_fires hc h⟩

end Deduction

namespace Facts

variable {f : Facts} {d : DisjointnessId}

theorem nodup_insertDisjoint (hf : f.disjoint.Nodup) (x : NodeId) :
    (f.insertDisjoint d x).disjoint.Nodup := by
  unfold insertDisjoint
  split
  · exact hf
  · rename_i h
    exact List.concat_eq_append ▸ hf.concat (by simpa using h)

theorem mem_disjointMembers {x : NodeId} : x ∈ f.disjointMembers d ↔ (d, x) ∈ f.disjoint := by
  simp [disjointMembers]

/-- What is listed with one key is not listed twice. -/
theorem nodup_at {κ α : Type} [DecidableEq κ] {l : List (κ × α)} (hl : l.Nodup) (k : κ) :
    ((l.filter (·.1 == k)).map (·.2)).Nodup := by
  refine (hl.filter _).map_on ?_
  rintro ⟨a, x⟩ ha ⟨b, y⟩ hb he
  have ha' : a = k := by simpa using (List.mem_filter.mp ha).2
  have hb' : b = k := by simpa using (List.mem_filter.mp hb).2
  rw [ha', hb', show x = y from he]

/-- Without repetitions, members are counted right. -/
theorem clashes_iff (hf : f.disjoint.Nodup) : f.clashes d = true ↔
    ∃ x y, x ≠ y ∧ (d, x) ∈ f.disjoint ∧ (d, y) ∈ f.disjoint := by
  have hnodup : (f.disjointMembers d).Nodup := nodup_at hf d
  simp only [← mem_disjointMembers]
  unfold clashes
  generalize f.disjointMembers d = ms at hnodup
  constructor
  · intro h
    match ms, hnodup, h with
    | x :: y :: rest, hnodup, _ =>
      have hne : x ≠ y := by
        rintro rfl
        simp at hnodup
      exact ⟨x, y, hne, by simp, by simp⟩
    | [_], _, h => simp at h
    | [], _, h => simp at h
  · rintro ⟨x, y, hne, hx, hy⟩
    match ms, hx, hy with
    | [z], hx, hy =>
      have hxy : x = y := (List.mem_singleton.mp hx).trans (List.mem_singleton.mp hy).symm
      exact absurd hxy hne
    | _ :: _ :: _, _, _ => simp

end Facts

namespace Context

open Deduction

variable {o : Ontology} {c : Context} {order : List PropertyId} {k l : Conclusion}
  {n x s e : NodeId} {r : PropertyId} {d : DisjointnessId}

/-- Whether a conclusion has been recorded, of whatever origin. -/
def Has (c : Context) : Conclusion → Prop
  | .subsumer x _ => x ∈ c.facts.subsumers
  | .forwardLink r t => (r, t) ∈ c.facts.forward
  | .backwardLink s r => (r, s) ∈ c.facts.backward
  | .propagation r e => (r, e) ∈ c.facts.propagations
  | .contradiction => c.inconsistent = true
  | .disjointSubsumer d x => (d, x) ∈ c.facts.disjoint

/-- Inconsistent contexts take no notice of anything but links that lead to them. -/
def Accepts (c : Context) (k : Conclusion) : Prop :=
  c.inconsistent = false ∨ ∃ s r, k = .backwardLink s r

theorem has_withOrigin {g : Origin} : c.Has (k.withOrigin g) ↔ c.Has k := by
  cases k <;> rfl

/-- A conclusion that is accepted is recorded, and nothing else. -/
theorem has_derive : (c.derive o order k).1.Has l ↔
    c.Has l ∨ (c.Accepts k ∧ l.withOrigin .plain = k.withOrigin .plain) := by
  cases hc : c.inconsistent with
  | true =>
    have ha : c.Accepts k ↔ ∃ s r, k = .backwardLink s r := by simp [Accepts, hc]
    rw [ha]
    cases k with
    | backwardLink s r =>
      simp only [derive, hc, if_true, deriveInconsistent, Facts.insertBackward?, Facts.hasBackward]
      by_cases hr : (r, s) ∈ c.facts.backward
      · cases l <;> simp [Has, hr, Conclusion.withOrigin, hc]
        rintro rfl rfl
        exact hr
      · cases l <;> simp [Has, hr, Conclusion.withOrigin, hc, and_comm]
    | _ => simp [derive, hc, deriveInconsistent]
  | false =>
    have ha : c.Accepts k := Or.inl hc
    simp only [derive, hc, Bool.false_eq_true, if_false, ha, true_and]
    cases k with
    | subsumer x g =>
      simp only [deriveConsistent, Facts.insertSubsumer?, Facts.hasSubsumer]
      by_cases hx : x ∈ c.facts.subsumers
      · cases l <;> simp [Has, hx, Conclusion.withOrigin]
        rintro rfl
        exact hx
      · cases l <;> simp [Has, hx, Conclusion.withOrigin]
    | forwardLink r t =>
      simp only [deriveConsistent, Facts.insertForward]
      by_cases hx : (r, t) ∈ c.facts.forward
      · cases l <;> simp [Has, hx, Conclusion.withOrigin]
        rintro rfl rfl
        exact hx
      · cases l <;> simp [Has, hx, Conclusion.withOrigin]
    | backwardLink s r =>
      simp only [deriveConsistent, Facts.insertBackward?, Facts.hasBackward]
      by_cases hr : (r, s) ∈ c.facts.backward
      · cases l <;> simp [Has, hr, Conclusion.withOrigin]
        rintro rfl rfl
        exact hr
      · cases l <;> simp [Has, hr, Conclusion.withOrigin, and_comm]
    | propagation r e =>
      simp only [deriveConsistent, Facts.insertPropagation?, Facts.hasPropagation]
      by_cases hr : (r, e) ∈ c.facts.propagations
      · cases l <;> simp [Has, hr, Conclusion.withOrigin]
        rintro rfl rfl
        exact hr
      · cases l <;> simp [Has, hr, Conclusion.withOrigin]
    | contradiction => cases l <;> simp [Has, deriveConsistent, Conclusion.withOrigin]
    | disjointSubsumer d x =>
      simp only [deriveConsistent, Facts.insertDisjoint]
      by_cases hx : (d, x) ∈ c.facts.disjoint
      · cases l <;> simp [Has, hx, Conclusion.withOrigin]
        rintro rfl rfl
        exact hx
      · cases l <;> simp [Has, hx, Conclusion.withOrigin]

theorem pending_derive : (c.derive o order k).1.pending = c.pending := by
  unfold derive deriveInconsistent deriveConsistent
  split <;> split <;> (try split) <;> rfl

theorem mem_carried {f : Facts} :
    e ∈ carried o f r ↔ ∃ r' ∈ o.supers r, (r', e) ∈ f.propagations := by
  simp [carried, Facts.propagated]

theorem mem_reachedSources {f : Facts} :
    s ∈ reachedSources o f r ↔ ∃ r' ∈ o.subs r, (r', s) ∈ f.backward := by
  simp [reachedSources, Facts.backwardSources]

theorem nodup_derive (hd : c.facts.disjoint.Nodup) :
    (c.derive o order k).1.facts.disjoint.Nodup := by
  unfold derive deriveInconsistent deriveConsistent
  split
  · split
    · rename_i s r
      simp only [Facts.insertBackward?]
      split
      · rename_i h
        split at h
        · cases h
        · cases h
          exact hd
      · exact hd
    · exact hd
  · cases k with
    | disjointSubsumer d x => exact Facts.nodup_insertDisjoint hd x
    | forwardLink r t =>
      simp only [Facts.insertForward]
      split <;> exact hd
    | contradiction => exact hd
    | subsumer | backwardLink | propagation =>
      simp only [Facts.insertSubsumer?, Facts.insertBackward?, Facts.insertPropagation?]
      split
      · rename_i h
        split at h
        · cases h
        · cases h
          exact hd
      · exact hd

/-! ### What is sent out -/

/-- What looking at a conclusion sends to the context of `n`. -/
def Sends (o : Ontology) (c : Context) (order : List PropertyId) (k : Conclusion) (n : NodeId)
    (l : Conclusion) : Prop :=
  l ∈ (c.derive o order k).2.flatMap (·.mail c.root n)

theorem sends_subsumer (hp : (o.rules x).Proper) (hc : c.inconsistent = false) {g : Origin} :
    Sends o c order (.subsumer x g) n l ↔ x ∉ c.facts.subsumers ∧
      ((g = .plain ∧ o.Parts c.root x n l) ∨
        (n = c.root ∧ Fires o (c.derive o order (.subsumer x g)).1.facts x l)) := by
  simp only [Sends, derive, hc, Bool.false_eq_true, if_false, deriveConsistent,
    Facts.insertSubsumer?, Facts.hasSubsumer]
  by_cases hx : x ∈ c.facts.subsumers
  · simp [hx]
  · simp only [hx, List.contains_iff_mem, if_false, List.flatMap_append, List.mem_append,
      not_false_eq_true, true_and, mail_compose hp]
    cases g with
    | plain => simp only [true_and, mail_decompose]
    | composed => simp

theorem sends_forwardLink {t : NodeId} : ¬ Sends o c order (.forwardLink r t) n l := by
  cases hc : c.inconsistent <;> simp [Sends, derive, hc, deriveConsistent, deriveInconsistent]

theorem sends_backwardLink_inconsistent (hc : c.inconsistent = true) :
    Sends o c order (.backwardLink s r) n l ↔
      (r, s) ∉ c.facts.backward ∧ n = s ∧ l = .contradiction := by
  simp only [Sends, derive, hc, if_true, deriveInconsistent, Facts.insertBackward?,
    Facts.hasBackward]
  by_cases hr : (r, s) ∈ c.facts.backward
  · simp [hr]
  · simp [hr, Effect.mail, eq_comm]

theorem sends_backwardLink (hc : c.inconsistent = false) :
    Sends o c order (.backwardLink s r) n l ↔ (r, s) ∉ c.facts.backward ∧ n = s ∧
      ∃ r' ∈ o.supers r, ∃ e, (r', e) ∈ c.facts.propagations ∧ l = .composed e := by
  simp only [Sends, derive, hc, Bool.false_eq_true, if_false, deriveConsistent,
    Facts.insertBackward?, Facts.hasBackward]
  by_cases hr : (r, s) ∈ c.facts.backward
  · simp [hr]
  · have hm : ∀ e, e ∈ carried o { c.facts with backward := c.facts.backward ++ [(r, s)] } r ↔
        ∃ r' ∈ o.supers r, (r', e) ∈ c.facts.propagations := fun e => mem_carried
    have hes : (∃ r' ∈ o.supers r, ∃ e, (r', e) ∈ c.facts.propagations ∧ l = .composed e) ↔
        ∃ e ∈ carried o { c.facts with backward := c.facts.backward ++ [(r, s)] } r,
          l = .composed e := by
      simp only [hm]
      constructor
      · rintro ⟨r', hs, e, he, hl⟩
        exact ⟨e, ⟨r', hs, he⟩, hl⟩
      · rintro ⟨e, ⟨r', hs, he⟩, hl⟩
        exact ⟨r', hs, e, he, hl⟩
    rw [mem_mail, hes]
    simp only [hr, List.contains_iff_mem, if_false]
    generalize carried o _ r = es
    cases es with
    | nil => simp
    | cons e es => simp [eq_comm, or_and_right, exists_or]

theorem sends_propagation (hc : c.inconsistent = false) :
    Sends o c order (.propagation r e) n l ↔ (r, e) ∉ c.facts.propagations ∧ l = .composed e ∧
      ∃ r' ∈ o.subs r, (r', n) ∈ c.facts.backward := by
  simp only [Sends, derive, hc, Bool.false_eq_true, if_false, deriveConsistent,
    Facts.insertPropagation?, Facts.hasPropagation]
  by_cases hr : (r, e) ∈ c.facts.propagations
  · simp [hr]
  · rw [mem_mail]
    simp [hr, mem_reachedSources, and_comm]

theorem sends_contradiction (hc : c.inconsistent = false) :
    Sends o c order .contradiction n l ↔ l = .contradiction ∧ ∃ r, (r, n) ∈ c.facts.backward := by
  rw [Sends, mem_mail]
  simp [derive, hc, deriveConsistent, and_comm]

theorem sends_disjointSubsumer (hc : c.inconsistent = false) :
    Sends o c order (.disjointSubsumer d x) n l ↔ n = c.root ∧ l = .contradiction ∧
      ((c.facts.insertDisjoint d x).clashes d = true ∨ isSelfDisjoint o d x = true) := by
  rw [Sends, mem_mail]
  simp only [derive, hc, Bool.false_eq_true, if_false, deriveConsistent, ← Bool.or_eq_true]
  split <;> simp_all

theorem facts_disjointSubsumer (hc : c.inconsistent = false) :
    (c.derive o order (.disjointSubsumer d x)).1.facts = c.facts.insertDisjoint d x := by
  simp [derive, hc, deriveConsistent]

theorem sends_inconsistent (hc : c.inconsistent = true) (hk : ∀ s r, k ≠ .backwardLink s r) :
    ¬ Sends o c order k n l := by
  cases k with
  | backwardLink s r => exact absurd rfl (hk s r)
  | _ => simp [Sends, derive, hc, deriveInconsistent]

/-! ### One inference at a time -/

theorem has_derive_of_has (h : c.Has l) : (c.derive o order k).1.Has l := has_derive.mpr (Or.inl h)

theorem has_derive_self (h : c.Accepts k) : (c.derive o order k).1.Has k :=
  has_derive.mpr (Or.inr ⟨h, rfl⟩)

theorem infers_of_fires (ho : o.Attached) (h : Fires o c.facts x l) (hx : c.Has (.plain x)) :
    ∃ ps, o.Infers c.root ps c.root l ∧ ∀ p ∈ ps, c.Has p := by
  cases h with
  | contradiction h =>
    rw [(ho.contradicts x).mp h] at hx
    exact ⟨_, .bottom, Ontology.one_premise.mpr hx⟩
  | told h => exact ⟨_, .told h, Ontology.one_premise.mpr hx⟩
  | conjunction h hy => exact ⟨_, .conjunction h, Ontology.two_premises.mpr ⟨hx, hy⟩⟩
  | @propagation e s g h he =>
    obtain ⟨p, hp⟩ := ho.existentials x e h
    cases he.symm.trans hp
    exact ⟨_, .propagation h he, Ontology.one_premise.mpr hx⟩
  | disjoint h => exact ⟨_, .disjoint h, Ontology.one_premise.mpr hx⟩

/-- What is sent out follows by one inference from what is recorded then. -/
theorem infers_of_sends (ho : o.Attached) (hs : o.Closed) (hd : c.facts.disjoint.Nodup)
    (h : Sends o c order k n l) :
    ∃ ps, o.Infers c.root ps n l ∧ ∀ p ∈ ps, (c.derive o order k).1.Has p := by
  cases hc : c.inconsistent with
  | true =>
    by_cases hk : ∃ s r, k = .backwardLink s r
    · obtain ⟨s, r, rfl⟩ := hk
      obtain ⟨_, rfl, rfl⟩ := (sends_backwardLink_inconsistent hc).mp h
      exact ⟨_, .linked, Ontology.two_premises.mpr
        ⟨has_derive_self (Or.inr ⟨n, r, rfl⟩), has_derive_of_has hc⟩⟩
    · exact absurd h (sends_inconsistent hc fun s r he => hk ⟨s, r, he⟩)
  | false =>
    have hself : (c.derive o order k).1.Has k := has_derive_self (Or.inl hc)
    cases k with
    | subsumer x g =>
      obtain ⟨_, ⟨rfl, hpart⟩ | ⟨rfl, hfires⟩⟩ := (sends_subsumer (ho.proper x) hc).mp h
      · exact ⟨_, .part hpart, Ontology.one_premise.mpr hself⟩
      · have := infers_of_fires ho hfires hself
        rwa [show (c.derive o order (.subsumer x g)).1.root = c.root from
          Workspace.root_derive c o] at this
    | forwardLink r t => exact absurd h sends_forwardLink
    | backwardLink s r =>
      obtain ⟨_, rfl, r', hr, e, he, rfl⟩ := (sends_backwardLink hc).mp h
      exact ⟨_, .carried hr, Ontology.two_premises.mpr
        ⟨hself, has_derive_of_has (l := .propagation r' e) he⟩⟩
    | propagation r e =>
      obtain ⟨_, rfl, r', hr, hl⟩ := (sends_propagation hc).mp h
      exact ⟨_, .carried (hs.mem_subs.mp hr), Ontology.two_premises.mpr
        ⟨has_derive_of_has (l := .backwardLink n r') hl, hself⟩⟩
    | contradiction =>
      obtain ⟨rfl, r, hl⟩ := (sends_contradiction hc).mp h
      exact ⟨_, .linked, Ontology.two_premises.mpr
        ⟨has_derive_of_has (l := .backwardLink n r) hl, hself⟩⟩
    | disjointSubsumer d x =>
      obtain ⟨rfl, rfl, hcl | ht⟩ := (sends_disjointSubsumer hc).mp h
      · obtain ⟨y, z, hne, hy, hz⟩ := (Facts.clashes_iff (Facts.nodup_insertDisjoint hd x)).mp hcl
        have hfacts : (c.derive o order (.disjointSubsumer d x)).1.facts = _ :=
          facts_disjointSubsumer hc
        refine ⟨_, .clash (d := d) hne, Ontology.two_premises.mpr ⟨?_, ?_⟩⟩
        · rwa [← hfacts] at hy
        · rwa [← hfacts] at hz
      · exact ⟨_, .twice ht, Ontology.one_premise.mpr hself⟩

/-! A fact that was not there before looking at `k` is the one that `k` states. -/

theorem subsumer_of_new {y : NodeId} (h : (c.derive o order k).1.Has (.plain y))
    (hold : ¬ c.Has (.plain y)) : c.inconsistent = false ∧ ∃ g, k = .subsumer y g := by
  obtain ⟨ha, he⟩ := (has_derive.mp h).resolve_left hold
  cases k with
  | subsumer z g =>
    cases he
    exact ⟨ha.resolve_right (by simp), g, rfl⟩
  | _ => cases he

theorem eq_of_new (hl : ∀ x g, l ≠ .subsumer x g) (h : (c.derive o order k).1.Has l)
    (hold : ¬ c.Has l) : k = l ∧ c.Accepts l := by
  obtain ⟨ha, he⟩ := (has_derive.mp h).resolve_left hold
  have hkl : k = l := by
    cases l with
    | subsumer x g => exact absurd rfl (hl x g)
    | _ =>
      cases k with
      | subsumer => cases he
      | _ => exact he.symm
  exact ⟨hkl, hkl ▸ ha⟩

theorem sends_of_fires (ho : o.Attached) {y : NodeId}
    (h : (c.derive o order k).1.Has (.plain y)) (hold : ¬ c.Has (.plain y))
    (hf : ∀ f : Facts, (∀ z, (c.derive o order k).1.Has (.plain z) → z ∈ f.subsumers) →
      Fires o f y l) : Sends o c order k c.root l := by
  obtain ⟨hc, g, rfl⟩ := subsumer_of_new h hold
  exact (sends_subsumer (ho.proper y) hc).mpr ⟨hold, Or.inr ⟨rfl, hf _ fun _ hz => hz⟩⟩

/-- A link and a propagation meet, whichever of them comes second. A link to an inconsistent context
carries a contradiction instead. -/
theorem sends_of_carried (hs : o.Closed) {e : NodeId} {r' : PropertyId} (hr : r' ∈ o.supers r)
    (hl : (c.derive o order k).1.Has (.backwardLink n r))
    (hp : (c.derive o order k).1.Has (.propagation r' e))
    (hn : ¬ (c.Has (.backwardLink n r) ∧ c.Has (.propagation r' e))) :
    Sends o c order k n (.composed e) ∨ Sends o c order k n .contradiction := by
  by_cases hold : c.Has (.backwardLink n r)
  · have hnew : ¬ c.Has (.propagation r' e) := fun h => hn ⟨hold, h⟩
    obtain ⟨rfl, ha⟩ := eq_of_new (by simp) hp hnew
    have hc : c.inconsistent = false := ha.resolve_right (by simp)
    exact Or.inl ((sends_propagation hc).mpr ⟨hnew, rfl, r, hs.mem_subs.mpr hr, hold⟩)
  · obtain ⟨rfl, _⟩ := eq_of_new (by simp) hl hold
    cases hc : c.inconsistent with
    | true => exact Or.inr ((sends_backwardLink_inconsistent hc).mpr ⟨hold, rfl, rfl⟩)
    | false =>
      have hp : c.Has (.propagation r' e) :=
        (has_derive.mp hp).resolve_right fun h => by cases h.2
      exact Or.inl ((sends_backwardLink hc).mpr ⟨hold, rfl, r', hr, e, hp, rfl⟩)

/-- Two members of one axiom are found to clash, whichever of them comes second. -/
theorem sends_of_clash (hd : c.facts.disjoint.Nodup) {y : NodeId} (hne : x ≠ y)
    (hx : (c.derive o order k).1.Has (.disjointSubsumer d x))
    (hy : (c.derive o order k).1.Has (.disjointSubsumer d y))
    (hn : ¬ (c.Has (.disjointSubsumer d x) ∧ c.Has (.disjointSubsumer d y))) :
    Sends o c order k c.root .contradiction := by
  obtain ⟨z, rfl, ha⟩ : ∃ z, k = .disjointSubsumer d z ∧ c.Accepts (.disjointSubsumer d z) := by
    by_cases hold : c.Has (.disjointSubsumer d x)
    · exact ⟨y, eq_of_new (by simp) hy fun h => hn ⟨hold, h⟩⟩
    · exact ⟨x, eq_of_new (by simp) hx hold⟩
  have hc : c.inconsistent = false := ha.resolve_right (by simp)
  have hfacts : (c.derive o order (.disjointSubsumer d z)).1.facts = _ :=
    facts_disjointSubsumer hc
  refine (sends_disjointSubsumer hc).mpr ⟨rfl, rfl, Or.inl ?_⟩
  refine (Facts.clashes_iff (Facts.nodup_insertDisjoint hd z)).mpr ⟨x, y, hne, ?_, ?_⟩
  · exact hfacts ▸ hx
  · exact hfacts ▸ hy

/-- A link meets a contradiction, whichever of them comes second. -/
theorem sends_of_linked (hl : (c.derive o order k).1.Has (.backwardLink n r))
    (hcon : (c.derive o order k).1.Has .contradiction)
    (hn : ¬ (c.Has (.backwardLink n r) ∧ c.Has .contradiction)) :
    Sends o c order k n .contradiction := by
  by_cases hold : c.Has (.backwardLink n r)
  · obtain ⟨rfl, ha⟩ := eq_of_new (by simp) hcon fun h => hn ⟨hold, h⟩
    have hc : c.inconsistent = false := ha.resolve_right (by simp)
    exact (sends_contradiction hc).mpr ⟨rfl, r, hold⟩
  · obtain ⟨rfl, _⟩ := eq_of_new (by simp) hl hold
    have hc : c.inconsistent = true := (has_derive.mp hcon).resolve_right fun h => by cases h.2
    exact (sends_backwardLink_inconsistent hc).mpr ⟨hold, rfl, rfl⟩

/-- Every inference that uses the new fact is made, except that inconsistent contexts send a
contradiction instead and composed subsumers are not taken apart. -/
theorem sends_of_infers (ho : o.Attached) (hs : o.Closed) (hd : c.facts.disjoint.Nodup)
    {ps : List Conclusion} (hi : o.Infers c.root ps n l)
    (hp : ∀ p ∈ ps, (c.derive o order k).1.Has p) (hn : ¬ ∀ p ∈ ps, c.Has p) :
    Sends o c order k n l ∨ Sends o c order k n .contradiction ∨
      ∃ x, k = .composed x ∧ c.inconsistent = false ∧ o.Parts c.root x n l := by
  cases hi with
  | self | top => simp at hn
  | told h =>
    rw [Ontology.one_premise] at hp hn
    exact Or.inl (sends_of_fires ho hp hn fun _ _ => .told h)
  | @part x _ _ h =>
    rw [Ontology.one_premise] at hp hn
    obtain ⟨hc, g, rfl⟩ := subsumer_of_new hp hn
    cases g with
    | plain => exact Or.inl ((sends_subsumer (ho.proper x) hc).mpr ⟨hn, Or.inl ⟨rfl, h⟩⟩)
    | composed => exact Or.inr (Or.inr ⟨x, rfl, hc, h⟩)
  | @conjunction x y m h =>
    rw [Ontology.two_premises] at hp hn
    by_cases hx : c.Has (.plain x)
    · have hy : ¬ c.Has (.plain y) := fun hy => hn ⟨hx, hy⟩
      exact Or.inl (sends_of_fires ho hp.2 hy fun f hf =>
        .conjunction (ho.partners x _ h).2 (hf x hp.1))
    · exact Or.inl (sends_of_fires ho hp.1 hx fun f hf => .conjunction h (hf y hp.2))
  | propagation h he =>
    rw [Ontology.one_premise] at hp hn
    exact Or.inl (sends_of_fires ho hp hn fun _ _ => .propagation h he)
  | disjoint h =>
    rw [Ontology.one_premise] at hp hn
    exact Or.inl (sends_of_fires ho hp hn fun _ _ => .disjoint h)
  | bottom =>
    rw [Ontology.one_premise] at hp hn
    exact Or.inl (sends_of_fires ho hp hn fun _ _ => .contradiction ((ho.contradicts _).mpr rfl))
  | carried h =>
    rw [Ontology.two_premises] at hp hn
    exact (sends_of_carried hs h hp.1 hp.2 hn).imp_right Or.inl
  | clash hne =>
    rw [Ontology.two_premises] at hp hn
    exact Or.inl (sends_of_clash hd hne hp.1 hp.2 hn)
  | twice ht =>
    rw [Ontology.one_premise] at hp hn
    obtain ⟨rfl, ha⟩ := eq_of_new (by simp) hp hn
    have hc : c.inconsistent = false := ha.resolve_right (by simp)
    exact Or.inl ((sends_disjointSubsumer hc).mpr ⟨rfl, rfl, Or.inr ht⟩)
  | linked =>
    rw [Ontology.two_premises] at hp hn
    exact Or.inl (sends_of_linked hp.1 hp.2 hn)

end Context

end Subsumption
