import Subsumption.Proofs.Carrying
import Subsumption.Proofs.Freezing

/-! Going on from contexts that have found out all there is about their roots. It does not matter
whether the contexts that have led to these findings are still there. -/
namespace Subsumption

namespace Context

variable {P : NodeId → Prop} {c c' : Context} {k : Conclusion}

theorem LinksFrom.has_of (h : LinksFrom P c c') (hk : c'.Has k) :
    c.Has k ∨ ∃ s r, k = .backwardLink s r ∧ P s := by
  obtain ⟨links, hf, hl⟩ := h.facts
  cases k with
  | contradiction => exact Or.inl (h.inconsistent.symm.trans hk)
  | backwardLink s r =>
    simp only [Has, hf] at hk ⊢
    exact (List.mem_append.mp hk).imp_right fun hm => ⟨s, r, rfl, hl _ hm⟩
  | _ => exact Or.inl (by simpa only [Has, hf] using hk)

end Context

namespace Board

variable {o : Ontology} {b b' b₀ b₁ : Board} {c c' : Context} {k : Conclusion} {n root x : NodeId}
  {ps : List Conclusion} {kept : List NodeId}

theorem Exact.of_same (h : Exact o n c) (hi : c'.inconsistent = c.inconsistent)
    (hs : c'.facts.subsumers = c.facts.subsumers) : Exact o n c' := by
  refine ⟨hi ▸ h.inconsistent, ?_⟩
  rw [hi, hs]
  exact h.subsumers

theorem Exact.linksAdded (h : Exact o n c) (hl : c.LinksAdded c') : Exact o n c' := by
  obtain ⟨_, hi, links, hf⟩ := hl
  exact h.of_same hi (by rw [hf])

/-! ### Reasons -/

/-- There are reasons for the conclusion: it is true according to the rules, and if it is a
propagation or was composed, then what it comes from is recorded. -/
structure Justified (o : Ontology) (b : Board) (n : NodeId) (k : Conclusion) : Prop where
  means : o.Means n k
  propagated : ∀ s e, k = .propagation s e → b.Propagates o n s e
  composed : ∀ x, k = .composed x → b.Composes o n x

theorem Propagates.move {s : PropertyId} {e : NodeId} (h : Move o b b')
    (hp : b.Propagates o n s e) : b'.Propagates o n s e := by
  obtain ⟨g, hg, he⟩ := hp
  exact ⟨g, has_move h hg, he⟩

theorem Composes.move (h : Move o b b') (hx : b.Composes o n x) : b'.Composes o n x := by
  rcases hx with ⟨y, z, he, hy, hz⟩ | ⟨m, r, s, g, he, hl, hp, hs⟩
  · exact Or.inl ⟨y, z, he, has_move h hy, has_move h hz⟩
  · exact Or.inr ⟨m, r, s, g, he, has_move h hl, has_move h hp, hs⟩

theorem Justified.move (h : Move o b b') (hk : b.Justified o n k) : b'.Justified o n k :=
  ⟨hk.means, fun s e he => (hk.propagated s e he).move h, fun x he => (hk.composed x he).move h⟩

theorem justified_of_infers (ho : o.Attached) (hmeans : ∀ n k, b.Has n k → o.Means n k)
    (hprop : ∀ n s e, b.Has n (.propagation s e) → b.Propagates o n s e)
    (hinf : o.Infers root ps n k) (hp : ∀ p ∈ ps, b.Has root p) : b.Justified o n k := by
  refine ⟨Ontology.means_of_infers hinf fun p hm => hmeans root p (hp p hm), ?_, ?_⟩
  · rintro s e rfl
    cases hinf with
    | part hk => cases hk
    | propagation hm he => exact ⟨_, Ontology.one_premise.mp hp, hm, he⟩
  · rintro x rfl
    exact composes_of_infers ho hinf hp fun s hs => hprop root s x (hp _ hs)

/-! ### Boards that go on -/

/-- The board has come from `b₀`, where nothing was pending and all had been found out about the
roots that had contexts. -/
structure Resumed (o : Ontology) (b₀ b : Board) : Prop where
  frozen : Frozen b₀ b
  exact : ∀ n c, b₀ n = some c → Exact o n c
  once : ∀ n c, b n = some c → c.facts.disjoint.Nodup
  means : ∀ n k, b.Has n k → o.Means n k
  propagated : ∀ n s e, b.Has n (.propagation s e) → b.Propagates o n s e
  pending : ∀ n c k, b n = some c → k ∈ c.pending → b.Justified o n k
  answered : b.Answering o
  linked : ∀ n, ¬ b₀.Hosts n → b.Linked o n

theorem resumed_move (ho : o.Attached) (hs : o.Closed) (h : Move o b b') (hb : Resumed o b₀ b) :
    Resumed o b₀ b' := by
  have hmeans : ∀ n k, b'.Has n k → o.Means n k := by
    intro n k hk
    rcases recorded_move h hk with hk | ⟨c, l, hc, hl, he⟩
    · exact hb.means n k hk
    · have hm := (hb.pending n c l hc hl).means
      rwa [← Ontology.means_withOrigin (g := .plain), ← he, Ontology.means_withOrigin] at hm
  have hprop : ∀ n s e, b'.Has n (.propagation s e) → b'.Propagates o n s e := by
    intro n s e hk
    rcases recorded_move h hk with hk | ⟨c, l, hc, hl, he⟩
    · exact (hb.propagated n s e hk).move h
    · obtain rfl : Conclusion.propagation s e = l := by
        cases l with
        | subsumer => cases he
        | _ => exact he
      exact ((hb.pending n c _ hc hl).propagated s e rfl).move h
  have hcomposed : ∀ n c x, b n = some c → .composed x ∈ c.pending → b.Composes o n x :=
    fun n c x hc hx => (hb.pending n c _ hc hx).composed x rfl
  refine ⟨frozen_move h hb.frozen, hb.exact, once_move h hb.once, hmeans, hprop, ?_,
    answering_move hb.once hcomposed ho hs h hb.answered,
    fun n hn => linked_move hcomposed ho h (hb.linked n hn)⟩
  intro n c' k hc' hk
  rcases pending_move ho hs hb.once h hc' hk with ⟨c, hc, hk⟩ | ⟨root, ps, hinf, hp⟩
  · exact (hb.pending n c k hc hk).move h
  · exact justified_of_infers ho hmeans hprop hinf hp

theorem Resumed.resolved (hb : Resumed o b₀ b) : b.Resolved o b₀.Hosts := by
  refine ⟨hb.means, hb.propagated, hb.answered, hb.linked, ?_⟩
  intro n c hn hc
  obtain ⟨c₀, hc₀⟩ := Option.ne_none_iff_exists'.mp hn
  obtain ⟨c', hc', hl⟩ := hb.frozen.kept n c₀ hc₀
  cases hc.symm.trans hc'
  exact (hb.exact n c₀ hc₀).linksAdded hl.linksAdded

theorem resumed_empty : Resumed o (fun _ => none) fun _ => none := by
  have hnone : ∀ n k, ¬ Board.Has (fun _ => none) n k := by
    rintro n k ⟨c, hc, _⟩
    cases hc
  refine ⟨frozen_refl ?_, ?_, ?_, fun n k hk => absurd hk (hnone n k),
    fun n s e hk => absurd hk (hnone n _), fun n c k => ?_, settled_empty.answered,
    fun n _ => settled_empty.linked n⟩
  · intro n c hc
    cases hc
  · intro n c hc
    cases hc
  · intro n c hc
    cases hc
  · intro hc
    cases hc

/-! ### Starting over -/

section
variable (hq : ∀ n c, b₁ n = some c → c.pending = []) (hf : Frozen b₁ b)
  (hkept : ∀ n ∈ kept, b₁.Hosts n)
  (hboard : ∀ n, b' n = if n ∈ kept then (b n).map (·.pruned kept) else none)
include hf hkept hboard

/-- What goes over was known when all was at rest. -/
theorem has_at_rest : b'.Has n k ↔
    n ∈ kept ∧ b₁.Has n k ∧ ∀ s r, k = .backwardLink s r → s ∈ kept := by
  rw [has_of_pruned hboard]
  refine and_congr_right fun hn => and_congr_left fun hsource => ?_
  obtain ⟨c₁, hc₁⟩ := Option.ne_none_iff_exists'.mp (hkept n hn)
  obtain ⟨c, hc, hl⟩ := hf.kept n c₁ hc₁
  constructor
  · rintro ⟨d, hd, hk⟩
    cases hc.symm.trans hd
    rcases hl.has_of hk with hk | ⟨s, r, rfl, hs⟩
    · exact ⟨c₁, hc₁, hk⟩
    · exact absurd (hkept s (hsource s r rfl)) hs
  · rintro ⟨d, hd, hk⟩
    cases hc₁.symm.trans hd
    exact ⟨c, hc, hl.linksAdded.has hk⟩

theorem context_at_rest (hc' : b' n = some c') : n ∈ kept ∧ ∃ c₁, b₁ n = some c₁ ∧
    c'.inconsistent = c₁.inconsistent ∧ c'.facts.subsumers = c₁.facts.subsumers ∧
    c'.facts.disjoint = c₁.facts.disjoint := by
  rw [hboard] at hc'
  split at hc'
  · rename_i hn
    obtain ⟨c, hc, rfl⟩ := Option.map_eq_some_iff.mp hc'
    obtain ⟨c₁, hc₁⟩ := Option.ne_none_iff_exists'.mp (hkept n hn)
    obtain ⟨d, hd, hl⟩ := hf.kept n c₁ hc₁
    cases hc.symm.trans hd
    obtain ⟨links, hfacts, _⟩ := hl.facts
    refine ⟨hn, c₁, hc₁, (c.pruned_findings kept).1.trans hl.inconsistent, ?_, ?_⟩
    · rw [(c.pruned_findings kept).2, hfacts]
    · rw [(c.pruned_keeps kept).2.2, hfacts]
  · cases hc'

include hq in
theorem answering_at_rest {K : NodeId → Prop} (hb : b₁.Resolved o K) : b'.Answering o := by
  intro root c' ps n k hc' hinf hp hk
  have hp' : ∀ p ∈ ps, b₁.Has root p ∧ ∀ s r, p = .backwardLink s r → s ∈ kept := fun p hm =>
    ((has_at_rest hf hkept hboard).mp ⟨c', hc', hp p hm⟩).2
  obtain ⟨hroot, c₁, hc₁, _⟩ := context_at_rest hf hkept hboard hc'
  have hn : n ∈ kept := by
    rcases same_root hinf with rfl | ⟨r, hr⟩ | ⟨r, rfl⟩
    · exact hroot
    · exact (hp' _ hr).2 n r rfl
    · exact absurd trivial hk
  have hhas : ∀ p ∈ ps, c₁.Has p := by
    intro p hm
    obtain ⟨⟨d, hd, hp⟩, _⟩ := hp' p hm
    cases hc₁.symm.trans hd
    exact hp
  obtain ⟨d₁, hd₁, hknown⟩ := inferred hb hq hc₁ hinf hhas hk
  have hover : ∀ l, d₁.Has l → (∀ s r, l ≠ .backwardLink s r) → b'.Has n l := fun l hl hne =>
    (has_at_rest hf hkept hboard).mpr ⟨hn, ⟨d₁, hd₁, hl⟩, fun s r he => absurd he (hne s r)⟩
  cases hcon : d₁.inconsistent with
  | true =>
    obtain ⟨d, hd, hl⟩ := hover .contradiction hcon fun _ _ he => by cases he
    exact ⟨d, hd, Or.inl (Or.inl hl)⟩
  | false =>
    obtain ⟨d, hd, hl⟩ := hover k (hknown hcon) (by rintro s r rfl; exact hk trivial)
    exact ⟨d, hd, Or.inr (Or.inl hl)⟩

include hq in
/-- Whatever contexts go over from a board that has been at rest, if nothing is pending in them, the
new board can go on from there. -/
theorem resumed_kept (hi : o.Interned) (hs : o.Closed) (hb : Resumed o b₀ b₁)
    (hq' : ∀ n c, b' n = some c → c.pending = []) : Resumed o b' b' := by
  have hhas : ∀ {n k}, b'.Has n k → b₁.Has n k := fun hk =>
    ((has_at_rest hf hkept hboard).mp hk).2.1
  refine ⟨frozen_refl hq', ?_, ?_, fun n k hk => hb.means n k (hhas hk), ?_, ?_,
    answering_at_rest hq hf hkept hboard hb.resolved, ?_⟩
  · intro n c' hc'
    obtain ⟨_, c₁, hc₁, hcon, hsub, _⟩ := context_at_rest hf hkept hboard hc'
    exact (hb.resolved.exact_of_quiet hi hs hq hc₁).of_same hcon hsub
  · intro n c' hc'
    obtain ⟨_, c₁, hc₁, _, _, hd⟩ := context_at_rest hf hkept hboard hc'
    exact hd ▸ hb.once n c₁ hc₁
  · intro n s e hk
    obtain ⟨hn, hk, _⟩ := (has_at_rest hf hkept hboard).mp hk
    obtain ⟨g, hg, he⟩ := hb.propagated n s e hk
    exact ⟨g, (has_at_rest hf hkept hboard).mpr ⟨hn, hg, fun s r he => by cases he⟩, he⟩
  · intro n c' k hc' hk
    rw [hq' n c' hc'] at hk
    cases hk
  · intro n hn c' e r f hc'
    exact absurd (by rw [Hosts, hc']; exact Option.some_ne_none c') hn

end

end Board

end Subsumption
