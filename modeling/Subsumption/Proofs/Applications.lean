import Mathlib.Data.Set.Card
import Subsumption.Proofs.Engines
import Subsumption.Proofs.Links

/-! What the engines count, compared with what has been derived. The rules of a subsumer are applied
when it is recorded, which happens once in each context; the two ends of a link are produced
together. -/
namespace Subsumption

/-- The kinds of the rules of a node. -/
def Ontology.ruleKinds (o : Ontology) (x : NodeId) : List RuleKind :=
  (o.rules x).rules.map Rule.kind

/-- The conclusions that an effect brings, wherever they go. -/
def Effect.conclusions : Effect → List Conclusion
  | .own k => [k]
  | .send _ ks => ks
  | _ => []

theorem Conclusion.isLink_iff {k : Conclusion} :
    k.IsLink ↔ k.kind = .forwardLink ∨ k.kind = .backwardLink := by
  cases k with
  | subsumer _ g => cases g <;> simp [IsLink, kind]
  | _ => simp [IsLink, kind]

namespace Deduction

variable {o : Ontology} {f : Facts} {x root : NodeId} {es es' : List Effect} {κ : RuleKind}
  {l : Conclusion}

/-- How many conclusions of a kind the effects bring. -/
def brought (κ : ConclusionKind) (es : List Effect) : Nat :=
  (es.flatMap Effect.conclusions).countP (·.kind = κ)

theorem brought_append (κ : ConclusionKind) :
    brought κ (es ++ es') = brought κ es + brought κ es' := by
  simp [brought]

theorem brought_own (κ : ConclusionKind) (ks : List Conclusion) :
    brought κ (ks.map .own) = ks.countP (·.kind = κ) := by
  simp [brought, List.flatMap_map, Effect.conclusions]

theorem brought_send (κ : ConclusionKind) (n : NodeId) (ks : List Conclusion) :
    brought κ [.send n ks] = ks.countP (·.kind = κ) := by
  simp [brought, Effect.conclusions]

theorem brought_of_no_link (h : ∀ l ∈ es.flatMap Effect.conclusions, ¬ l.IsLink) :
    brought .forwardLink es = 0 ∧ brought .backwardLink es = 0 := by
  have hnone : ∀ κ : ConclusionKind, κ = .forwardLink ∨ κ = .backwardLink → brought κ es = 0 := by
    intro κ hκ
    refine List.countP_eq_zero.mpr fun l hl hk => h l hl (Conclusion.isLink_iff.mpr ?_)
    rwa [of_decide_eq_true hk]
  exact ⟨hnone _ (Or.inl rfl), hnone _ (Or.inr rfl)⟩

theorem brought_decompose :
    brought .forwardLink (decompose o root x) = brought .backwardLink (decompose o root x) := by
  unfold decompose
  split <;> rfl

theorem brought_compose (hp : (o.rules x).Proper) :
    brought .forwardLink (compose o f x) = 0 ∧ brought .backwardLink (compose o f x) = 0 := by
  refine brought_of_no_link fun l hl => ?_
  obtain ⟨rule, hrule, hl⟩ : ∃ rule ∈ (o.rules x).rules, l ∈ ruleConclusions o f x rule := by
    simpa [compose, ruleEffects, List.flatMap_assoc, Effect.conclusions] using hl
  cases fires_of_rule hp hrule hl <;> exact id

theorem count_applied_decompose : (decompose o root x).count (.applied κ) = 0 := by
  refine List.count_eq_zero.mpr ?_
  unfold decompose
  split <;> simp

/-- Each rule is applied once. -/
theorem count_applied (rules : List Rule) :
    (rules.flatMap (ruleEffects o f x)).count (.applied κ) = (rules.map Rule.kind).count κ := by
  induction rules with
  | nil => rfl
  | cons rule rest ih =>
    have howns : ((ruleConclusions o f x rule).map Effect.own).count (.applied κ) = 0 :=
      List.count_eq_zero.mpr (by simp)
    rw [List.flatMap_cons, List.count_append, ih, ruleEffects, List.count_append, howns,
      List.map_cons, List.count_cons, Nat.zero_add, Nat.add_comm]
    simp [List.count_cons]

theorem count_applied_compose (hp : (o.rules x).Proper) :
    (compose o f x).count (.applied κ) = if κ ∈ o.ruleKinds x then 1 else 0 :=
  (count_applied _).trans hp.distinct.count

end Deduction

namespace Context

open Deduction

variable {o : Ontology} {c : Context} {k l : Conclusion} {x : NodeId} {κ : RuleKind}
  {order : List PropertyId}

/-- A subsumer that is recorded now. -/
def Gains (c : Context) (k : Conclusion) (x : NodeId) : Prop :=
  (∃ g, k = .subsumer x g) ∧ c.inconsistent = false ∧ x ∉ c.facts.subsumers

theorem gains_iff : c.Gains k x ↔ (c.derive o order k).1.Has (.plain x) ∧ ¬ c.Has (.plain x) := by
  constructor
  · rintro ⟨⟨g, rfl⟩, hc, hx⟩
    exact ⟨has_derive_self (k := .subsumer x g) (Or.inl hc), hx⟩
  · rintro ⟨h, hold⟩
    obtain ⟨hc, hg⟩ := subsumer_of_new h hold
    exact ⟨hg, hc, hold⟩

theorem exists_sends (h : l ∈ (c.derive o order k).2.flatMap Effect.conclusions) :
    ∃ n, Sends o c order k n l := by
  obtain ⟨e, he, hl⟩ := List.mem_flatMap.mp h
  cases e with
  | own k =>
    rw [List.mem_singleton.mp hl]
    exact ⟨c.root, mem_mail.mpr (Or.inl ⟨rfl, he⟩)⟩
  | send n ks => exact ⟨n, mem_mail.mpr (Or.inr ⟨ks, he, hl⟩)⟩
  | decomposed | applied | refuted => cases hl

/-- What is derived from a new subsumer. -/
theorem effects_of_gains {g : Origin} (h : c.Gains (.subsumer x g) x) :
    ∃ f, (c.derive o order (.subsumer x g)).2 =
      (match g with
        | .plain => decompose o c.root x
        | .composed => []) ++ compose o f x := by
  obtain ⟨_, hc, hx⟩ := h
  refine ⟨{ c.facts with subsumers := c.facts.subsumers ++ [x] }, ?_⟩
  cases g <;> simp [derive, hc, deriveConsistent, Facts.insertSubsumer?, Facts.hasSubsumer, hx]

/-- The two ends of a link are brought together. -/
theorem brought_derive (ho : o.Attached) (c : Context) (k : Conclusion) :
    brought .forwardLink (c.derive o order k).2 = brought .backwardLink (c.derive o order k).2 := by
  by_cases h : ∃ x, k = .plain x ∧ c.Gains k x
  · obtain ⟨x, rfl, hx⟩ := h
    obtain ⟨f, hf⟩ := effects_of_gains (o := o) (g := .plain) hx
    have hcompose := brought_compose (f := f) (ho.proper x)
    have heq : (c.derive o order (.plain x)).2 = _ := hf
    rw [heq, brought_append, brought_append, hcompose.1, hcompose.2, brought_decompose]
  · have hnone : brought .forwardLink (c.derive o order k).2 = 0 ∧
        brought .backwardLink (c.derive o order k).2 = 0 := by
      refine brought_of_no_link fun l hl hlink => ?_
      obtain ⟨n, hs⟩ := exists_sends hl
      obtain ⟨x, rfl, hc, hx, _⟩ := parts_of_sends_link ho hlink hs
      exact h ⟨x, rfl, ⟨_, rfl⟩, hc, hx⟩
    rw [hnone.1, hnone.2]

theorem gains_of_applied (h : .applied κ ∈ (c.derive o order k).2) : ∃ x, c.Gains k x := by
  cases hc : c.inconsistent with
  | true =>
    simp only [derive, hc, if_true, deriveInconsistent] at h
    split at h
    · split at h <;> simp at h
    · cases h
  | false =>
    simp only [derive, hc, Bool.false_eq_true, if_false] at h
    cases k with
    | subsumer x g =>
      by_cases hx : x ∈ c.facts.subsumers
      · simp [deriveConsistent, Facts.insertSubsumer?, Facts.hasSubsumer, hx] at h
      · exact ⟨x, ⟨g, rfl⟩, hc, hx⟩
    | backwardLink s r =>
      simp only [deriveConsistent] at h
      split at h
      · split at h <;> simp at h
      · cases h
    | propagation r e =>
      simp only [deriveConsistent] at h
      split at h <;> simp at h
    | disjointSubsumer d x =>
      simp only [deriveConsistent] at h
      split at h <;> simp at h
    | forwardLink | contradiction => simp [deriveConsistent] at h

theorem Gains.unique {y : NodeId} (h : c.Gains k x) (h' : c.Gains k y) : y = x := by
  obtain ⟨⟨g, rfl⟩, _⟩ := h
  obtain ⟨⟨_, he⟩, _⟩ := h'
  cases he
  rfl

theorem Gains.count_applied (h : c.Gains k x) (hp : (o.rules x).Proper) :
    (c.derive o order k).2.count (.applied κ) = if κ ∈ o.ruleKinds x then 1 else 0 := by
  obtain ⟨g, rfl⟩ := h.1
  obtain ⟨f, hf⟩ := effects_of_gains (o := o) h
  rw [hf, List.count_append, count_applied_compose hp]
  cases g with
  | plain => rw [count_applied_decompose, Nat.zero_add]
  | composed => rw [List.count_nil, Nat.zero_add]

/-- As many rules of a kind are applied as new subsumers have one. -/
theorem encard_gains (ho : o.Attached) (c : Context) (k : Conclusion) (κ : RuleKind) :
    {x | c.Gains k x ∧ κ ∈ o.ruleKinds x}.encard = (c.derive o order k).2.count (.applied κ) := by
  by_cases h : ∃ x, c.Gains k x
  · obtain ⟨x, hx⟩ := h
    rw [hx.count_applied (ho.proper x)]
    split
    · rename_i hκ
      rw [Nat.cast_one]
      refine Set.encard_eq_one.mpr ⟨x, Set.eq_singleton_iff_unique_mem.mpr ⟨⟨hx, hκ⟩, ?_⟩⟩
      exact fun y hy => hx.unique hy.1
    · rename_i hκ
      rw [Nat.cast_zero, Set.encard_eq_zero]
      refine Set.eq_empty_of_forall_notMem fun y hy => hκ ?_
      exact hx.unique hy.1 ▸ hy.2
  · have hcount : (c.derive o order k).2.count (.applied κ) = 0 :=
      List.count_eq_zero.mpr fun ha => h (gains_of_applied ha)
    rw [hcount, Nat.cast_zero, Set.encard_eq_zero]
    exact Set.eq_empty_of_forall_notMem fun x hx => h ⟨x, hx.1⟩

end Context

namespace Board

variable {o : Ontology} {b b' : Board} {c : Context} {k l : Conclusion} {n : NodeId} {κ : RuleKind}
  {order : List PropertyId}

/-- The roots that have contexts, with the subsumers recorded there that have a rule of the kind. -/
def firing (o : Ontology) (κ : RuleKind) (b : Board) : Set (NodeId × NodeId) :=
  {p | ∃ c, b p.1 = some c ∧ p.2 ∈ c.facts.subsumers ∧ κ ∈ o.ruleKinds p.2}

theorem mem_firing {p : NodeId × NodeId} :
    p ∈ b.firing o κ ↔ b.Has p.1 (.plain p.2) ∧ κ ∈ o.ruleKinds p.2 := by
  constructor
  · rintro ⟨c, hc, hx, hκ⟩
    exact ⟨⟨c, hc, hx⟩, hκ⟩
  · rintro ⟨⟨c, hc, hx⟩, hκ⟩
    exact ⟨c, hc, hx, hκ⟩

theorem firing_congr (h : ∀ n x, b'.Has n (.plain x) ↔ b.Has n (.plain x)) :
    b'.firing o κ = b.firing o κ := by
  ext p
  rw [mem_firing, mem_firing, h]

theorem has_opens {root : NodeId}
    (h : b' n = (b n).or (if root = n then some (.opened o n) else none)) :
    b'.Has n l ↔ b.Has n l := by
  unfold Has
  rw [h]
  cases b n with
  | some d => rfl
  | none =>
    refine ⟨?_, by simp⟩
    rintro ⟨d, hd, hl⟩
    rw [Option.none_or] at hd
    split at hd <;> cases hd
    have hreceived : ((Context.opened o n).receive []).Has l := Context.has_receive.mpr hl
    exact absurd hreceived Context.has_opened

theorem has_marked {sat a : Bool}
    (h : b' n = (b n).map ({ · with saturated := sat, active := a })) :
    b'.Has n l ↔ b.Has n l := by
  unfold Has
  rw [h]
  simp [Context.has_marks]

section
variable {rest : List Conclusion} (h : ∀ n, b' n = b.processed o c order k rest n)
include h

/-- Processing a conclusion leaves alone what other contexts have recorded. -/
theorem has_process : b'.Has n l ↔
    if n = c.root then (({ c with pending := rest } : Context).derive o order k).1.Has l
      else b.Has n l := by
  unfold Has
  rw [h, processed]
  split
  · simp [Context.has_receive]
  · cases hn : b n with
    | some d => simp [Context.has_receive]
    | none =>
      simp only [Option.none_or, reduceCtorEq, false_and, exists_false, iff_false]
      rintro ⟨d, hd, hl⟩
      obtain ⟨a, ha, rfl⟩ := Option.map_eq_some_iff.mp hd
      split at ha <;> cases ha
      exact Context.has_opened hl

theorem firing_process (hc : b c.root = some c) : b'.firing o κ = b.firing o κ ∪
    Prod.mk c.root '' {x | ({ c with pending := rest } : Context).Gains k x ∧
      κ ∈ o.ruleKinds x} := by
  ext ⟨n, x⟩
  rw [mem_firing, has_process h, Set.mem_union, mem_firing]
  by_cases hn : n = c.root
  · subst hn
    rw [if_pos rfl]
    constructor
    · rintro ⟨hx, hκ⟩
      by_cases hold : x ∈ c.facts.subsumers
      · exact Or.inl ⟨⟨c, hc, hold⟩, hκ⟩
      · exact Or.inr ⟨x, ⟨Context.gains_iff.mpr ⟨hx, hold⟩, hκ⟩, rfl⟩
    · rintro (⟨⟨d, hd, hx⟩, hκ⟩ | ⟨y, ⟨hy, hκ⟩, he⟩)
      · cases hc.symm.trans hd
        exact ⟨Context.has_derive_of_has (Context.has_rest.mpr hx), hκ⟩
      · cases he
        exact ⟨(Context.gains_iff.mp hy).1, hκ⟩
  · rw [if_neg hn]
    refine ⟨Or.inl, ?_⟩
    rintro (hold | ⟨y, _, he⟩)
    · exact hold
    · cases he
      exact absurd rfl hn

/-- The new subsumer of a root, if there is one, makes a new pair. -/
theorem encard_firing_process (ho : o.Attached) (hc : b c.root = some c) (κ : RuleKind) :
    (b'.firing o κ).encard = (b.firing o κ).encard +
      (({ c with pending := rest } : Context).derive o order k).2.count (.applied κ) := by
  have hdisjoint : Disjoint (b.firing o κ) (Prod.mk c.root ''
      {x | ({ c with pending := rest } : Context).Gains k x ∧ κ ∈ o.ruleKinds x}) := by
    refine Set.disjoint_left.mpr ?_
    rintro _ ⟨d, hd, hx, _⟩ ⟨x, ⟨⟨_, _, hold⟩, _⟩, rfl⟩
    cases hc.symm.trans hd
    exact hold hx
  rw [firing_process h hc, Set.encard_union_eq hdisjoint,
    (Set.injOn_of_injective (Prod.mk_right_injective c.root)).encard_image,
    Context.encard_gains ho]

end

end Board

namespace RuleStatistics

variable (s : RuleStatistics)

theorem rules_countRule (timed : Bool) (k κ : RuleKind) : (s.countRule timed k).rules.get κ.index =
    s.rules.get κ.index + if k = κ then 1 else 0 := by
  rw [countRule, Tally.get_bump]
  by_cases h : k = κ
  · simp [h]
  · rw [if_neg fun he => h (RuleKind.index_injective he), if_neg h, Nat.add_zero]

end RuleStatistics

namespace RuleRun

open Workspace Deduction

variable {σ : Type} {obs : RuleObserver σ} {timed : Bool} {r r' r'' : RuleRun σ} {s s' : Stage}
  {n root self : NodeId} {id : ContextId} {k : Conclusion} {w : Workspace} {o : Ontology}
  {es es' : List Effect}

/-! ### What is counted -/

/-- The counts have gone up by what the effects say. What new contexts start from, which is plain
subsumers, comes on top. -/
structure Adds (es : List Effect) (r r' : RuleRun σ) : Prop where
  rules : ∀ κ : RuleKind, r'.stats.rules.get κ.index =
    r.stats.rules.get κ.index + es.count (.applied κ)
  produced : ∀ κ : ConclusionKind, κ ≠ .plainSubsumer → r'.stats.produced.get κ.index =
    r.stats.produced.get κ.index + brought κ es

theorem Adds.trans (h : Adds es r r') (h' : Adds es' r' r'') : Adds (es ++ es') r r'' := by
  refine ⟨fun κ => ?_, fun κ hκ => ?_⟩
  · rw [h'.rules, h.rules, List.count_append, Nat.add_assoc]
  · rw [h'.produced κ hκ, h.produced κ hκ, brought_append, Nat.add_assoc]

theorem adds_of_eq (hrules : r'.stats.rules = r.stats.rules)
    (hproduced : r'.stats.produced = r.stats.produced) (happlied : ∀ κ, .applied κ ∉ es)
    (hnone : es.flatMap Effect.conclusions = []) : Adds es r r' := by
  refine ⟨fun κ => ?_, fun κ _ => ?_⟩
  · rw [hrules, List.count_eq_zero.mpr (happlied κ), Nat.add_zero]
  · rw [hproduced, brought, hnone, List.countP_nil, Nat.add_zero]

theorem adds_nothing (hrules : r'.stats.rules = r.stats.rules)
    (hproduced : r'.stats.produced = r.stats.produced) : Adds [] r r' :=
  adds_of_eq hrules hproduced (fun _ => List.not_mem_nil) rfl

theorem adds_produce (id : ContextId) (k : Conclusion) : Adds [.own k] r (r.produce id k) := by
  refine ⟨fun κ => ?_, fun κ _ => (r.stats.produced_countProduced k.kind κ).trans ?_⟩
  · simp [RuleRun.produce, RuleStatistics.countProduced]
  · simp [brought, Effect.conclusions, List.countP_cons]

theorem adds_produceAll (id : ContextId) (ks : List Conclusion) :
    Adds (ks.map .own) r (r.produceAll id ks) := by
  induction ks generalizing r with
  | nil => exact adds_nothing rfl rfl
  | cons k rest ih => exact (adds_produce id k).trans ih

/-- Conclusions for the context itself are counted like conclusions for another one. -/
theorem Adds.sent {ks : List Conclusion} (h : Adds (ks.map .own) r r') (root : NodeId) :
    Adds [.send root ks] r r' := by
  refine ⟨fun κ => ?_, fun κ hκ => ?_⟩
  · rw [h.rules, List.count_eq_zero.mpr (by simp), List.count_eq_zero.mpr (by simp)]
  · rw [h.produced κ hκ, brought_own, brought_send]

/-- A new context starts from plain subsumers. -/
theorem kind_of_initial (h : k ∈ initialConclusions o root) : k.kind = .plainSubsumer := by
  rcases List.mem_cons.mp h with rfl | h
  · rfl
  · split at h
    · rw [List.mem_singleton.mp h]
      rfl
    · cases h

theorem adds_obtain (root : NodeId) : Adds [] r (r.obtain obs root).2 := by
  cases hf : r.work.state.find? root with
  | some id =>
    rw [obtain_of_some obs r hf]
    exact adds_nothing rfl rfl
  | none =>
    rw [obtain_of_none obs r hf]
    have hinitial := adds_produceAll
      (r := ⟨(r.work.insertContext root).2.enlist r.work.nextId, r.stats, r.env⟩)
      r.work.nextId (initialConclusions r.work.state.ontology root)
    refine ⟨fun κ => ?_, fun κ hκ => ?_⟩
    · rw [stats_notifyCreated, hinitial.rules, List.count_eq_zero.mpr (by simp)]
      rfl
    · have hzero : brought κ ((initialConclusions r.work.state.ontology root).map .own) = 0 := by
        rw [brought_own, List.countP_eq_zero]
        intro k hk he
        exact hκ ((of_decide_eq_true he).symm.trans (kind_of_initial hk))
      rw [stats_notifyCreated, hinitial.produced κ hκ, hzero]
      rfl

theorem adds_perform (id : ContextId) (e : Effect) : Adds [e] r (r.perform obs timed id e) := by
  cases e with
  | own k => exact adds_produce id k
  | send root ks => exact (adds_obtain root).trans ((adds_produceAll _ ks).sent root)
  | decomposed | refuted => exact adds_of_eq rfl rfl (by simp) rfl
  | applied kind =>
    refine ⟨fun κ => (r.stats.rules_countRule timed kind κ).trans ?_, fun κ _ => rfl⟩
    simp [List.count_singleton]

theorem adds_effects (id : ContextId) (es : List Effect) :
    Adds es r (es.foldl (perform obs timed id) r) := by
  induction es generalizing r with
  | nil => exact adds_nothing rfl rfl
  | cons e rest ih => exact (adds_perform id e).trans ih

/-! ### What has been derived -/

/-- Whoever worked has counted what was derived, and the ends of links are counted in pairs. -/
structure Tracks (o : Ontology) (r r' : RuleRun σ) : Prop where
  ontology : r'.work.state.ontology = r.work.state.ontology
  rules : ∀ κ : RuleKind, ∃ n : Nat,
    r'.stats.rules.get κ.index = r.stats.rules.get κ.index + n ∧
    (Board.firing o κ r'.work.contextOf?).encard = (Board.firing o κ r.work.contextOf?).encard + n
  links : ∃ n,
    r'.stats.produced.get ConclusionKind.forwardLink.index =
      r.stats.produced.get ConclusionKind.forwardLink.index + n ∧
    r'.stats.produced.get ConclusionKind.backwardLink.index =
      r.stats.produced.get ConclusionKind.backwardLink.index + n

theorem Adds.tracks (h : Adds es r r') (ho : r'.work.state.ontology = r.work.state.ontology)
    (hpaired : brought .forwardLink es = brought .backwardLink es)
    (hfiring : ∀ κ, (Board.firing o κ r'.work.contextOf?).encard =
      (Board.firing o κ r.work.contextOf?).encard + es.count (.applied κ)) : Tracks o r r' :=
  ⟨ho, fun κ => ⟨_, h.rules κ, hfiring κ⟩, _, h.produced _ (by simp), by
    rw [h.produced _ (by simp), hpaired]⟩

/-- Where no effects are carried out, nothing is recorded. -/
theorem Adds.tracks_of_same (h : Adds [] r r')
    (ho : r'.work.state.ontology = r.work.state.ontology)
    (hhas : ∀ n x, Board.Has r'.work.contextOf? n (.plain x) ↔
      Board.Has r.work.contextOf? n (.plain x)) : Tracks o r r' := by
  refine h.tracks ho rfl fun κ => ?_
  rw [Board.firing_congr hhas, List.count_nil, Nat.cast_zero, add_zero]

theorem tracks_submit (hw : r.work.Coherent) (root : NodeId) :
    Tracks o r (RuleRun.submit obs r root).2 :=
  (adds_obtain root).tracks_of_same (posts_obtain obs r hw root).1.ontology fun n _ =>
    Board.has_opens (contextOf?_submit hw obs r.stats r.env root n)

theorem tracks_apply (ho : o.Attached) (hr : r.work.state.ontology = o) (hw : r.work.Coherent)
    (hid : r.work.state.find? root = some id) (hpop : r.work.pop? id = some (k, w)) :
    Tracks o r (({ r with work := w } : RuleRun σ).apply obs timed id k) := by
  subst hr
  obtain ⟨c, rest, hboard, hp, hstate, hc, hafter⟩ :=
    contextOf?_process hw obs timed r.stats r.env hid hpop
  have hadds : Adds
      (({ c with pending := rest } : Context).derive r.work.state.ontology (w.layout id) k).2 r
      (({ r with work := w } : RuleRun σ).apply obs timed id k) := by
    have hcounted : Adds [] r ⟨w.modify id fun _ =>
        (({ c with pending := rest } : Context).derive r.work.state.ontology (w.layout id) k).1,
        r.stats.countProcessed k.kind, r.env⟩ := adds_nothing rfl rfl
    rw [apply_eq obs timed { r with work := w } hc, hstate]
    exact hcounted.trans (adds_effects id _)
  exact hadds.tracks (keeps_process hw obs timed r.stats r.env hid hpop).ontology
    (Context.brought_derive ho _ k) (Board.encard_firing_process hafter ho hboard)

theorem Turn.tracks (h : Turn obs timed s r s' r') (ho : o.Attached)
    (hr : r.work.state.ontology = o) (hw : r.work.Coherent)
    (hknown : ∀ id, s = .holding id → ∃ n, r.work.state.find? n = some id) : Tracks o r r' := by
  cases h with
  | process hpop =>
    obtain ⟨n, hid⟩ := hknown _ rfl
    exact tracks_apply ho hr hw hid hpop
  | @layDown _ id hpop =>
    refine Adds.tracks_of_same (adds_nothing rfl rfl) rfl fun n x => ?_
    obtain ⟨_, _, hmarks⟩ := marks_modify (w := r.work) id (·.saturated) (fun _ => false) n
    exact Board.has_marked hmarks
  | stopped | drained | take =>
    exact Adds.tracks_of_same (adds_nothing rfl rfl) rfl fun _ _ => Iff.rfl

end RuleRun

namespace RuleFactory

open RuleRun Workspace

variable {f f' f₀ : RuleFactory} {before after : List RuleEngine} {stats : RuleStatistics}
  {s s' : Stage} {σ : Type} {env : σ} {r : RuleRun σ} {o : Ontology} {w : Workspace}

/-- How often rules of a kind have been applied, by all engines. -/
def applied (κ : RuleKind) (f : RuleFactory) : Nat := f.counted (·.rules.get κ.index)

/-- What holds at every moment about what was derived. -/
structure Tracked (o : Ontology) (f : RuleFactory) : Prop where
  ontology : f.work.state.ontology = o
  rules : ∀ κ, (Board.firing o κ f.work.contextOf?).encard = f.applied κ
  links : f.produced .forwardLink = f.produced .backwardLink

/-- The counts of one engine have gone up, those of the others are as they were. -/
theorem counted_put {n : Nat} (g : RuleStatistics → Nat)
    (hf : f.engines = before ++ ⟨s, stats⟩ :: after) (hg : g r.stats = g stats + n) :
    (f.put before after s' r).counted g = f.counted g + n := by
  have hf' : (f.put before after s' r).engines = before ++ ⟨s', r.stats⟩ :: after := rfl
  rw [counted_of_engines g hf, counted_of_engines g hf', hg]
  dsimp only [put]
  omega

theorem Tracked.put (h : f.Tracked o) (env : σ) (hf : f.engines = before ++ ⟨s, stats⟩ :: after)
    (hr : RuleRun.Tracks o ⟨f.work, stats, env⟩ r) : (f.put before after s' r).Tracked o := by
  refine ⟨hr.ontology.trans h.ontology, fun κ => ?_, ?_⟩
  · obtain ⟨n, hn, hfiring⟩ := hr.rules κ
    have happlied : (f.put before after s' r).applied κ = f.applied κ + n :=
      counted_put (·.rules.get κ.index) hf hn
    have hwork : (f.put before after s' r).work = r.work := rfl
    rw [happlied, hwork, hfiring, h.rules κ, Nat.cast_add]
  · obtain ⟨n, hforward, hbackward⟩ := hr.links
    have hf₁ : (f.put before after s' r).produced .forwardLink = f.produced .forwardLink + n :=
      counted_put (·.produced.get ConclusionKind.forwardLink.index) hf hforward
    have hf₂ : (f.put before after s' r).produced .backwardLink = f.produced .backwardLink + n :=
      counted_put (·.produced.get ConclusionKind.backwardLink.index) hf hbackward
    rw [hf₁, hf₂, h.links]

/-- Nothing changes but how the counts are spread. -/
theorem Tracked.of_counted (h : f.Tracked o) (hwork : f'.work = f.work)
    (hcounted : ∀ g : RuleStatistics → Nat, g .zero = 0 → (∀ a b, g (a.add b) = g a + g b) →
      f'.counted g = f.counted g) : f'.Tracked o := by
  refine ⟨hwork ▸ h.ontology, fun κ => ?_, ?_⟩
  · have happlied : f'.applied κ = f.applied κ :=
      hcounted (·.rules.get κ.index) (Tally.get_zero _) fun _ _ => Tally.get_add ..
    rw [hwork, happlied, h.rules]
  · have hproduced : ∀ κ, f'.produced κ = f.produced κ := fun κ =>
      hcounted (·.produced.get κ.index) (Tally.get_zero _) fun _ _ => Tally.get_add ..
    rw [hproduced, hproduced, h.links]

theorem Tracked.move (h : f.Tracked o) (ho : o.Attached) (heven : f.Even) (hm : Move f f') :
    f'.Tracked o := by
  cases hm with
  | engine =>
    refine h.of_counted rfl fun g hzero _ => ?_
    simp [counted, hzero]
  | submit obs env root hf =>
    exact h.put env hf (tracks_submit heven.poised.coherent root)
  | begins hf =>
    refine h.of_counted rfl fun g _ _ => ?_
    simp [counted, hf]
  | @turn _ _ _ _ _ s _ env _ _ hf ht =>
    exact h.put env hf (ht.tracks ho h.ontology heven.poised.coherent (heven.known hf))
  | finish hf =>
    refine h.of_counted rfl fun g hzero hadd => ?_
    simp only [counted, hf, hadd, hzero, List.map_append, List.map_cons, List.sum_append,
      List.sum_cons]
    omega

theorem tracked_new (hw : w.state = State.new o) : (new w).Tracked o := by
  refine ⟨congrArg State.ontology hw, fun κ => ?_, rfl⟩
  have hnone : Board.firing o κ w.contextOf? = ∅ := by
    rw [contextOf?_new hw]
    refine Set.eq_empty_of_forall_notMem ?_
    rintro p ⟨c, hc, _⟩
    cases hc
  have hzero : (new w).applied κ = 0 := by
    simp [applied, counted, new, RuleStatistics.zero]
  rw [show (new w).work = w from rfl, hnone, hzero, Set.encard_empty, Nat.cast_zero]

theorem Moves.tracked (h : Moves (new w) f) (ho : o.Attached) (hw : w.state = State.new o) :
    f.Tracked o := by
  induction h with
  | start => exact tracked_new hw
  | move h hm ih => exact ih.move ho (h.even (even_new hw)) hm

/-- Engines have worked on a new state over an ontology that calls have built, by calls that may
have overlapped and may still be under way. Together they have applied rules of each kind as often
as there are contexts with recorded subsumers, inconsistent ones too, that have a rule of the kind;
and they have produced as many links that lead away as links that lead back. -/
theorem rules_applied_once (calls : List Ontology.Call)
    (hw : w.state = State.new (Ontology.after calls)) (h : Moves (new w) f) :
    (∀ κ : RuleKind,
      (Board.firing (Ontology.after calls) κ f.work.contextOf?).encard = f.applied κ) ∧
    f.produced .forwardLink = f.produced .backwardLink := by
  have htracked := h.tracked (Ontology.attached_after calls) hw
  exact ⟨htracked.rules, htracked.links⟩

/-- The engine that has been stopped is finished, the other one has done nothing yet. -/
def halfFinished : RuleFactory :=
  ⟨drainedOne.work, [⟨.ended true, .zero⟩, ⟨.ended false, .zero⟩], .add .zero drainedOne.stats⟩

/-- Three subsumers of A have told superclasses, and one is the filler of an existential on the left
of an axiom. The context of B has not been looked at. -/
theorem rules_applied_once_cycles :
    Moves (new (start (Ontology.after cycles))) halfFinished ∧
    (Board.firing (Ontology.after cycles) .told halfFinished.work.contextOf?).encard = 3 ∧
    (Board.firing (Ontology.after cycles) .propagation halfFinished.work.contextOf?).encard = 1 ∧
    (Board.firing (Ontology.after cycles) .conjunction halfFinished.work.contextOf?).encard = 0 ∧
    halfFinished.produced .forwardLink = 2 ∧ halfFinished.produced .backwardLink = 2 := by
  have hfirst : halfway.engines =
      [] ++ ⟨.ended true, drainedOne.stats⟩ :: [⟨.ended false, .zero⟩] := rfl
  have hmoves : Moves (new (start (Ontology.after cycles))) halfFinished :=
    moves_halfway.move (.finish hfirst)
  obtain ⟨hrules, hlinks⟩ := rules_applied_once cycles rfl hmoves
  have htold : halfFinished.applied .told = 3 := by decide +kernel
  have hpropagation : halfFinished.applied .propagation = 1 := by decide +kernel
  have hconjunction : halfFinished.applied .conjunction = 0 := by decide +kernel
  have hforward : halfFinished.produced .forwardLink = 2 := by decide +kernel
  refine ⟨hmoves, ?_, ?_, ?_, hforward, hlinks ▸ hforward⟩
  · rw [hrules, htold]
    rfl
  · rw [hrules, hpropagation]
    rfl
  · rw [hrules, hconjunction]
    rfl

end RuleFactory

end Subsumption
