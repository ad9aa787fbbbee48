import Subsumption.Resubmission
import Subsumption.Proofs.Exactness

/-! Contexts that go over to a changed ontology stay sound, and have found out all they had to. -/
namespace Subsumption

open Ontology

/-- The chains have the same entries, in whatever order. -/
structure RuleChain.Alike (c c' : RuleChain) : Prop where
  contradicts : c.contradicts = c'.contradicts
  supers : ∀ s, s ∈ c.supers ↔ s ∈ c'.supers
  partners : ∀ e, e ∈ c.partners ↔ e ∈ c'.partners
  existentials : ∀ e, e ∈ c.existentials ↔ e ∈ c'.existentials
  axioms : ∀ d, d ∈ c.axioms ↔ d ∈ c'.axioms

theorem RuleChain.Alike.symm {c c' : RuleChain} (h : c.Alike c') : c'.Alike c :=
  ⟨h.contradicts.symm, fun s => (h.supers s).symm, fun e => (h.partners e).symm,
    fun e => (h.existentials e).symm, fun d => (h.axioms d).symm⟩

theorem RuleChain.Alike.isEmpty {c c' : RuleChain} (h : c.Alike c') (hc : c.Proper)
    (hc' : c'.Proper) : c.isEmpty = true ↔ c'.isEmpty = true := by
  rw [isEmpty_iff _ hc, isEmpty_iff _ hc', h.contradicts]
  simp only [List.eq_nil_iff_forall_not_mem, h.supers, h.partners, h.existentials, h.axioms]

/-- The context as it goes over if the roots `kept` do. -/
def Context.pruned (kept : List NodeId) (c : Context) : Context := (c.withoutSources? kept).getD c

namespace Context

variable {c : Context} {kept : List NodeId} {k : Conclusion}

theorem pruned_keeps (c : Context) (kept : List NodeId) :
    (c.pruned kept).root = c.root ∧ (c.pruned kept).saturated = c.saturated ∧
      (c.pruned kept).facts.disjoint = c.facts.disjoint := by
  unfold pruned withoutSources?
  split <;> exact ⟨rfl, rfl, rfl⟩

theorem pruned_findings (c : Context) (kept : List NodeId) :
    (c.pruned kept).inconsistent = c.inconsistent ∧
      (c.pruned kept).facts.subsumers = c.facts.subsumers := by
  unfold pruned withoutSources?
  split <;> exact ⟨rfl, rfl⟩

theorem pending_pruned (h : c.pending = []) : (c.pruned kept).pending = [] := by
  unfold pruned withoutSources?
  split
  · exact h
  · rfl

/-- Nothing but links from dropped roots is forgotten. -/
theorem has_pruned : (c.pruned kept).Has k ↔ c.Has k ∧ ∀ s r, k = .backwardLink s r → s ∈ kept := by
  unfold pruned withoutSources?
  split
  · rename_i hall
    constructor
    · intro h
      refine ⟨h, ?_⟩
      rintro s r rfl
      exact List.contains_iff_mem.mp (List.all_eq_true.mp hall (r, s) h)
    · exact fun h => h.1
  · cases k with
    | backwardLink s r =>
      simp [Has, Facts.keepSources]
    | _ => simp [Has, Facts.keepSources]

end Context

namespace Ontology

variable {o o' : Ontology} {n x : NodeId}

theorem expression?_changes {e : Expression} (h : Changes o o') (he : o.expression? n = some e) :
    o'.expression? n = some e :=
  preserved_changes (P := fun o' => o'.expression? n = some e) (fun _ _ => expression?_kept) h he

theorem disjointness?_change {d : DisjointnessId} {a : Disjointness} (h : Change o o')
    (hd : o.disjointness? d = some a) : o'.disjointness? d = some a := by
  cases h with
  | disjointness =>
    have hlt := (Array.getElem?_eq_some_iff.mp hd).1
    rw [disjointness?, Array.getElem?_push_lt hlt]
    exact (Array.getElem?_eq_getElem hlt).symm.trans hd
  | adjust h => cases h <;> exact hd
  | _ => exact hd

theorem disjointness?_changes {d : DisjointnessId} {a : Disjointness} (h : Changes o o')
    (hd : o.disjointness? d = some a) : o'.disjointness? d = some a :=
  preserved_changes (P := fun o' => o'.disjointness? d = some a) (fun _ _ => disjointness?_change)
    h hd

/-- Only nodes are derived of nodes. -/
theorem derives_lt (hi : o.Interned) (ho : o.Attached) (h : o.Derives n x)
    (hn : n.index < o.size) : x.index < o.size := by
  induction h with
  | self => exact hn
  | top => exact expression?_lt hi.top
  | told _ hs => exact ho.supers _ _ hs
  | first _ he ih => exact Nat.lt_trans (hi.conjuncts _ _ _ he).1 (expression?_lt he)
  | second _ he ih => exact Nat.lt_trans (hi.conjuncts _ _ _ he).2 (expression?_lt he)
  | conjunction _ _ hm =>
    rcases (ho.partners _ _ hm).1 with he | he
    · exact expression?_lt he
    · exact expression?_lt he
  | propagation _ _ _ _ _ hr' => exact expression?_lt hr'

/-- What an inference looks up: the chains and expressions of the subsumers that it is from, the
super-properties of a link, and whether an axiom lists a member twice. -/
theorem infers_transfer {root : NodeId} {ps : List Conclusion} {k : Conclusion}
    (h : o.Infers root ps n k)
    (hchain : ∀ x, .plain x ∈ ps → (o.rules x).Alike (o'.rules x))
    (htop : k = .plain top → n = root → (o.rules top).isEmpty = false →
      (o'.rules top).isEmpty = false)
    (hexpr : ∀ x e, .plain x ∈ ps → o.expression? x = some e → o'.expression? x = some e)
    (hcarry : ∀ x e s, .plain x ∈ ps → e ∈ (o.rules x).existentials →
      o.expression? e = some (.existential s x) → o'.expression? e = some (.existential s x))
    (hsupers : ∀ r s, .backwardLink n r ∈ ps → s ∈ o.supers r → s ∈ o'.supers r)
    (htwice : ∀ d x, .disjointSubsumer d x ∈ ps → Deduction.isSelfDisjoint o d x = true →
      Deduction.isSelfDisjoint o' d x = true) : o'.Infers root ps n k := by
  cases h with
  | self => exact .self
  | top ht => exact .top (htop rfl rfl ht)
  | told hs => exact .told (((hchain _ (by simp)).supers _).mp hs)
  | part hpart =>
    have hexpr := fun e => hexpr _ e (List.mem_singleton_self _)
    refine .part ?_
    cases hpart with
    | first he => exact .first (hexpr _ he)
    | second he => exact .second (hexpr _ he)
    | forward he => exact .forward (hexpr _ he)
    | backward he => exact .backward (hexpr _ he)
  | conjunction hm => exact .conjunction (((hchain _ (by simp)).partners _).mp hm)
  | propagation hm he =>
    exact .propagation (((hchain _ (by simp)).existentials _).mp hm) (hcarry _ _ _ (by simp) hm he)
  | carried hs => exact .carried (hsupers _ _ List.mem_cons_self hs)
  | disjoint hd => exact .disjoint (((hchain _ (by simp)).axioms _).mp hd)
  | bottom => exact .bottom
  | clash hne => exact .clash hne
  | twice ht => exact .twice (htwice _ _ (List.mem_singleton_self _) ht)
  | linked => exact .linked

theorem isSelfDisjoint_eq_true {d : DisjointnessId} :
    Deduction.isSelfDisjoint o d x = true ↔
      ∃ a, o.disjointness? d = some a ∧ a.isSelfDisjoint x = true := by
  unfold Deduction.isSelfDisjoint
  cases o.disjointness? d <;> simp

end Ontology

namespace Board

variable {o o' : Ontology} {kept : List NodeId} {b b' : Board} {n m root x : NodeId}
  {k : Conclusion} {ps : List Conclusion} {c : Context}

/-- The kept roots of a board at rest go over to a changed ontology. What was found out about them
does not depend on the change: their subsumers have the rules they had, owl:Thing is among them if
it has rules now, and links from them lead to kept roots along relations with the super-properties
they had. -/
structure Carries (o o' : Ontology) (kept : List NodeId) (b b' : Board) : Prop where
  changes : Changes o o'
  quiet : ∀ n c, b n = some c → c.pending = []
  board : ∀ n, b' n = if n ∈ kept then (b n).map (·.pruned kept) else none
  chains : ∀ n x, n ∈ kept → b.Has n (.plain x) → (o.rules x).Alike (o'.rules x)
  top : ∀ n, n ∈ kept → (b n).isSome → (o'.rules top).isEmpty = false → b.Has n (.plain top)
  supers : ∀ n m r, n ∈ kept → b.Has m (.backwardLink n r) →
    ∀ s, s ∈ o.supers r ↔ s ∈ o'.supers r
  sources : ∀ n m r, n ∈ kept → b.Has m (.backwardLink n r) → m ∈ kept

/-- What the contexts of kept roots still know. -/
theorem has_of_pruned (hboard : ∀ n, b' n = if n ∈ kept then (b n).map (·.pruned kept) else none) :
    b'.Has n k ↔ n ∈ kept ∧ b.Has n k ∧ ∀ s r, k = .backwardLink s r → s ∈ kept := by
  unfold Board.Has
  rw [hboard]
  by_cases hn : n ∈ kept
  · simp only [hn, if_true, Option.map_eq_some_iff, true_and]
    constructor
    · rintro ⟨_, ⟨c, hc, rfl⟩, hk⟩
      exact ⟨⟨c, hc, (Context.has_pruned.mp hk).1⟩, (Context.has_pruned.mp hk).2⟩
    · rintro ⟨⟨c, hc, hk⟩, hs⟩
      exact ⟨_, ⟨c, hc, rfl⟩, Context.has_pruned.mpr ⟨hk, hs⟩⟩
  · simp [hn]

theorem quiet_of_pruned (hboard : ∀ n, b' n = if n ∈ kept then (b n).map (·.pruned kept) else none)
    (hq : ∀ n c, b n = some c → c.pending = []) : ∀ n c, b' n = some c → c.pending = [] := by
  intro n c' hc'
  rw [hboard] at hc'
  split at hc'
  · obtain ⟨c, hc, rfl⟩ := Option.map_eq_some_iff.mp hc'
    exact Context.pending_pruned (hq n c hc)
  · cases hc'

theorem Carries.has (h : Carries o o' kept b b') :
    b'.Has n k ↔ n ∈ kept ∧ b.Has n k ∧ ∀ s r, k = .backwardLink s r → s ∈ kept :=
  has_of_pruned h.board

/-- The premise of an inference that another root receives is a link from that root. -/
theorem same_root (h : o.Infers root ps n k) :
    n = root ∨ (∃ r, .backwardLink n r ∈ ps) ∨ ∃ r, k = .backwardLink root r := by
  cases h with
  | part hpart =>
    cases hpart with
    | backward => exact Or.inr (Or.inr ⟨_, rfl⟩)
    | _ => exact Or.inl rfl
  | carried | linked => exact Or.inr (Or.inl ⟨_, List.mem_cons_self⟩)
  | _ => exact Or.inl rfl

/-- The links that an inference uses are from the root that receives its conclusion. -/
theorem link_premise {s : NodeId} {r : PropertyId} (h : o.Infers root ps n k)
    (hp : .backwardLink s r ∈ ps) : s = n := by
  cases h <;> simp_all [Conclusion.plain]

/-- What was recorded for a kept root has a derivation from what is recorded for kept roots. -/
theorem Carries.grounded (h : Carries o o' kept b b') (ho : o.Attached) (ho' : o'.Attached)
    (hg : o.Grounded b.Has n k) (hk : b.Has n k) (hn : n ∈ kept)
    (hlink : ∀ s r, k = .backwardLink s r → s ∈ kept) : o'.Grounded b'.Has n k := by
  induction hg with
  | @intro root ps n k origin hinf hh _ ih =>
    have hroot : root ∈ kept := by
      rcases same_root hinf with rfl | ⟨r, hr⟩ | ⟨r, hr⟩
      · exact hn
      · exact h.sources n root r hn (hh _ hr)
      · exact hlink root r hr
    have hsource : ∀ p ∈ ps, ∀ s r, p = .backwardLink s r → s ∈ kept := by
      rintro p hp s r rfl
      exact link_premise hinf hp ▸ hn
    refine .intro origin ?_ (fun p hp => h.has.mpr ⟨hroot, hh p hp, hsource p hp⟩) ?_
    · refine infers_transfer hinf (fun x hx => h.chains root x hroot (hh _ hx))
        (fun hk' hnr ht => ?_) (fun x e _ he => expression?_changes h.changes he)
        (fun x e s _ _ he => expression?_changes h.changes he)
        (fun r s hr hs => (h.supers n root r hn (hh _ hr) s).mp hs) fun d x _ hd => ?_
      · subst hk'
        have halike := (h.chains n _ hn hk).isEmpty (ho.proper _) (ho'.proper _)
        rw [← Bool.not_eq_true] at ht ⊢
        exact fun he => ht (halike.mpr he)
      · obtain ⟨a, ha, hd⟩ := isSelfDisjoint_eq_true.mp hd
        exact isSelfDisjoint_eq_true.mpr ⟨a, disjointness?_changes h.changes ha, hd⟩
    · intro p hp
      refine ih p hp ?_ hroot fun s r he => hsource p hp s r ?_
      · obtain ⟨c, hc, hp⟩ := hh p hp
        exact ⟨c, hc, Context.has_withOrigin.mpr hp⟩
      · cases p with
        | subsumer => cases he
        | _ => exact he

theorem Carries.context (h : Carries o o' kept b b') {c' : Context} (hc' : b' n = some c') :
    ∃ c, b n = some c ∧ c' = c.pruned kept ∧ n ∈ kept := by
  rw [h.board] at hc'
  split at hc'
  · obtain ⟨c, hc, rfl⟩ := Option.map_eq_some_iff.mp hc'
    exact ⟨c, hc, rfl, ‹_›⟩
  · cases hc'

theorem supported_carried (h : Carries o o' kept b b') (ho : o.Attached) (ho' : o'.Attached)
    (hb : b.Supported o) : b'.Supported o' := by
  refine ⟨?_, ?_, ?_, ?_, ?_⟩
  · intro n c' hc'
    obtain ⟨c, hc, rfl, _⟩ := h.context hc'
    rw [(c.pruned_keeps kept).1]
    exact hb.root n c hc
  · intro n c' hc'
    obtain ⟨c, hc, rfl, _⟩ := h.context hc'
    have hsize : o.size ≤ o'.size :=
      preserved_changes (P := fun o' => o.size ≤ o'.size)
        (fun _ _ hs ho => Nat.le_trans ho (size_change hs)) h.changes (Nat.le_refl _)
    exact Nat.lt_of_lt_of_le (hb.node n c hc) hsize
  · intro n c' hc'
    obtain ⟨c, hc, rfl, _⟩ := h.context hc'
    rw [(c.pruned_keeps kept).2.2]
    exact hb.once n c hc
  · intro n k hk
    obtain ⟨hn, hk, hlink⟩ := h.has.mp hk
    obtain ⟨g, hg⟩ := hb.recorded n k hk
    refine ⟨g, h.grounded ho ho' hg ?_ hn ?_⟩
    · obtain ⟨c, hc, hk⟩ := hk
      exact ⟨c, hc, Context.has_withOrigin.mpr hk⟩
    · intro s r he
      cases k with
      | subsumer => cases he
      | _ => exact hlink s r he
  · intro n c' k hc' hk
    obtain ⟨c, hc, rfl, _⟩ := h.context hc'
    rw [Context.pending_pruned (h.quiet n c hc)] at hk
    cases hk

/-- The inferences that can be made for kept roots could be made before. -/
theorem Carries.infers (h : Carries o o' kept b b') (hi : o.Interned) (ho : o.Attached)
    (ho' : o'.Attached) (hb : b.Supported o) (hinf : o'.Infers root ps n k)
    (hp : ∀ p ∈ ps, b'.Has root p) (hc : (b' root).isSome) : o.Infers root ps n k := by
  obtain ⟨c', hc'⟩ := Option.isSome_iff_exists.mp hc
  obtain ⟨c, hc, rfl, hroot⟩ := h.context hc'
  have hp : ∀ p ∈ ps, b.Has root p ∧ ∀ s r, p = .backwardLink s r → s ∈ kept := fun p hm =>
    (h.has.mp (hp p hm)).2
  have hchain : ∀ x, .plain x ∈ ps → (o.rules x).Alike (o'.rules x) := fun x hx =>
    h.chains root x hroot (hp _ hx).1
  refine infers_transfer hinf (fun x hx => (hchain x hx).symm) ?_ ?_ ?_
    (fun r s hr hs => (h.supers n root r ((hp _ hr).2 _ _ rfl) (hp _ hr).1 s).mpr hs) ?_
  · intro _ _ ht
    have htop := h.top root hroot (by simp [hc]) ht
    have halike := (h.chains root _ hroot htop).isEmpty (ho.proper _) (ho'.proper _)
    rw [← Bool.not_eq_true] at ht ⊢
    exact fun he => ht (halike.mp he)
  · intro x e hx he
    have hx : o.Derives root x := hb.means (hp _ hx).1
    obtain ⟨e', he'⟩ := Option.isSome_iff_exists.mp
      (o.isSome_expression?.mpr (derives_lt hi ho hx (hb.node root c hc)))
    rw [he', ← he, expression?_changes h.changes he']
  · intro x e s hx hm he
    obtain ⟨p, hep⟩ := ho.existentials x e (((hchain x hx).existentials e).mpr hm)
    rw [hep, ← he, expression?_changes h.changes hep]
  · intro d x hd ht
    have hx : o.Derives root x ∧ d ∈ (o.rules x).axioms := hb.means (hp _ hd).1
    obtain ⟨a, ha, ht⟩ := isSelfDisjoint_eq_true.mp ht
    obtain ⟨a', hold⟩ : ∃ a', o.disjointness? d = some a' :=
      ⟨_, Array.getElem?_eq_getElem (ho.axioms x d hx.2)⟩
    refine isSelfDisjoint_eq_true.mpr ⟨a, ?_, ht⟩
    rw [hold, ← ha, disjointness?_changes h.changes hold]

theorem Carries.context_of_kept (h : Carries o o' kept b b') (hc : b n = some c) (hn : n ∈ kept) :
    b' n = some (c.pruned kept) := by
  rw [h.board, if_pos hn, hc, Option.map_some]

theorem answered_carried (h : Carries o o' kept b b') (hi : o.Interned) (ho : o.Attached)
    (ho' : o'.Attached) (hb : b.Supported o) (hset : b.Settled o) {c' : Context}
    (hc' : b' root = some c') (hinf : o'.Infers root ps n k) (hp : ∀ p ∈ ps, c'.Has p)
    (hk : ¬ k.IsLink) : b'.Answers n k := by
  obtain ⟨c, hc, rfl, hroot⟩ := h.context hc'
  have hp' : ∀ p ∈ ps, b'.Has root p := fun p hm => ⟨_, hc', hp p hm⟩
  have hold := h.infers hi ho ho' hb hinf hp' (by simp [hc'])
  obtain ⟨d, hd, hans⟩ := hset.answered root c ps n k hc hold
    (fun p hm => (Context.has_pruned.mp (hp p hm)).1) hk
  have hn : n ∈ kept := by
    rcases same_root hinf with rfl | ⟨r, hr⟩ | ⟨r, rfl⟩
    · exact hroot
    · exact (h.has.mp (hp' _ hr)).2.2 n r rfl
    · exact absurd trivial hk
  refine ⟨_, h.context_of_kept hd hn, ?_⟩
  rcases hans with hdoomed | hknows
  · have hcon : d.Has .contradiction := hdoomed.inconsistent (h.quiet n d hd)
    have hcon' : (d.pruned kept).Has .contradiction :=
      Context.has_pruned.mpr ⟨hcon, fun s r he => by cases he⟩
    exact Or.inl (Or.inl hcon')
  · refine Or.inr (Or.inl (Context.has_pruned.mpr ⟨hknows.has (h.quiet n d hd), ?_⟩))
    rintro s r rfl
    exact absurd trivial hk

theorem linked_carried (h : Carries o o' kept b b') (hi : o.Interned) (ho : o.Attached)
    (hb : b.Supported o) (hset : b.Settled o) {c' : Context} {e f : NodeId} {r : PropertyId}
    (hc' : b' n = some c') (he : c'.Has (.plain e))
    (hr : o'.expression? e = some (.existential r f)) :
    (∃ d, b' f = some d ∧ d.Knows (.backwardLink n r)) ∨
    ∃ m s, b'.Has m (.backwardLink n s) ∧ b'.Has m (.propagation r e) ∧ r ∈ o'.supers s := by
  obtain ⟨c, hc, rfl, hn⟩ := h.context hc'
  have he := (Context.has_pruned.mp he).1
  have hx : o.Derives n e := hb.means ⟨c, hc, he⟩
  obtain ⟨e', he'⟩ := Option.isSome_iff_exists.mp
    (o.isSome_expression?.mpr (derives_lt hi ho hx (hb.node n c hc)))
  have hr : o.expression? e = some (.existential r f) := by
    rw [he', ← hr, expression?_changes h.changes he']
  rcases hset.linked n c e r f hc he hr with ⟨d, hd, hl⟩ | ⟨m, s, hl, hprop, hs⟩
  · have hl : d.Has (.backwardLink n r) := hl.has (h.quiet f d hd)
    refine Or.inl ⟨_, h.context_of_kept hd (h.sources n f r hn ⟨d, hd, hl⟩), Or.inl ?_⟩
    refine Context.has_pruned.mpr ⟨hl, ?_⟩
    intro s t heq
    cases heq
    exact hn
  · have hm := h.sources n m s hn hl
    refine Or.inr ⟨m, s, h.has.mpr ⟨hm, hl, ?_⟩, h.has.mpr ⟨hm, hprop, ?_⟩,
      (h.supers n m s hn hl r).mp hs⟩
    · intro s t heq
      cases heq
      exact hn
    · intro s t heq
      cases heq

theorem settled_carried (h : Carries o o' kept b b') (hi : o.Interned) (ho : o.Attached)
    (ho' : o'.Attached) (hb : b.Supported o) (hset : b.Settled o) : b'.Settled o' := by
  refine ⟨?_, ?_⟩
  · intro root c' ps n k hc' hinf hp hk
    exact answered_carried h hi ho ho' hb hset hc' hinf hp hk
  · intro n c' e r f hc' he hr
    exact linked_carried h hi ho hb hset hc' he hr

end Board

end Subsumption
