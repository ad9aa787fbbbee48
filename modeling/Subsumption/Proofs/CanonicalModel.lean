import Subsumption.Proofs.Registration
import Subsumption.Proofs.Soundness

/-! What the rules do not derive fails in an interpretation made of the nodes that they do not
refute. -/
namespace Subsumption

open Ontology

namespace Ontology

variable {o : Ontology} {calls : List Call} {x y m : NodeId}

/-- Nodes that are not refuted have one instance each, themselves. They are related as their derived
existentials say. -/
def canonical (o : Ontology) : Interpretation {n : NodeId // ¬ o.Refutes n} where
  classes name := {n | ∃ x, o.expression? x = some (.named name) ∧ o.Derives n x}
  relations r n m :=
    ∃ e s, o.Derives n e ∧ o.expression? e = some (.existential s m) ∧ r ∈ o.supers s

variable {n : {n : NodeId // ¬ o.Refutes n}}

/-- What is derived of a node is true of it. -/
theorem mem_extension_of_derives (hi : o.Interned) (hs : o.Closed) (hx : x.index < o.size)
    (h : o.Derives n x) : n ∈ o.extension o.canonical x := by
  induction hk : x.index using Nat.strongRecOn generalizing n x with
  | _ k ih =>
    subst hk
    obtain ⟨e, he⟩ := Option.isSome_iff_exists.mp (o.isSome_expression?.mpr hx)
    cases e with
    | named name =>
      rw [extension_named he]
      exact ⟨x, he, h⟩
    | top =>
      rw [extension_top he]
      trivial
    | bottom =>
      have hxb : x = bottom := hi.distinct _ _ _ he hi.bottom
      exact absurd (.bottom (hxb ▸ h)) n.property
    | intersection a b =>
      obtain ⟨ha, hb⟩ := hi.conjuncts x a b he
      rw [extension_intersection hi he]
      exact ⟨ih _ ha (Nat.lt_trans ha hx) (.first h he) rfl,
        ih _ hb (Nat.lt_trans hb hx) (.second h he) rfl⟩
    | existential r f =>
      obtain ⟨hr, hf⟩ := hi.filler x r f he
      have hnot : ¬ o.Refutes f := fun hf => n.property (.filler h he hf)
      refine (mem_extension_existential hi he).mpr ⟨⟨f, hnot⟩, ⟨x, r, h, he, hs.supers_refl hr⟩, ?_⟩
      exact ih _ hf (Nat.lt_trans hf hx) .self rfl

/-! ### Registered nodes -/

theorem positive_of_registrations (hr : o.Registered fun _ => 0) (h : 0 < o.registrations m) :
    0 < o.negative m := by
  have hbal := hr.balanced m
  exact UInt32.lt_iff_toNat_lt.mpr (by rw [UInt32.toNat_zero]; omega)

theorem positive_of_told (hr : o.Registered fun _ => 0) (h : y ∈ (o.rules x).supers) :
    0 < o.negative x := by
  have := List.length_pos_of_mem h
  refine positive_of_registrations hr ?_
  unfold registrations
  omega

theorem positive_part (hr : o.Registered fun _ => 0) (hx : 0 < o.negative x) (h : m ∈ o.parts x) :
    0 < o.negative m := by
  refine positive_of_registrations hr ?_
  have hle := Finset.single_le_sum (s := Finset.range UInt32.size)
    (f := fun i => if 0 < o.negative (.ofIndex i) then (o.parts (.ofIndex i)).count m else 0)
    (fun i _ => Nat.zero_le _) (Finset.mem_range.mpr x.index_lt)
  simp only [NodeId.ofIndex_index, hx, if_true] at hle
  have hcount := List.count_pos_iff.mpr h
  unfold registrations
  omega

theorem isEmpty_eq_false (ho : o.Attached) (h : (o.rules m).supers ≠ [] ∨
    (o.rules m).partners ≠ [] ∨ (o.rules m).existentials ≠ [] ∨ (o.rules m).axioms ≠ []) :
    (o.rules m).isEmpty = false := by
  rw [← Bool.not_eq_true, RuleChain.isEmpty_iff _ (ho.proper m)]
  tauto

/-- A registered node has a rule if it is told of or a part of another; in particular owl:Thing,
which has no rules of its own, is then derived everywhere. -/
theorem isEmpty_of_positive (ho : o.Attached) (hr : o.Registered fun _ => 0)
    (hm : 0 < o.negative m) : (o.rules m).isEmpty = false := by
  apply isEmpty_eq_false ho
  by_cases hs : (o.rules m).supers = []
  · have hbal := hr.balanced m
    have hpos : 0 < (o.negative m).toNat := UInt32.lt_iff_toNat_lt.mp hm
    have hsum : ∑ i ∈ Finset.range UInt32.size,
        (if 0 < o.negative (.ofIndex i) then (o.parts (.ofIndex i)).count m else 0) ≠ 0 := by
      simp only [registrations, hs, List.length_nil] at hbal
      omega
    obtain ⟨i, _, hi⟩ := Finset.exists_ne_zero_of_sum_ne_zero hsum
    obtain ⟨hp, hcount⟩ : 0 < o.negative (.ofIndex i) ∧ (o.parts (.ofIndex i)).count m ≠ 0 := by
      simpa using hi
    have hent := hr.entered _ hp
    rcases mem_parts (List.count_pos_iff.mp (Nat.pos_of_ne_zero hcount)) with
      ⟨a, b, he, rfl | rfl⟩ | ⟨r, he⟩
    · exact Or.inr (Or.inl (List.ne_nil_of_mem (hent.1 _ _ he)))
    · exact Or.inr (Or.inl (List.ne_nil_of_mem (ho.partners _ _ (hent.1 _ _ he)).2))
    · exact Or.inr (Or.inr (Or.inl (List.ne_nil_of_mem (hent.2 _ _ he))))
  · exact Or.inl hs

variable {n : {n : NodeId // ¬ o.Refutes n}}

/-- What is true of a node is derived of it, if it is a named class or occurs on the left. -/
theorem derives_of_mem_extension (hi : o.Interned) (ho : o.Attached)
    (hr : o.Registered fun _ => 0)
    (hx : (∃ name, o.expression? x = some (.named name)) ∨ 0 < o.negative x)
    (h : n ∈ o.extension o.canonical x) : o.Derives n x := by
  induction hk : x.index using Nat.strongRecOn generalizing n x with
  | _ k ih =>
    subst hk
    cases he : o.expression? x with
    | none =>
      rw [extension, he] at h
      exact h.elim
    | some e =>
      cases e with
      | named name =>
        rw [extension_named he] at h
        obtain ⟨y, hy, hd⟩ := h
        exact hi.distinct _ _ _ hy he ▸ hd
      | top =>
        rcases hx with ⟨name, hname⟩ | hpos
        · simp [he] at hname
        · obtain rfl : x = top := hi.distinct _ _ _ he hi.top
          exact .top (isEmpty_of_positive ho hr hpos)
      | bottom =>
        rw [extension_bottom he] at h
        exact h.elim
      | intersection a b =>
        rcases hx with ⟨name, hname⟩ | hpos
        · simp [he] at hname
        · obtain ⟨ha, hb⟩ := hi.conjuncts x a b he
          have hpa := positive_part (m := a) hr hpos (by simp [parts, he, Expression.parts])
          have hpb := positive_part (m := b) hr hpos (by simp [parts, he, Expression.parts])
          rw [extension_intersection hi he] at h
          have hda := ih _ ha (Or.inr hpa) h.1 rfl
          have hdb := ih _ hb (Or.inr hpb) h.2 rfl
          exact .conjunction hda hdb ((hr.entered x hpos).1 a b he)
      | existential r f =>
        rcases hx with ⟨name, hname⟩ | hpos
        · simp [he] at hname
        · obtain ⟨_, hf⟩ := hi.filler x r f he
          have hpf := positive_part (m := f) hr hpos (by simp [parts, he, Expression.parts])
          obtain ⟨y, ⟨e, s, hd, hs, hr'⟩, hy⟩ := (mem_extension_existential hi he).mp h
          have hdf := ih _ hf (Or.inr hpf) hy rfl
          exact .propagation hd hdf hs hr' ((hr.entered x hpos).2 r f he) he

/-- The members of disjointness axioms are classes, or occur on the left of an axiom. -/
def Plain (o : Ontology) (x : NodeId) : Prop :=
  (∃ name, o.expression? x = some (.named name)) ∨ x = top ∨ x = bottom ∨ 0 < o.negative x

theorem derives_member (hi : o.Interned) (ho : o.Attached) (hr : o.Registered fun _ => 0)
    {d : DisjointnessId} (hd : d ∈ (o.rules x).axioms) (hx : o.Plain x)
    (h : n ∈ o.extension o.canonical x) : o.Derives n x := by
  rcases hx with hname | rfl | rfl | hpos
  · exact derives_of_mem_extension hi ho hr (Or.inl hname) h
  · exact .top (isEmpty_eq_false ho (Or.inr (Or.inr (Or.inr (List.ne_nil_of_mem hd)))))
  · rw [extension_bottom hi.bottom] at h
    exact h.elim
  · exact derives_of_mem_extension hi ho hr (Or.inr hpos) h

/-- A node of which two members of one axiom are derived, or one that is listed twice, is refuted. -/
theorem refutes_of_members {d : DisjointnessId} {members : List NodeId} {c a b : NodeId}
    (hd : o.disjointness? d = some ⟨members⟩) (hentry : ∀ x ∈ members, d ∈ (o.rules x).axioms)
    (hab : [a, b].Sublist members) (ha : o.Derives c a) (hb : o.Derives c b) : o.Refutes c := by
  have hma : a ∈ members := hab.subset (by simp)
  have hmb : b ∈ members := hab.subset (by simp)
  by_cases hne : a = b
  · subst hne
    have htwice : 1 < members.count a := List.replicate_sublist_iff.mp hab
    exact .twice ha (hentry a hma) (by
      simpa [Deduction.isSelfDisjoint, hd, Disjointness.isSelfDisjoint] using htwice)
  · exact .clash ha hb hne (hentry a hma) (hentry b hmb)

/-- Two members of one axiom are not derived of any node that is not refuted. -/
theorem disjoint_canonical (hi : o.Interned) (ho : o.Attached) (hr : o.Registered fun _ => 0)
    {d : DisjointnessId} {members : List NodeId} (hd : o.disjointness? d = some ⟨members⟩)
    (hentry : ∀ x ∈ members, d ∈ (o.rules x).axioms) (hm : ∀ x ∈ members, o.Plain x) :
    members.Pairwise fun a b => o.extension o.canonical a ∩ o.extension o.canonical b = ∅ := by
  rw [List.pairwise_iff_forall_sublist]
  intro a b hab
  have ha : a ∈ members := hab.subset (by simp)
  have hb : b ∈ members := hab.subset (by simp)
  rw [Set.eq_empty_iff_forall_notMem]
  rintro n ⟨hna, hnb⟩
  exact n.property (refutes_of_members hd hentry hab
    (derives_member hi ho hr (hentry a ha) (hm a ha) hna)
    (derives_member hi ho hr (hentry b hb) (hm b hb) hnb))

theorem satisfiesTold_canonical (hr : (after calls).Registered fun _ => 0) :
    SatisfiesTold calls (after calls).canonical := by
  have hi := interned_after calls
  have ho := attached_after calls
  have hs := closed_after calls
  refine ⟨?_, ?_⟩
  · intro a b hab n hn
    have hsuper := mem_supers.mpr hab
    have hd := derives_of_mem_extension hi ho hr (Or.inr (positive_of_told hr hsuper)) hn
    exact mem_extension_of_derives hi hs (ho.supers a b hsuper) (.told hd hsuper)
  · intro p q hpq n m h
    obtain ⟨e, s, hd, he, hp⟩ := h
    have htold := ((keeping_after calls).properties _).mpr hpq
    have hq := (hs.supers p q).mpr ⟨(hs.told _ htold).1, .single htold⟩
    exact ⟨e, s, hd, he, hs.supers_trans hp hq⟩

/-- An axiom in force has a number under which its members have entries. -/
theorem entries_of_disjointness (hb : (liveDisjointness calls).length ≤ UInt32.size)
    {members : List NodeId} (hm : members ∈ liveDisjointness calls) :
    ∃ d, (after calls).disjointness? d = some ⟨members⟩ ∧
      ∀ x ∈ members, d ∈ ((after calls).rules x).axioms := by
  have hsize := size_disjointness.trans_le hb
  obtain ⟨i, hi⟩ := mem_disjointness.mp hm
  have hlt : i < UInt32.size := Nat.lt_of_lt_of_le (Array.getElem?_eq_some_iff.mp hi).1 hsize
  have hlook : (after calls).disjointness? (.ofIndex i) = some ⟨members⟩ := by
    rw [disjointness?, DisjointnessId.index_ofIndex hlt, hi]
  exact ⟨_, hlook, fun x hx => ((keeping_after calls).axioms hsize x _).mpr ⟨_, hlook, hx⟩⟩

theorem satisfies_canonical (hfits : Fits calls)
    (hm : ∀ members ∈ liveDisjointness calls, ∀ x ∈ members, (after calls).Plain x) :
    Satisfies calls (after calls).canonical := by
  have hr := registered_after hfits.counts
  have htold := satisfiesTold_canonical hr
  refine ⟨htold.subclasses, htold.subproperties, ?_⟩
  intro members hmembers
  obtain ⟨d, hlook, hentry⟩ := entries_of_disjointness hfits.axioms hmembers
  exact disjoint_canonical (interned_after calls) (attached_after calls) hr hlook hentry
    (hm members hmembers)

end Ontology

namespace Workspace

variable {w v : Workspace} {calls : List Call} {roots : List NodeId} {n : NodeId} {c : Context}

/-- Once nothing is pending, a context without instances was found inconsistent, and any other holds
all its superclasses that are named or occur on the left of an axiom. Counts and numbers are words
of 32 bits, which must not overflow. -/
theorem complete_of_runs (calls : List Call) (hfits : Fits calls)
    (hm : ∀ members ∈ liveDisjointness calls, ∀ x ∈ members, (after calls).Plain x)
    (hw : w.state = State.new (after calls)) (h : Runs w roots v) (hq : v.Quiet)
    (hc : v.contextOf? n = some c) :
    (Unsatisfiable calls n → c.inconsistent = true) ∧
    (¬ Unsatisfiable calls n → ∀ x,
      (∃ name, (after calls).expression? x = some (.named name)) ∨ 0 < (after calls).negative x →
      Entails calls n x → x ∈ c.facts.subsumers) := by
  have hi := interned_after calls
  have ho := attached_after calls
  have hs := closed_after calls
  have hr := registered_after hfits.counts
  have hv := sane_runs (sane_new hw) h
  have hexact := hv.exact hq hc
  have hmodel := satisfies_canonical hfits hm
  have hnode : n.index < (after calls).size := hv.supported.node n c hc
  refine ⟨?_, ?_⟩
  · intro hun
    by_contra hcon
    have hn : ¬ (after calls).Refutes n := fun hn => hcon (hexact.1.mpr hn)
    have hself := mem_extension_of_derives (n := ⟨n, hn⟩) hi hs hnode .self
    rw [hun _ _ hmodel] at hself
    exact hself
  · intro hsat x hx hent
    have hn : ¬ (after calls).Refutes n := fun hn => hsat fun _ _ hI =>
      extension_eq_empty_of_refutes hfits.axioms hI hn
    have hcon : c.inconsistent = false := Bool.eq_false_iff.mpr fun hcon => hn (hexact.1.mp hcon)
    have hself := mem_extension_of_derives (n := ⟨n, hn⟩) hi hs hnode .self
    exact (hexact.2 hcon x).mpr (derives_of_mem_extension hi ho hr hx (hent _ _ hmodel hself))

theorem complete_of_runs_throughFiller :
    ∃ c, Fits throughFiller ∧
      Runs (start (after throughFiller)) [⟨2⟩] (saturate (start (after throughFiller)) ⟨2⟩) ∧
      (saturate (start (after throughFiller)) ⟨2⟩).Quiet ∧
      (saturate (start (after throughFiller)) ⟨2⟩).contextOf? ⟨2⟩ = some c ∧
      Entails throughFiller ⟨2⟩ ⟨7⟩ ∧ ⟨7⟩ ∈ c.facts.subsumers := by
  have hfits : Fits throughFiller := fits_of_length (by decide)
  have hrun := runs_saturate_start (o := after throughFiller) (n := ⟨2⟩) (by decide +kernel)
  have hq : (saturate (start (after throughFiller)) ⟨2⟩).Quiet := quiet_of_store (by decide +kernel)
  have hsome : ((saturate (start (after throughFiller)) ⟨2⟩).contextOf? ⟨2⟩).isSome = true := by
    decide +kernel
  obtain ⟨c, hc⟩ := Option.isSome_iff_exists.mp hsome
  have hi := interned_after throughFiller
  have hlive : liveSubclasses throughFiller = [(⟨6⟩, ⟨7⟩), (⟨3⟩, ⟨5⟩), (⟨2⟩, ⟨4⟩)] := by
    decide +kernel
  have hent : Entails throughFiller ⟨2⟩ ⟨7⟩ := by
    intro D I hI x hx
    obtain ⟨y, hxy, hy⟩ := (mem_extension_existential hi (r := ⟨0⟩) (f := ⟨3⟩)
      (by decide +kernel)).mp (hI.subclasses ⟨2⟩ ⟨4⟩ (by simp [hlive]) hx)
    exact hI.subclasses ⟨6⟩ ⟨7⟩ (by simp [hlive]) ((mem_extension_existential hi (r := ⟨0⟩)
      (f := ⟨5⟩) (by decide +kernel)).mpr
        ⟨y, hxy, hI.subclasses ⟨3⟩ ⟨5⟩ (by simp [hlive]) hy⟩)
  have hsat : ¬ Unsatisfiable throughFiller ⟨2⟩ := by
    intro hun
    have hempty := hun _ _ satisfies_twoPoints
    have hA : (after throughFiller).expression? ⟨2⟩ = some (.named "A") := by decide +kernel
    rw [extension_named hA] at hempty
    exact Set.notMem_empty true (hempty ▸ Set.mem_singleton true)
  refine ⟨c, hfits, hrun, hq, hc, hent, ?_⟩
  refine (complete_of_runs throughFiller hfits ?_ rfl hrun hq hc).2 ?_ _
    (Or.inl ⟨"D", by decide +kernel⟩) hent
  · have hnone : liveDisjointness throughFiller = [] := by decide +kernel
    simp [hnone]
  · exact hsat

end Workspace

end Subsumption
