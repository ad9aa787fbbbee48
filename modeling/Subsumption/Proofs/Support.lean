import Subsumption.Proofs.Firing
import Subsumption.Proofs.Schedule

/-! Soundness of every moment: whatever is recorded or pending has a derivation from what is
recorded. -/
namespace Subsumption

namespace Context

variable {o : Ontology} {c : Context} {k l : Conclusion} {n : NodeId} {order : List PropertyId}

/-- How a context may go on: its facts stay, and what was pending is still pending, recorded, or
dropped because of an inconsistency. -/
structure Evolves (c c' : Context) : Prop where
  root : c'.root = c.root
  once : c.facts.disjoint.Nodup → c'.facts.disjoint.Nodup
  has : ∀ k, c.Has k → c'.Has k
  pending : ∀ k ∈ c.pending, k ∈ c'.pending ∨ c'.Has k ∨
    (c'.inconsistent = true ∧ ∀ s r, k ≠ .backwardLink s r)

theorem has_receive {ks : List Conclusion} : (c.receive ks).Has k ↔ c.Has k := by
  cases k <;> rfl

theorem has_marks {s a : Bool} : ({ c with saturated := s, active := a } : Context).Has k ↔
    c.Has k := by
  cases k <;> rfl

theorem has_rest {rest : List Conclusion} : ({ c with pending := rest } : Context).Has k ↔
    c.Has k := by
  cases k <;> rfl

theorem evolves_receive (ks : List Conclusion) : Evolves c (c.receive ks) :=
  ⟨rfl, fun h => h, fun _ h => has_receive.mpr h, fun _ h => Or.inl (List.mem_append_left _ h)⟩

theorem evolves_derive {rest : List Conclusion} (hp : c.pending = k :: rest)
    (ks : List Conclusion) :
    Evolves c ((({ c with pending := rest } : Context).derive o order k).1.receive ks) := by
  refine ⟨Workspace.root_derive _ o, fun h => nodup_derive h, ?_, ?_⟩
  · intro l h
    exact has_receive.mpr (has_derive_of_has (has_rest.mpr h))
  · intro l h
    rw [hp] at h
    rcases List.mem_cons.mp h with rfl | h
    · by_cases ha : Accepts { c with pending := rest } l
      · exact Or.inr (Or.inl (has_receive.mpr (has_derive_self ha)))
      · have hc : c.inconsistent = true := by
          cases hc : c.inconsistent with
          | true => rfl
          | false => exact absurd (Or.inl hc) ha
        have hi : Has { c with pending := rest } .contradiction := hc
        exact Or.inr (Or.inr ⟨has_derive_of_has hi, fun s r he => ha (Or.inr ⟨s, r, he⟩)⟩)
    · refine Or.inl (List.mem_append_left _ ?_)
      rw [pending_derive]
      exact h

theorem send_ne_nil {ks : List Conclusion} (h : .send n ks ∈ (c.derive o order k).2) : ks ≠ [] := by
  rintro rfl
  cases hc : c.inconsistent with
  | true =>
    simp only [derive, hc, if_true, deriveInconsistent] at h
    split at h
    · split at h <;> simp at h
    · simp at h
  | false =>
    simp only [derive, hc, Bool.false_eq_true, if_false] at h
    cases k with
    | subsumer x g =>
      have hcompose : ∀ f, Effect.send n [] ∉ Deduction.compose o f x := by
        intro f
        simp [Deduction.compose, Deduction.ruleEffects]
      have hdecompose : Effect.send n [] ∉ Deduction.decompose o c.root x := by
        unfold Deduction.decompose
        split <;> simp
      simp only [deriveConsistent] at h
      split at h
      · cases g <;> simp [hcompose, hdecompose] at h
      · simp at h
    | backwardLink s r =>
      simp only [deriveConsistent] at h
      split at h
      · split at h <;> simp_all
      · simp at h
    | propagation r e =>
      simp only [deriveConsistent] at h
      split at h <;> simp at h
    | disjointSubsumer d x =>
      simp only [deriveConsistent] at h
      split at h <;> simp at h
    | forwardLink | contradiction => simp [deriveConsistent] at h

theorem sends_of_addresses (h : (c.derive o order k).2.any (·.addresses n) = true) :
    ∃ l, Sends o c order k n l := by
  obtain ⟨e, he, ha⟩ := List.any_eq_true.mp h
  cases e with
  | send m ks =>
    have hm : m = n := by simpa [Effect.addresses] using ha
    subst hm
    obtain ⟨l, hl⟩ := List.exists_mem_of_ne_nil ks (send_ne_nil he)
    exact ⟨l, Deduction.mem_mail.mpr (Or.inr ⟨ks, he, hl⟩)⟩
  | own | decomposed | applied | refuted => simp [Effect.addresses] at ha

/-- A new context has recorded nothing. -/
theorem has_opened {ks : List Conclusion} : ¬ ((opened o n).receive ks).Has k := by
  rw [has_receive, opened, has_receive]
  cases k <;> simp [Has, fresh, Facts.empty]

/-- It starts from its root and, if there are rules for it, from owl:Thing. -/
theorem infers_opened (h : k ∈ (opened o n).pending) : o.Infers n [] n k := by
  simp only [opened, receive, fresh, RuleRun.initialConclusions, List.nil_append,
    List.mem_cons] at h
  rcases h with rfl | h
  · exact .self
  · split at h
    · rename_i ht
      rw [List.mem_singleton.mp h]
      exact .top (by simpa using ht.2)
    · cases h

end Context

namespace Board

variable {o : Ontology} {b b' : Board} {c c' : Context} {k l : Conclusion} {n : NodeId}

/-- Whether the context of `n` has recorded a conclusion. -/
def Has (b : Board) (n : NodeId) (k : Conclusion) : Prop := ∃ c, b n = some c ∧ c.Has k

/-- Whatever is known has a derivation from recorded facts, and contexts are for nodes. -/
structure Supported (o : Ontology) (b : Board) : Prop where
  root : ∀ n c, b n = some c → c.root = n
  node : ∀ n c, b n = some c → n.index < o.size
  once : ∀ n c, b n = some c → c.facts.disjoint.Nodup
  recorded : ∀ n k, b.Has n k → ∃ g, o.Grounded b.Has n (k.withOrigin g)
  pending : ∀ n c k, b n = some c → k ∈ c.pending → o.Grounded b.Has n k

/-- What was recorded for a node is true according to the rules. -/
theorem Supported.means (hb : b.Supported o) (hk : b.Has n k) : o.Means n k := by
  obtain ⟨g, hg⟩ := hb.recorded n k hk
  exact Ontology.means_withOrigin.mp hg.means

/-! ### Moves -/

/-- The conclusions come to `n` from contexts that process one of theirs. -/
def Mailed (o : Ontology) (b b' : Board) (n : NodeId) (ks : List Conclusion) : Prop :=
  ∀ l ∈ ks, ∃ a order k rest, b a.root = some a ∧
    Context.Sends o { a with pending := rest } order k n l ∧
    ∀ p, (({ a with pending := rest } : Context).derive o order k).1.Has p → b'.Has a.root p

/-- How the context of `n` on the board after a move comes about: there was one, or it is new, or it
has processed its oldest conclusion. In any case conclusions may have been sent to it. -/
inductive Arises (o : Ontology) (b b' : Board) (n : NodeId) : Context → Prop
  | kept {c : Context} {ks} (s a : Bool) (hc : b n = some c) (hm : Mailed o b b' n ks) :
    Arises o b b' n (({ c with saturated := s, active := a } : Context).receive ks)
  | opened {ks} (hn : b n = none) (hr : n.index < o.size ∨ ks ≠ []) (hm : Mailed o b b' n ks) :
    Arises o b b' n ((Context.opened o n).receive ks)
  | processed {c : Context} {order : List PropertyId} {k rest ks} (hn : n = c.root)
    (hc : b n = some c) (hp : c.pending = k :: rest) (hm : Mailed o b b' n ks) :
    Arises o b b' n ((({ c with pending := rest } : Context).derive o order k).1.receive ks)

theorem arises_move (h : Move o b b') (hc' : b' n = some c') : Arises o b b' n c' := by
  have hnothing : Mailed o b b' n [] := by
    intro l hl
    cases hl
  cases h with
  | opens root hr h =>
    rw [h] at hc'
    cases hc : b n with
    | some c =>
      rw [hc, Option.some_or] at hc'
      cases hc'
      simpa using Arises.kept c'.saturated c'.active hc hnothing
    | none =>
      rw [hc, Option.none_or] at hc'
      split at hc'
      · rename_i hn
        subst hn
        cases hc'
        simpa using Arises.opened hc (Or.inl hr) hnothing
      · cases hc'
  | marks h =>
    obtain ⟨s, a, h⟩ := h n
    rw [h] at hc'
    obtain ⟨c, hc, rfl⟩ := Option.map_eq_some_iff.mp hc'
    simpa using Arises.kept s a hc hnothing
  | @processes a k rest order ha hp h =>
    have hproc := h a.root
    rw [if_pos rfl, Option.some_or, Option.map_some] at hproc
    have hmail : Mailed o b b' n
        ((({ a with pending := rest } : Context).derive o order k).2.flatMap (·.mail a.root n)) :=
      fun l hl => ⟨a, order, k, rest, ha, hl, fun p hk => ⟨_, hproc, Context.has_receive.mpr hk⟩⟩
    rw [h] at hc'
    obtain ⟨c, hc, rfl⟩ := Option.map_eq_some_iff.mp hc'
    by_cases hn : n = a.root
    · rw [if_pos hn, Option.some_or] at hc
      cases hc
      exact .processed hn (hn ▸ ha) hp hmail
    · rw [if_neg hn] at hc
      cases hbn : b n with
      | some x =>
        rw [hbn, Option.some_or] at hc
        cases hc
        exact .kept c.saturated c.active hbn hmail
      | none =>
        rw [hbn, Option.none_or] at hc
        split at hc
        · rename_i haddr
          cases hc
          obtain ⟨l, hl⟩ := Context.sends_of_addresses haddr
          exact .opened hbn (Or.inr (List.ne_nil_of_mem hl)) hmail
        · cases hc

/-- What is sent follows by one inference from what its sender has recorded. -/
theorem infers_of_mailed (ho : o.Attached) (hs : o.Closed)
    (hd : ∀ n c, b n = some c → c.facts.disjoint.Nodup) {ks : List Conclusion}
    (hm : Mailed o b b' n ks) (hk : k ∈ ks) :
    ∃ root ps, b root ≠ none ∧ o.Infers root ps n k ∧ ∀ p ∈ ps, b'.Has root p := by
  obtain ⟨a, _, l, rest, ha, hsend, hhas⟩ := hm k hk
  obtain ⟨ps, hi, hps⟩ := Context.infers_of_sends (c := { a with pending := rest }) ho hs
    (hd _ a ha) hsend
  refine ⟨a.root, ps, ?_, hi, fun p hp => hhas p (hps p hp)⟩
  rw [ha]
  exact Option.some_ne_none a

theorem evolves_move (h : Move o b b') (hc : b n = some c) :
    ∃ c', b' n = some c' ∧ c.Evolves c' := by
  cases h with
  | opens root _ h =>
    refine ⟨c, by rw [h, hc, Option.some_or], ?_⟩
    simpa using c.evolves_receive []
  | marks h =>
    obtain ⟨s, a, h⟩ := h n
    exact ⟨{ c with saturated := s, active := a }, by rw [h, hc]; rfl, rfl,
      fun h => h, fun _ h => Context.has_marks.mpr h, fun _ h => Or.inl h⟩
  | @processes a k rest _ ha hp h =>
    by_cases hn : n = a.root
    · subst hn
      cases hc.symm.trans ha
      refine ⟨_, by rw [h, if_pos rfl]; rfl, Context.evolves_derive hp _⟩
    · refine ⟨_, by rw [h, if_neg hn, hc]; rfl, c.evolves_receive _⟩

theorem has_move (h : Move o b b') (hk : b.Has n k) : b'.Has n k := by
  obtain ⟨c, hc, hk⟩ := hk
  obtain ⟨c', hc', he⟩ := evolves_move h hc
  exact ⟨c', hc', he.has k hk⟩

/-- Nothing is recorded but what was pending. -/
theorem recorded_move (h : Move o b b') (hk : b'.Has n k) : b.Has n k ∨
    ∃ c l, b n = some c ∧ l ∈ c.pending ∧ k.withOrigin .plain = l.withOrigin .plain := by
  obtain ⟨c', hc', hk⟩ := hk
  cases arises_move h hc' with
  | kept _ _ hc => exact Or.inl ⟨_, hc, Context.has_marks.mp (Context.has_receive.mp hk)⟩
  | opened => exact absurd hk Context.has_opened
  | @processed c _ l rest _ _ hc hp =>
    rcases Context.has_derive.mp (Context.has_receive.mp hk) with hk | ⟨_, hk⟩
    · exact Or.inl ⟨_, hc, Context.has_rest.mp hk⟩
    · refine Or.inr ⟨c, l, hc, ?_, hk⟩
      rw [hp]
      exact List.mem_cons_self

/-- What becomes pending follows by one inference from what is recorded then. -/
theorem pending_move (ho : o.Attached) (hs : o.Closed)
    (hd : ∀ n c, b n = some c → c.facts.disjoint.Nodup) (h : Move o b b')
    (hc' : b' n = some c') (hk : k ∈ c'.pending) : (∃ c, b n = some c ∧ k ∈ c.pending) ∨
      ∃ root ps, o.Infers root ps n k ∧ ∀ p ∈ ps, b'.Has root p := by
  have hmailed : ∀ {ks}, Mailed o b b' n ks → k ∈ ks →
      ∃ root ps, o.Infers root ps n k ∧ ∀ p ∈ ps, b'.Has root p := by
    intro ks hm hk
    obtain ⟨root, ps, _, hi, hps⟩ := infers_of_mailed ho hs hd hm hk
    exact ⟨root, ps, hi, hps⟩
  cases arises_move h hc' with
  | kept _ _ hc hm =>
    rcases List.mem_append.mp hk with hk | hk
    · exact Or.inl ⟨_, hc, hk⟩
    · exact Or.inr (hmailed hm hk)
  | opened _ _ hm =>
    rcases List.mem_append.mp hk with hk | hk
    · exact Or.inr ⟨n, [], Context.infers_opened hk, by simp⟩
    · exact Or.inr (hmailed hm hk)
  | processed _ hc hp hm =>
    rcases List.mem_append.mp hk with hk | hk
    · rw [Context.pending_derive] at hk
      refine Or.inl ⟨_, hc, ?_⟩
      rw [hp]
      exact List.mem_cons_of_mem _ hk
    · exact Or.inr (hmailed hm hk)

theorem created_move (h : Move o b b') (hn : b n = none) (hc' : b' n = some c') :
    ∃ ks, c' = (Context.opened o n).receive ks := by
  cases arises_move h hc' with
  | opened => exact ⟨_, rfl⟩
  | kept _ _ hc => cases hn.symm.trans hc
  | processed _ hc => cases hn.symm.trans hc

theorem exists_withOrigin (h : k.withOrigin .plain = l.withOrigin .plain) :
    ∃ g, k.withOrigin g = l := by
  cases l with
  | subsumer x g =>
    cases k with
    | subsumer y g' =>
      cases h
      exact ⟨g, rfl⟩
    | _ => cases h
  | _ =>
    refine ⟨.plain, ?_⟩
    rw [h]
    rfl

theorem grounded_move (h : Move o b b') (hk : o.Grounded b.Has n k) : o.Grounded b'.Has n k :=
  hk.mono fun _ _ => has_move h

theorem Supported.recorded_move (hb : b.Supported o) (h : Move o b b') (hk : b'.Has n k) :
    ∃ g, o.Grounded b'.Has n (k.withOrigin g) := by
  rcases Board.recorded_move h hk with hk | ⟨c, l, hc, hl, he⟩
  · obtain ⟨g, hg⟩ := hb.recorded n k hk
    exact ⟨g, grounded_move h hg⟩
  · obtain ⟨g, rfl⟩ := exists_withOrigin he
    exact ⟨g, grounded_move h (hb.pending n c _ hc hl)⟩

theorem grounded_of_infers {root : NodeId} {ps : List Conclusion} {H : NodeId → Conclusion → Prop}
    (hH : ∀ k, H root k → ∃ g, o.Grounded H root (k.withOrigin g)) (hi : o.Infers root ps n k)
    (hp : ∀ p ∈ ps, H root p) : o.Grounded H n k := by
  classical
  refine .intro (fun p => if h : H root p then (hH p h).choose else .plain) hi hp ?_
  intro p hm
  rw [dif_pos (hp p hm)]
  exact (hH p (hp p hm)).choose_spec

/-- A link is supported by an existential of its source. -/
theorem link_source {s : NodeId} {r : PropertyId}
    (hl : o.Grounded b.Has n (.backwardLink s r)) :
    ∃ c e, b s = some c ∧ c.Has (.plain e) ∧ o.expression? e = some (.existential r n) := by
  obtain ⟨origin, hi, hh, _⟩ := hl
  cases hi with
  | part hk =>
    cases hk with
    | backward he =>
      obtain ⟨c, hc, hx⟩ := Ontology.one_premise.mp hh
      exact ⟨c, _, hc, hx, he⟩

/-- Contexts are opened for roots that are submitted or that a conclusion is sent to. -/
theorem node_move (hi : o.Interned) (ho : o.Attached) (hs : o.Closed) (hb : b.Supported o)
    (h : Move o b b') (hn : b n = none) (hc' : b' n = some c') : n.index < o.size := by
  obtain ⟨ks, hr, hm⟩ : ∃ ks, (n.index < o.size ∨ ks ≠ []) ∧ Mailed o b b' n ks := by
    cases arises_move h hc' with
    | opened _ hr hm => exact ⟨_, hr, hm⟩
    | kept _ _ hc => cases hn.symm.trans hc
    | processed _ hc => cases hn.symm.trans hc
  rcases hr with hr | hks
  · exact hr
  obtain ⟨l, hl⟩ := List.exists_mem_of_ne_nil ks hks
  obtain ⟨root, ps, hroot, hinf, hps⟩ := infers_of_mailed ho hs hb.once hm hl
  have hne : n ≠ root := by
    rintro rfl
    exact hroot hn
  -- A link from `n` would need a context of `n`.
  have hlink : ∀ r, ¬ b'.Has root (.backwardLink n r) := by
    intro r hl
    have hsource : ∀ m, ¬ o.Grounded b.Has m (.backwardLink n r) := by
      intro m hg
      obtain ⟨c, e, hc, _⟩ := link_source hg
      rw [hn] at hc
      cases hc
    rcases recorded_move h hl with hl | ⟨c, l, hc, hl, he⟩
    · obtain ⟨g, hg⟩ := hb.recorded _ _ hl
      exact hsource _ hg
    · obtain ⟨g, rfl⟩ := exists_withOrigin he
      exact hsource _ (hb.pending _ c _ hc hl)
  cases hinf with
  | part hk =>
    cases hk with
    | backward he =>
      have := hi.filler _ _ _ he
      have := Ontology.expression?_lt he
      omega
    | first | second | forward => exact absurd rfl hne
  | carried | linked => exact absurd (Ontology.two_premises.mp hps).1 (hlink _)
  | self | top | told | conjunction | propagation | disjoint | bottom | clash | twice =>
    exact absurd rfl hne

theorem once_move (h : Move o b b') (hd : ∀ n c, b n = some c → c.facts.disjoint.Nodup) :
    ∀ n c', b' n = some c' → c'.facts.disjoint.Nodup := by
  intro n c' hc'
  cases hn : b n with
  | some c =>
    obtain ⟨x, hx, he⟩ := evolves_move h hn
    cases hx.symm.trans hc'
    exact he.once (hd n c hn)
  | none =>
    obtain ⟨ks, rfl⟩ := created_move h hn hc'
    exact List.nodup_nil

theorem supported_move (hi : o.Interned) (ho : o.Attached) (hs : o.Closed) (h : Move o b b')
    (hb : b.Supported o) : b'.Supported o := by
  have hrecorded : ∀ n k, b'.Has n k → ∃ g, o.Grounded b'.Has n (k.withOrigin g) :=
    fun n k hk => hb.recorded_move h hk
  refine ⟨?_, ?_, once_move h hb.once, hrecorded, ?_⟩
  · intro n c' hc'
    cases hn : b n with
    | some c =>
      obtain ⟨x, hx, he⟩ := evolves_move h hn
      cases hx.symm.trans hc'
      exact he.root.trans (hb.root n c hn)
    | none =>
      obtain ⟨ks, rfl⟩ := created_move h hn hc'
      rfl
  · intro n c' hc'
    cases hn : b n with
    | some c => exact hb.node n c hn
    | none => exact node_move hi ho hs hb h hn hc'
  · intro n c' k hc' hk
    rcases pending_move ho hs hb.once h hc' hk with ⟨c, hc, hk⟩ | ⟨root, ps, hinf, hps⟩
    · exact grounded_move h (hb.pending n c k hc hk)
    · exact grounded_of_infers (hrecorded root) hinf hps

theorem supported_empty : Supported o fun _ => none := by
  refine ⟨?_, ?_, ?_, ?_, ?_⟩
  · intro n c h
    cases h
  · intro n c h
    cases h
  · intro n c h
    cases h
  · rintro n k ⟨c, h, _⟩
    cases h
  · intro n c k h
    cases h

end Board

end Subsumption
