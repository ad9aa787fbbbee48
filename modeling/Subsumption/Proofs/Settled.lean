import Subsumption.Proofs.Support

/-! Completeness at rest: every inference from recorded facts has been made, or needs not be. -/
namespace Subsumption

namespace Conclusion

/-- Links are made only where an existential is taken apart. -/
def IsLink : Conclusion → Prop
  | .forwardLink _ _ => True
  | .backwardLink _ _ => True
  | _ => False

end Conclusion

namespace Context

variable {c c' : Context} {k : Conclusion}

/-- The context is inconsistent or about to be found so. -/
def Doomed (c : Context) : Prop := c.inconsistent = true ∨ .contradiction ∈ c.pending

/-- The conclusion is recorded or pending, of whatever origin. -/
def Knows (c : Context) (k : Conclusion) : Prop :=
  c.Has k ∨ ∃ l ∈ c.pending, l.withOrigin .plain = k.withOrigin .plain

theorem knows_of_pending (h : k ∈ c.pending) : c.Knows k := Or.inr ⟨k, h, rfl⟩

theorem Knows.has (h : c.Knows k) (hp : c.pending = []) : c.Has k := by
  rcases h with h | ⟨l, hl, _⟩
  · exact h
  · rw [hp] at hl
    cases hl

theorem Doomed.inconsistent (h : c.Doomed) (hp : c.pending = []) : c.inconsistent = true := by
  rcases h with h | h
  · exact h
  · rw [hp] at h
    cases h

theorem Evolves.doomed (he : Evolves c c') (h : c.Doomed) : c'.Doomed := by
  rcases h with h | h
  · exact Or.inl (he.has .contradiction h)
  · rcases he.pending _ h with h | h | ⟨h, _⟩
    · exact Or.inr h
    · exact Or.inl h
    · exact Or.inl h

theorem has_of_alike {l : Conclusion} (he : l.withOrigin .plain = k.withOrigin .plain)
    (h : c.Has l) : c.Has k := by
  rw [← has_withOrigin (g := .plain)] at h ⊢
  rwa [← he]

/-- Only inconsistent contexts forget, and they remember links. -/
theorem Evolves.knows (he : Evolves c c') (h : c.Knows k) :
    c'.Knows k ∨ (c'.inconsistent = true ∧ ∀ s r, k ≠ .backwardLink s r) := by
  rcases h with h | ⟨l, hl, ha⟩
  · exact Or.inl (Or.inl (he.has k h))
  · rcases he.pending l hl with h | h | ⟨h, hk⟩
    · exact Or.inl (Or.inr ⟨l, h, ha⟩)
    · exact Or.inl (Or.inl (has_of_alike ha h))
    · refine Or.inr ⟨h, ?_⟩
      rintro s r rfl
      cases l with
      | backwardLink => exact hk _ _ rfl
      | _ => cases ha

end Context

namespace Board

variable {o : Ontology} {b b' : Board} {c c' : Context} {k l : Conclusion} {n root : NodeId}
  {order : List PropertyId}

/-- The context of `n` knows the conclusion, unless it is doomed. -/
def Answers (b : Board) (n : NodeId) (k : Conclusion) : Prop :=
  ∃ c, b n = some c ∧ (c.Doomed ∨ c.Knows k)

/-- Every inference from recorded facts is answered, if it does not lead to a link. -/
def Answering (o : Ontology) (b : Board) : Prop :=
  ∀ root c ps n k, b root = some c → o.Infers root ps n k → (∀ p ∈ ps, c.Has p) → ¬ k.IsLink →
    b.Answers n k

/-- The existentials of `n` are linked to their fillers, or were carried to it along links from
contexts that hold the fillers. -/
def Linked (o : Ontology) (b : Board) (n : NodeId) : Prop :=
  ∀ c e r f, b n = some c → c.Has (.plain e) → o.expression? e = some (.existential r f) →
    (∃ d, b f = some d ∧ d.Knows (.backwardLink n r)) ∨
    ∃ m s, b.Has m (.backwardLink n s) ∧ b.Has m (.propagation r e) ∧ r ∈ o.supers s

/-- The node is an intersection of recorded subsumers, or an existential that comes along a link. -/
def Composes (o : Ontology) (b : Board) (n x : NodeId) : Prop :=
  (∃ y z, o.expression? x = some (.intersection y z) ∧ b.Has n (.plain y) ∧
    b.Has n (.plain z)) ∨
  ∃ m r s g, o.expression? x = some (.existential s g) ∧ b.Has m (.backwardLink n r) ∧
    b.Has m (.propagation s x) ∧ s ∈ o.supers r

/-- The existential is from the chain of a recorded filler. -/
def Propagates (o : Ontology) (b : Board) (n : NodeId) (s : PropertyId) (e : NodeId) : Prop :=
  ∃ g, b.Has n (.plain g) ∧ e ∈ (o.rules g).existentials ∧
    o.expression? e = some (.existential s g)

/-- Every inference from recorded facts is answered. An existential is linked to its filler, or it
was carried along a link to the context that holds the filler. -/
structure Settled (o : Ontology) (b : Board) : Prop where
  answered : ∀ root c ps n k, b root = some c → o.Infers root ps n k → (∀ p ∈ ps, c.Has p) →
    ¬ k.IsLink → b.Answers n k
  linked : ∀ n c e r f, b n = some c → c.Has (.plain e) →
    o.expression? e = some (.existential r f) →
    (∃ d, b f = some d ∧ d.Knows (.backwardLink n r)) ∨
    ∃ m s, b.Has m (.backwardLink n s) ∧ b.Has m (.propagation r e) ∧ r ∈ o.supers s

theorem answers_move (h : Move o b b') (hk : b.Answers n k) : b'.Answers n k := by
  obtain ⟨c, hc, hk⟩ := hk
  obtain ⟨c', hc', he⟩ := evolves_move h hc
  refine ⟨c', hc', ?_⟩
  rcases hk with hd | hk
  · exact Or.inl (he.doomed hd)
  · rcases he.knows hk with hk | ⟨hi, _⟩
    · exact Or.inr hk
    · exact Or.inl (Or.inl hi)

theorem knows_link_move (h : Move o b b') {s : NodeId} {r : PropertyId}
    (hk : ∃ d, b n = some d ∧ d.Knows (.backwardLink s r)) :
    ∃ d, b' n = some d ∧ d.Knows (.backwardLink s r) := by
  obtain ⟨c, hc, hk⟩ := hk
  obtain ⟨c', hc', he⟩ := evolves_move h hc
  exact ⟨c', hc', (he.knows hk).resolve_right fun ⟨_, h⟩ => h s r rfl⟩

/-- What a context sends while it processes a conclusion arrives. -/
theorem arrives {rest : List Conclusion} {m : NodeId}
    (h : ∀ n, b' n = b.processed o c order k rest n)
    (hl : Context.Sends o { c with pending := rest } order k m l) :
    ∃ d, b' m = some d ∧ l ∈ d.pending := by
  cases hm : b' m with
  | some d =>
    rw [h] at hm
    obtain ⟨x, _, rfl⟩ := Option.map_eq_some_iff.mp hm
    exact ⟨_, rfl, List.mem_append_right _ hl⟩
  | none =>
    rw [h, processed, Option.map_eq_none_iff, Option.or_eq_none_iff] at hm
    obtain ⟨hm, hno⟩ := hm
    rcases Deduction.mem_mail.mp hl with ⟨rfl, _⟩ | ⟨ks, he, _⟩
    · rw [if_pos rfl] at hm
      cases hm
    · rw [if_pos (List.any_eq_true.mpr ⟨_, he, by simp [Effect.addresses]⟩)] at hno
      cases hno

/-- A context that records something new processes a conclusion, and what it sends arrives. -/
theorem new_move (h : Move o b b') (hc : b n = some c) (hc' : b' n = some c') :
    (∀ k, c'.Has k → c.Has k) ∨ ∃ order k rest, n = c.root ∧ c.pending = k :: rest ∧
      (∀ l, c'.Has l → (({ c with pending := rest } : Context).derive o order k).1.Has l) ∧
      ∀ m l, Context.Sends o { c with pending := rest } order k m l →
        ∃ d, b' m = some d ∧ l ∈ d.pending := by
  cases h with
  | opens root _ h =>
    rw [h, hc, Option.some_or] at hc'
    cases hc'
    exact Or.inl fun _ hk => hk
  | marks h =>
    obtain ⟨s, a, h⟩ := h n
    rw [h, hc] at hc'
    cases hc'
    exact Or.inl fun _ hk => Context.has_marks.mp hk
  | @processes a k rest order ha hp h =>
    by_cases hn : n = a.root
    · subst hn
      cases hc.symm.trans ha
      have hproc := h c.root
      rw [if_pos rfl, Option.some_or, Option.map_some] at hproc
      cases hproc.symm.trans hc'
      exact Or.inr ⟨order, k, rest, rfl, hp, fun l hl => Context.has_receive.mp hl,
        fun m l hl => arrives h hl⟩
    · rw [h, if_neg hn, hc, Option.some_or, Option.map_some] at hc'
      cases hc'
      exact Or.inl fun _ hk => Context.has_receive.mp hk

/-- A propagation is supported by the filler of its existential. -/
theorem propagated_from {e : NodeId} {s : PropertyId}
    (h : o.Grounded b.Has n (.propagation s e)) : b.Propagates o n s e := by
  obtain ⟨_, hi, hh, _⟩ := h
  cases hi with
  | part hk => cases hk
  | propagation hp he => exact ⟨_, Ontology.one_premise.mp hh, hp, he⟩

/-- A composed subsumer is inferred from recorded conjuncts, or carried along a link. -/
theorem composes_of_infers (ho : o.Attached) {ps : List Conclusion} {x : NodeId}
    (h : o.Infers root ps n (.composed x)) (hh : ∀ p ∈ ps, b.Has root p)
    (hprop : ∀ s, .propagation s x ∈ ps → b.Propagates o root s x) : b.Composes o n x := by
  cases h with
  | part hk => cases hk
  | @conjunction y z _ hm =>
    obtain ⟨hy, hz⟩ := Ontology.two_premises.mp hh
    rcases (ho.partners y _ hm).1 with he | he
    · exact Or.inl ⟨y, z, he, hy, hz⟩
    · exact Or.inl ⟨z, y, he, hz, hy⟩
  | @carried _ r s e hs =>
    obtain ⟨hl, hp⟩ := Ontology.two_premises.mp hh
    obtain ⟨g, _, _, he⟩ := hprop s (by simp)
    exact Or.inr ⟨_, r, s, g, he, hl, hp, hs⟩

theorem composed_from (ho : o.Attached) {x : NodeId} (h : o.Grounded b.Has n (.composed x)) :
    b.Composes o n x := by
  obtain ⟨origin, hi, hh, hg⟩ := h
  exact composes_of_infers ho hi hh fun s hs => propagated_from (hg (.propagation s x) hs)

/-- A new context starts from its root and, if there are rules for it, from owl:Thing. -/
theorem answered_opened {ps : List Conclusion} {ks : List Conclusion}
    (hc : b root = some ((Context.opened o root).receive ks)) (hi : o.Infers root ps n k)
    (hp : ∀ p ∈ ps, ((Context.opened o root).receive ks).Has p) : b.Answers n k := by
  have hpending : ∀ l ∈ RuleRun.initialConclusions o root, b.Answers root l := fun l hl =>
    ⟨_, hc, Or.inr (Context.knows_of_pending (List.mem_append_left _
      (by simpa [Context.opened, Context.receive, Context.fresh] using hl)))⟩
  have hself : b.Answers root (.plain root) := hpending _ List.mem_cons_self
  cases hi with
  | self => exact hself
  | top h =>
    by_cases ht : n = Ontology.top
    · subst ht
      exact hself
    · exact hpending _ (by simp [RuleRun.initialConclusions, ht, h])
  | told | part | propagation | disjoint | bottom | twice =>
    exact absurd (Ontology.one_premise.mp hp) Context.has_opened
  | conjunction | carried | clash | linked =>
    exact absurd (Ontology.two_premises.mp hp).1 Context.has_opened

/-- A composed subsumer need not be taken apart: its conjuncts are recorded already. -/
theorem recorded_parts {x : NodeId} (hx : b.Composes o root x) (hpart : o.Parts root x n k)
    (hk : ¬ k.IsLink) : b.Has n k := by
  rcases hx with ⟨y, z, hx, hy, hz⟩ | ⟨_, _, s, g, hx, _⟩
  · cases hpart with
    | first he =>
      cases hx.symm.trans he
      exact hy
    | second he =>
      cases hx.symm.trans he
      exact hz
    | forward | backward => exact absurd trivial hk
  · cases hpart with
    | first he | second he => cases hx.symm.trans he
    | forward | backward => exact absurd trivial hk

section
variable (hd : ∀ n c, b n = some c → c.facts.disjoint.Nodup)
  (hcomposed : ∀ n c x, b n = some c → .composed x ∈ c.pending → b.Composes o n x)
include hd hcomposed

theorem answering_move (ho : o.Attached) (hs : o.Closed) (h : Move o b b')
    (hans : b.Answering o) : b'.Answering o := by
  intro root c' ps n k hc' hinf hp hk
  cases hroot : b root with
  | none =>
    obtain ⟨ks, rfl⟩ := created_move h hroot hc'
    exact answered_opened hc' hinf hp
  | some c =>
    by_cases hold : ∀ p ∈ ps, c.Has p
    · exact answers_move h (hans root c ps n k hroot hinf hold hk)
    · rcases new_move h hroot hc' with hsame | ⟨order, l, rest, rfl, hpend, hhas, hsent⟩
      · exact absurd (fun p hm => hsame p (hp p hm)) hold
      · have hold' : ¬ ∀ p ∈ ps, ({ c with pending := rest } : Context).Has p :=
          fun hall => hold fun p hm => Context.has_rest.mp (hall p hm)
        rcases Context.sends_of_infers (c := { c with pending := rest }) ho hs
          (hd _ c hroot) hinf (fun p hm => hhas p (hp p hm)) hold' with
          hsend | hsend | ⟨x, rfl, _, hpart⟩
        · obtain ⟨d, hd, hm⟩ := hsent n k hsend
          exact ⟨d, hd, Or.inr (Context.knows_of_pending hm)⟩
        · obtain ⟨d, hd, hm⟩ := hsent n _ hsend
          exact ⟨d, hd, Or.inl (Or.inr hm)⟩
        · have hx := hcomposed _ c x hroot (by rw [hpend]; exact List.mem_cons_self)
          obtain ⟨d, hd, hm⟩ := has_move h (recorded_parts hx hpart hk)
          exact ⟨d, hd, Or.inr (Or.inl hm)⟩

omit hd in
theorem linked_move (ho : o.Attached) (h : Move o b b') (hlinked : b.Linked o n) :
    b'.Linked o n := by
  intro c' e r f hc' he hr
  cases hn : b n with
  | none =>
    obtain ⟨ks, rfl⟩ := created_move h hn hc'
    exact absurd he Context.has_opened
  | some c =>
    by_cases hold : c.Has (.plain e)
    · rcases hlinked c e r f hn hold hr with hl | ⟨m, s, hl, hp, hrs⟩
      · exact Or.inl (knows_link_move h hl)
      · exact Or.inr ⟨m, s, has_move h hl, has_move h hp, hrs⟩
    · rcases new_move h hn hc' with hsame | ⟨order, l, rest, rfl, hpend, hhas, hsent⟩
      · exact absurd (hsame _ he) hold
      · obtain ⟨hcons, g, rfl⟩ := Context.subsumer_of_new (hhas _ he) fun hx =>
          hold (Context.has_rest.mp hx)
        cases g with
        | plain =>
          have hsend : Context.Sends o { c with pending := rest } order (.plain e) f
              (.backwardLink c.root r) :=
            (Context.sends_subsumer (c := { c with pending := rest }) (ho.proper e) hcons).mpr
              ⟨hold, Or.inl ⟨rfl, .backward hr⟩⟩
          obtain ⟨d, hd, hm⟩ := hsent f _ hsend
          exact Or.inl ⟨d, hd, Context.knows_of_pending hm⟩
        | composed =>
          rcases hcomposed _ c e hn (by rw [hpend]; exact List.mem_cons_self) with
            ⟨y, z, hx, _⟩ | ⟨m, s, t, g, hx, hl, hp, hs⟩
          · cases hx.symm.trans hr
          · cases hx.symm.trans hr
            exact Or.inr ⟨m, s, has_move h hl, has_move h hp, hs⟩

end

theorem settled_move (ho : o.Attached) (hs : o.Closed) (h : Move o b b')
    (hb : b.Supported o) (hset : b.Settled o) : b'.Settled o := by
  have hcomposed : ∀ n c x, b n = some c → .composed x ∈ c.pending → b.Composes o n x :=
    fun n c x hc hx => composed_from ho (hb.pending n c _ hc hx)
  exact ⟨answering_move hb.once hcomposed ho hs h hset.answered,
    fun n => linked_move hcomposed ho h (hset.linked n)⟩

theorem settled_empty : Settled o fun _ => none := by
  refine ⟨?_, ?_⟩
  · intro root c ps n k h
    cases h
  · intro n c e r f h
    cases h

/-! ### At rest -/

/-- What the rules derive about the root, and nothing else, has been found out. -/
structure Exact (o : Ontology) (n : NodeId) (c : Context) : Prop where
  inconsistent : c.inconsistent = true ↔ o.Refutes n
  subsumers : c.inconsistent = false → ∀ x, x ∈ c.facts.subsumers ↔ o.Derives n x

/-- The board is sound and has all answers. About the roots `K` all has been found out before, so
that it does not matter where their existentials are linked. -/
structure Resolved (o : Ontology) (K : NodeId → Prop) (b : Board) : Prop where
  means : ∀ n k, b.Has n k → o.Means n k
  propagated : ∀ n s e, b.Has n (.propagation s e) → b.Propagates o n s e
  answered : b.Answering o
  linked : ∀ n, ¬ K n → b.Linked o n
  exact : ∀ n c, K n → b n = some c → Exact o n c

theorem resolved_of_settled (hb : b.Supported o) (hset : b.Settled o) :
    b.Resolved o fun _ => False := by
  refine ⟨fun n k => hb.means, ?_, hset.answered, fun n _ => hset.linked n, fun _ _ h => h.elim⟩
  intro n s e hp
  obtain ⟨_, hg⟩ := hb.recorded n _ hp
  exact propagated_from hg

section
variable {K : NodeId → Prop} (hi : o.Interned) (hs : o.Closed) (hb : b.Resolved o K)
  (hq : ∀ n c, b n = some c → c.pending = [])

include hb hq in
theorem inferred {ps : List Conclusion} (hc : b root = some c) (hinf : o.Infers root ps n k)
    (hp : ∀ p ∈ ps, c.Has p) (hk : ¬ k.IsLink) :
    ∃ d, b n = some d ∧ (d.inconsistent = false → d.Has k) := by
  obtain ⟨d, hd, h⟩ := hb.answered root c ps n k hc hinf hp hk
  refine ⟨d, hd, ?_⟩
  intro hcons
  rcases h with h | h
  · rw [h.inconsistent (hq n d hd)] at hcons
    cases hcons
  · exact h.has (hq n d hd)

include hb hq in
theorem inferred_here {ps : List Conclusion} (hc : b n = some c) (hcons : c.inconsistent = false)
    (hinf : o.Infers n ps n k) (hp : ∀ p ∈ ps, c.Has p) (hk : ¬ k.IsLink) : c.Has k := by
  obtain ⟨d, hd, h⟩ := inferred hb hq hc hinf hp hk
  cases hc.symm.trans hd
  exact h hcons

include hb hq in
/-- A context with a link from a consistent one is consistent. -/
theorem consistent_target {m : NodeId} {d : Context} {s : PropertyId} (hc : b n = some c)
    (hcons : c.inconsistent = false) (hd : b m = some d) (hl : d.Has (.backwardLink n s)) :
    d.inconsistent = false := by
  cases hdi : d.inconsistent with
  | false => rfl
  | true =>
    have hcon : d.Has .contradiction := hdi
    obtain ⟨c', hc', h⟩ := inferred hb hq hd .linked (Ontology.two_premises.mpr ⟨hl, hcon⟩) id
    cases hc.symm.trans hc'
    have : c.inconsistent = true := h hcons
    rw [hcons] at this
    cases this

include hi hs hb hq in
/-- Some consistent context stands for the filler of an existential: it holds the filler, and all
that holds there is carried back. -/
theorem successor {e f : NodeId} {r : PropertyId} (hK : ¬ K n) (hc : b n = some c)
    (hcons : c.inconsistent = false) (he : c.Has (.plain e))
    (hr : o.expression? e = some (.existential r f)) :
    ∃ m d s, b m = some d ∧ d.inconsistent = false ∧ d.Has (.plain f) ∧
      d.Has (.backwardLink n s) ∧ r ∈ o.supers s := by
  rcases hb.linked n hK c e r f hc he hr with ⟨d, hd, hl⟩ | ⟨m, s, ⟨d, hd, hl⟩, hp, hrs⟩
  · have hl : d.Has (.backwardLink n r) := hl.has (hq f d hd)
    have hcons' := consistent_target hb hq hc hcons hd hl
    have hf : d.Has (.plain f) := inferred_here hb hq hd hcons' .self (by simp) id
    exact ⟨f, d, r, hd, hcons', hf, hl, hs.supers_refl (hi.filler e r f hr).1⟩
  · have hcons' := consistent_target hb hq hc hcons hd hl
    obtain ⟨g, ⟨d', hd', hg⟩, _, he'⟩ := hb.propagated m r e hp
    cases hd.symm.trans hd'
    cases hr.symm.trans he'
    exact ⟨m, d, s, hd, hcons', hg, hl, hrs⟩

include hi hs hb hq in
/-- A consistent context that holds a node holds all that the rules derive from it. -/
theorem complete {x : NodeId} (h : o.Derives n x) : ∀ m c, b m = some c →
    c.inconsistent = false → c.Has (.plain n) → c.Has (.plain x) := by
  induction h with
  | self => exact fun m c _ _ hn => hn
  | top ht =>
    intro m c hc hcons _
    exact inferred_here hb hq hc hcons (.top ht) (by simp) id
  | told _ hx ih =>
    intro m c hc hcons hn
    exact inferred_here hb hq hc hcons (.told hx)
      (Ontology.one_premise.mpr (ih m c hc hcons hn)) id
  | first _ he ih =>
    intro m c hc hcons hn
    exact inferred_here hb hq hc hcons (.part (.first he))
      (Ontology.one_premise.mpr (ih m c hc hcons hn)) id
  | second _ he ih =>
    intro m c hc hcons hn
    exact inferred_here hb hq hc hcons (.part (.second he))
      (Ontology.one_premise.mpr (ih m c hc hcons hn)) id
  | @conjunction _ _ _ y _ _ hm ihx ihy =>
    intro m c hc hcons hn
    have hp := Ontology.two_premises.mpr ⟨ihx m c hc hcons hn, ihy m c hc hcons hn⟩
    have hcomposed : c.Has (.composed y) :=
      inferred_here hb hq hc hcons (.conjunction hm) hp id
    exact hcomposed
  | @propagation _ e f g e' r s _ hg hr hrs hp hr' ihe ihg =>
    intro m c hc hcons hn
    by_cases hK : K m
    · have he : o.Derives m e := hb.means m (.plain e) ⟨c, hc, ihe m c hc hcons hn⟩
      exact ((hb.exact m c hK hc).subsumers hcons e').mpr (.propagation he hg hr hrs hp hr')
    · obtain ⟨m', d, t, hd, hcons', hf, hl, ht⟩ :=
        successor hi hs hb hq hK hc hcons (ihe m c hc hcons hn) hr
      have hg := ihg m' d hd hcons' hf
      have hprop : d.Has (.propagation s e') :=
        inferred_here hb hq hd hcons' (.propagation hp hr') (Ontology.one_premise.mpr hg) id
      obtain ⟨c', hc', h⟩ := inferred hb hq hd (.carried (hs.supers_trans ht hrs))
        (Ontology.two_premises.mpr ⟨hl, hprop⟩) id
      cases hc.symm.trans hc'
      exact h hcons

include hi hs hb hq in
/-- No consistent context holds a node that the rules refute. -/
theorem refuted (h : o.Refutes n) : ∀ m c, b m = some c → c.Has (.plain n) →
    c.inconsistent = true := by
  have hcontra : ∀ m c ps, b m = some c → c.inconsistent = false →
      o.Infers m ps m .contradiction → (∀ p ∈ ps, c.Has p) → False := by
    intro m c ps hc hcons hinf hp
    have : c.inconsistent = true := inferred_here hb hq hc hcons hinf hp id
    rw [hcons] at this
    cases this
  induction h with
  | bottom hx =>
    intro m c hc hn
    by_contra hcons
    rw [Bool.not_eq_true] at hcons
    exact hcontra m c _ hc hcons .bottom
      (Ontology.one_premise.mpr (complete hi hs hb hq hx m c hc hcons hn))
  | clash hx hy hne dx dy =>
    intro m c hc hn
    by_contra hcons
    rw [Bool.not_eq_true] at hcons
    have hwx := inferred_here hb hq hc hcons (.disjoint dx)
      (Ontology.one_premise.mpr (complete hi hs hb hq hx m c hc hcons hn)) id
    have hwy := inferred_here hb hq hc hcons (.disjoint dy)
      (Ontology.one_premise.mpr (complete hi hs hb hq hy m c hc hcons hn)) id
    exact hcontra m c _ hc hcons (.clash hne) (Ontology.two_premises.mpr ⟨hwx, hwy⟩)
  | twice hx dx ht =>
    intro m c hc hn
    by_contra hcons
    rw [Bool.not_eq_true] at hcons
    have hw := inferred_here hb hq hc hcons (.disjoint dx)
      (Ontology.one_premise.mpr (complete hi hs hb hq hx m c hc hcons hn)) id
    exact hcontra m c _ hc hcons (.twice ht) (Ontology.one_premise.mpr hw)
  | @filler _ e _ _ he hr hf ih =>
    intro m c hc hn
    by_contra hcons
    rw [Bool.not_eq_true] at hcons
    have he := complete hi hs hb hq he m c hc hcons hn
    by_cases hK : K m
    · have hd : o.Derives m e := hb.means m (.plain e) ⟨c, hc, he⟩
      rw [(hb.exact m c hK hc).inconsistent.mpr (.filler hd hr hf)] at hcons
      cases hcons
    · obtain ⟨m', d, t, hd, hcons', hf, _, _⟩ := successor hi hs hb hq hK hc hcons he hr
      rw [ih m' d hd hf] at hcons'
      cases hcons'

include hi hs hb hq in
theorem Resolved.exact_of_quiet (hc : b n = some c) : Exact o n c := by
  have hsound : ∀ k, c.Has k → o.Means n k := fun k hk => hb.means n k ⟨c, hc, hk⟩
  have hself : c.inconsistent = false → c.Has (.plain n) := fun hcons =>
    inferred_here hb hq hc hcons .self (by simp) id
  refine ⟨⟨hsound .contradiction, ?_⟩, fun hcons x => ⟨hsound (.plain x), ?_⟩⟩
  · intro h
    cases hcons : c.inconsistent with
    | true => rfl
    | false => exact hcons ▸ refuted hi hs hb hq h n c hc (hself hcons)
  · intro h
    exact complete hi hs hb hq h n c hc hcons (hself hcons)

end

/-- At rest a context has found out what the rules derive about its root, and nothing else. -/
theorem exact_of_quiet (hi : o.Interned) (hs : o.Closed) (hb : b.Supported o) (hset : b.Settled o)
    (hq : ∀ n c, b n = some c → c.pending = []) (hc : b n = some c) :
    (c.inconsistent = true ↔ o.Refutes n) ∧
      (c.inconsistent = false → ∀ x, x ∈ c.facts.subsumers ↔ o.Derives n x) := by
  have h := (resolved_of_settled hb hset).exact_of_quiet hi hs hq hc
  exact ⟨h.inconsistent, h.subsumers⟩

end Board

end Subsumption
