import Subsumption.Proofs.Firing

/-! Closed sets of roots. As long as nothing but links from outside comes to the roots of a set,
what is known about them does not change, and whatever is sent anywhere is of the same kind. -/
namespace Subsumption

variable {R P : NodeId → Prop} {o : Ontology} {c c' c'' : Context} {n source : NodeId}
  {r : PropertyId} {k : Conclusion} {order : List PropertyId}

/-- A conclusion that may come to a root while the set is closed: to the roots of the set only links
come, and no link comes from a root of the set. -/
def Admits (R : NodeId → Prop) (n : NodeId) : Conclusion → Prop
  | .backwardLink source _ => ¬ R source
  | _ => ¬ R n

theorem Admits.link (h : Admits R n k) (hn : R n) : ∃ source r, k = .backwardLink source r := by
  cases k with
  | backwardLink source r => exact ⟨source, r, rfl⟩
  | _ => exact absurd hn h

theorem Admits.of_not (hn : ¬ R n) (h : ∀ source r, k = .backwardLink source r → ¬ R source) :
    Admits R n k := by
  cases k with
  | backwardLink source r => exact h source r rfl
  | _ => exact hn

namespace Effect

/-- The effect, in the context of `self`, only sends what may come. -/
def Admitted (R : NodeId → Prop) (self : NodeId) : Effect → Prop
  | .own k => Admits R self k
  | .send root ks => ∀ k ∈ ks, Admits R root k
  | _ => True

end Effect

namespace Deduction

theorem admitted_decompose {root : NodeId} (hn : ¬ R root) (x : NodeId) :
    ∀ e ∈ decompose o root x, e.Admitted R root := by
  unfold decompose
  split <;> simp [Effect.Admitted, Admits, hn, Conclusion.plain]

theorem admitted_ruleConclusions {f : Facts} {x : NodeId} {rule : Rule} (hn : ¬ R n) :
    ∀ k ∈ ruleConclusions o f x rule, Admits R n k := by
  intro k hk
  refine Admits.of_not hn ?_
  rintro source r rfl
  cases rule with
  | contradiction | told | conjunction | disjointness =>
    simp [ruleConclusions, Conclusion.plain, Conclusion.composed] at hk
  | propagation es =>
    obtain ⟨e, _, he⟩ := List.mem_flatMap.mp hk
    unfold propagationOf at he
    split at he <;> simp at he

theorem admitted_compose {f : Facts} {x : NodeId} (hn : ¬ R n) :
    ∀ e ∈ compose o f x, e.Admitted R n := by
  intro e he
  obtain ⟨rule, _, he⟩ := List.mem_flatMap.mp he
  rcases List.mem_append.mp he with he | he
  · obtain ⟨k, hk, rfl⟩ := List.mem_map.mp he
    exact admitted_ruleConclusions hn k hk
  · rw [List.mem_singleton.mp he]
    trivial

end Deduction

namespace Context

open Deduction

/-- Links alone have been added. -/
structure LinksAdded (c c' : Context) : Prop where
  root : c'.root = c.root
  inconsistent : c'.inconsistent = c.inconsistent
  facts : ∃ links, c'.facts = { c.facts with backward := c.facts.backward ++ links }

theorem LinksAdded.refl (c : Context) : c.LinksAdded c := ⟨rfl, rfl, [], by simp⟩

theorem LinksAdded.trans (h : c.LinksAdded c') (h' : c'.LinksAdded c'') : c.LinksAdded c'' := by
  obtain ⟨l, hl⟩ := h.facts
  obtain ⟨l', hl'⟩ := h'.facts
  exact ⟨h'.root.trans h.root, h'.inconsistent.trans h.inconsistent, l ++ l', by simp [hl', hl]⟩

/-- Links alone have been added, from sources of the given kind. -/
structure LinksFrom (P : NodeId → Prop) (c c' : Context) : Prop where
  root : c'.root = c.root
  inconsistent : c'.inconsistent = c.inconsistent
  facts : ∃ links, c'.facts = { c.facts with backward := c.facts.backward ++ links } ∧
    ∀ l ∈ links, P l.2

theorem LinksFrom.linksAdded (h : LinksFrom P c c') : c.LinksAdded c' := by
  obtain ⟨links, hf, _⟩ := h.facts
  exact ⟨h.root, h.inconsistent, links, hf⟩

theorem LinksFrom.refl (c : Context) : LinksFrom P c c := ⟨rfl, rfl, [], by simp⟩

theorem LinksFrom.trans (h : LinksFrom P c c') (h' : LinksFrom P c' c'') : LinksFrom P c c'' := by
  obtain ⟨l, hf, hl⟩ := h.facts
  obtain ⟨l', hf', hl'⟩ := h'.facts
  refine ⟨h'.root.trans h.root, h'.inconsistent.trans h.inconsistent, l ++ l', ?_, ?_⟩
  · simp [hf', hf]
  · intro x hx
    exact (List.mem_append.mp hx).elim (hl x) (hl' x)

theorem linksFrom_insertBackward {f : Facts} (hs : P source)
    (h : c.facts.insertBackward? r source = some f) : LinksFrom P c { c with facts := f } := by
  unfold Facts.insertBackward? at h
  split at h <;> cases h
  exact ⟨rfl, rfl, [(r, source)], rfl, by simpa using hs⟩

/-- A link changes nothing but the links. -/
theorem linksFrom_derive (c : Context) (o : Ontology) (r : PropertyId) (hs : P source) :
    LinksFrom P c (c.derive o order (.backwardLink source r)).1 := by
  unfold derive deriveInconsistent deriveConsistent
  split <;> dsimp only <;> split
  · exact linksFrom_insertBackward hs ‹_›
  · exact .refl c
  · exact linksFrom_insertBackward hs ‹_›
  · exact .refl c

theorem linksAdded_derive (c : Context) (o : Ontology) (source : NodeId) (r : PropertyId) :
    c.LinksAdded (c.derive o order (.backwardLink source r)).1 :=
  (linksFrom_derive (P := fun _ => True) c o r trivial).linksAdded

/-- Where no link is recorded from a root of the set, none is after a conclusion that may come. -/
theorem sources_derive (hs : ∀ source r, c.Has (.backwardLink source r) → ¬ R source)
    (hk : Admits R n k) (h : (c.derive o order k).1.Has (.backwardLink source r)) : ¬ R source := by
  rcases has_derive.mp h with h | ⟨_, he⟩
  · exact hs source r h
  · cases k <;> cases he
    exact hk

/-- What follows from a link goes to its source. -/
theorem admitted_link (hs : ¬ R source) :
    ∀ e ∈ (c.derive o order (.backwardLink source r)).2, e.Admitted R c.root := by
  unfold derive deriveInconsistent deriveConsistent
  split <;> dsimp only <;> split
  · simp [Effect.Admitted, Admits, hs]
  · simp
  · split <;> simp [Effect.Admitted, Admits, hs, Conclusion.composed]
  · simp

/-- Outside the set, links from outside alone are recorded, along which more is sent. -/
theorem admitted_outside (hn : ¬ R c.root)
    (hs : ∀ source r, c.Has (.backwardLink source r) → ¬ R source)
    (hk : ∀ source r, k ≠ .backwardLink source r) :
    ∀ e ∈ (c.derive o order k).2, e.Admitted R c.root := by
  have hsources : ∀ source ∈ c.facts.sources order, ¬ R source := by
    intro source h
    obtain ⟨r, hm⟩ := Facts.mem_sources.mp h
    exact hs _ r hm
  intro e he
  unfold derive at he
  split at he
  · cases k <;> first | exact absurd rfl (hk _ _) | cases he
  · cases k with
    | backwardLink => exact absurd rfl (hk _ _)
    | subsumer x origin =>
      simp only [deriveConsistent] at he
      split at he
      · rcases List.mem_append.mp he with he | he
        · cases origin
          · exact admitted_decompose hn x e he
          · cases he
        · exact admitted_compose hn e he
      · cases he
    | forwardLink => cases he
    | propagation relation carry =>
      simp only [deriveConsistent] at he
      split at he
      · rename_i f hf
        obtain ⟨source, hsource, rfl⟩ := List.mem_map.mp he
        obtain ⟨r, _, hr⟩ := mem_reachedSources.mp hsource
        have hback : f.backward = c.facts.backward := by
          unfold Facts.insertPropagation? at hf
          split at hf <;> cases hf
          rfl
        rw [hback] at hr
        simpa [Effect.Admitted, Admits, Conclusion.composed] using hs source r hr
      · cases he
    | contradiction =>
      rcases List.mem_cons.mp he with rfl | he
      · trivial
      · obtain ⟨source, hsource, rfl⟩ := List.mem_map.mp he
        simpa [Effect.Admitted, Admits] using hsources source hsource
    | disjointSubsumer =>
      simp only [deriveConsistent] at he
      split at he
      · rw [List.mem_singleton.mp he]
        exact hn
      · cases he

/-- While the set is closed, whatever is sent may come. -/
theorem admitted_derive (hk : Admits R c.root k)
    (hs : ¬ R c.root → ∀ source r, c.Has (.backwardLink source r) → ¬ R source) :
    ∀ e ∈ (c.derive o order k).2, e.Admitted R c.root := by
  by_cases hlink : ∃ source r, k = .backwardLink source r
  · obtain ⟨source, r, rfl⟩ := hlink
    exact admitted_link hk
  · have hne : ∀ source r, k ≠ .backwardLink source r := fun source r h => hlink ⟨source, r, h⟩
    have hn : ¬ R c.root := fun h => hlink (hk.link h)
    exact admitted_outside hn (hs hn) hne

end Context

end Subsumption
