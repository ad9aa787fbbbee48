import Subsumption.Proofs.Exactness

/-! Links have two ends, recorded in the contexts of their source and of their target. The ends are
sent out together and arrive at different times. -/
namespace Subsumption

namespace Conclusion

variable {k l : Conclusion}

theorem IsLink.eq_of_alike (hk : k.IsLink) (h : l.withOrigin .plain = k.withOrigin .plain) :
    l = k := by
  cases k with
  | forwardLink | backwardLink => cases l <;> cases h; rfl
  | _ => exact hk.elim

end Conclusion

namespace Context

variable {o : Ontology} {c : Context} {order : List PropertyId} {k l : Conclusion} {n : NodeId}

/-- A link is sent by a context that takes a new subsumer apart. -/
theorem parts_of_sends_link (ho : o.Attached) (hk : k.IsLink) (h : Sends o c order l n k) :
    ∃ x, l = .plain x ∧ c.inconsistent = false ∧ x ∉ c.facts.subsumers ∧ o.Parts c.root x n k := by
  cases hc : c.inconsistent with
  | true =>
    by_cases hl : ∃ s r, l = .backwardLink s r
    · obtain ⟨s, r, rfl⟩ := hl
      obtain ⟨_, _, rfl⟩ := (sends_backwardLink_inconsistent hc).mp h
      exact hk.elim
    · exact absurd h (sends_inconsistent hc fun s r he => hl ⟨s, r, he⟩)
  | false =>
    cases l with
    | subsumer x g =>
      obtain ⟨hx, ⟨rfl, hpart⟩ | ⟨_, hfires⟩⟩ := (sends_subsumer (ho.proper x) hc).mp h
      · exact ⟨x, rfl, rfl, hx, hpart⟩
      · cases hfires <;> exact hk.elim
    | forwardLink r t => exact absurd h sends_forwardLink
    | backwardLink s r =>
      obtain ⟨_, _, _, _, _, _, rfl⟩ := (sends_backwardLink hc).mp h
      exact hk.elim
    | propagation r e =>
      obtain ⟨_, rfl, _⟩ := (sends_propagation hc).mp h
      exact hk.elim
    | contradiction =>
      obtain ⟨rfl, _⟩ := (sends_contradiction hc).mp h
      exact hk.elim
    | disjointSubsumer d x =>
      obtain ⟨_, rfl, _⟩ := (sends_disjointSubsumer hc).mp h
      exact hk.elim

theorem not_isLink_of_opened (h : k ∈ (opened o n).pending) : ¬ k.IsLink := by
  cases infers_opened h with
  | self | top => exact id

end Context

namespace Board

variable {o : Ontology} {b b' : Board} {c c' : Context} {k : Conclusion} {n a t : NodeId}
  {r : PropertyId}

/-- The context of `n` knows the conclusion. -/
def Knows (b : Board) (n : NodeId) (k : Conclusion) : Prop := ∃ c, b n = some c ∧ c.Knows k

/-- Where one end of a link is known, so is the other, except that inconsistent contexts forget
where they are linked to. -/
structure Paired (b : Board) : Prop where
  forward : ∀ a t r, b.Knows a (.forwardLink r t) → b.Knows t (.backwardLink a r)
  backward : ∀ a t r, b.Knows t (.backwardLink a r) →
    b.Has a .contradiction ∨ b.Knows a (.forwardLink r t)

/-- Some context takes the existential `x` apart, and all its parts arrive. -/
def Splits (o : Ontology) (b' : Board) (x n : NodeId) (k : Conclusion) : Prop :=
  ∃ root, o.Parts root x n k ∧
    ∀ m j, o.Parts root x m j → ∃ d, b' m = some d ∧ j ∈ d.pending

theorem pending_link_move (ho : o.Attached) (h : Move o b b') (hk : k.IsLink)
    (hc' : b' n = some c') (hp : k ∈ c'.pending) :
    (∃ c, b n = some c ∧ k ∈ c.pending) ∨ ∃ x, Splits o b' x n k := by
  cases h with
  | opens root _ h =>
    rw [h] at hc'
    cases hc : b n with
    | some c =>
      rw [hc, Option.some_or] at hc'
      cases hc'
      exact Or.inl ⟨_, rfl, hp⟩
    | none =>
      rw [hc, Option.none_or] at hc'
      split at hc' <;> cases hc'
      exact absurd hk (Context.not_isLink_of_opened hp)
  | marks h =>
    obtain ⟨s, a, h⟩ := h n
    rw [h] at hc'
    obtain ⟨c, hc, rfl⟩ := Option.map_eq_some_iff.mp hc'
    exact Or.inl ⟨c, hc, hp⟩
  | @processes a l rest _ ha hpend h =>
    have hc := hc'
    rw [h] at hc
    obtain ⟨d, hd, rfl⟩ := Option.map_eq_some_iff.mp hc
    rcases List.mem_append.mp hp with hp | hp
    · by_cases hn : n = a.root
      · rw [if_pos hn, Option.some_or] at hd
        cases hd
        rw [Context.pending_derive] at hp
        refine Or.inl ⟨a, hn ▸ ha, ?_⟩
        rw [hpend]
        exact List.mem_cons_of_mem _ hp
      · rw [if_neg hn] at hd
        cases hbn : b n with
        | some c =>
          rw [hbn, Option.some_or] at hd
          cases hd
          exact Or.inl ⟨_, rfl, hp⟩
        | none =>
          rw [hbn, Option.none_or] at hd
          split at hd <;> cases hd
          exact absurd hk (Context.not_isLink_of_opened hp)
    · obtain ⟨x, rfl, hcons, hx, hpart⟩ :=
        Context.parts_of_sends_link (c := { a with pending := rest }) (l := l) ho hk hp
      refine Or.inr ⟨x, a.root, hpart, fun m j hj => arrives h ?_⟩
      exact (Context.sends_subsumer (ho.proper x) hcons).mpr ⟨hx, Or.inl ⟨rfl, hj⟩⟩

/-- A link becomes known only when an existential is taken apart. -/
theorem knows_link_of_move (ho : o.Attached) (h : Move o b b') (hk : k.IsLink)
    (hn : b'.Knows n k) : b.Knows n k ∨ ∃ x, Splits o b' x n k := by
  obtain ⟨c', hc', hhas | ⟨l, hl, he⟩⟩ := hn
  · rcases recorded_move h ⟨c', hc', hhas⟩ with ⟨c, hc, hhas⟩ | ⟨c, l, hc, hl, he⟩
    · exact Or.inl ⟨c, hc, Or.inl hhas⟩
    · exact Or.inl ⟨c, hc, Or.inr ⟨l, hl, he.symm⟩⟩
  · obtain rfl := hk.eq_of_alike he
    rcases pending_link_move ho h hk hc' hl with ⟨c, hc, hl⟩ | hx
    · exact Or.inl ⟨c, hc, Context.knows_of_pending hl⟩
    · exact Or.inr hx

theorem paired_empty : Paired fun _ => none := by
  refine ⟨?_, ?_⟩
  · rintro a t r ⟨c, hc, _⟩
    cases hc
  · rintro a t r ⟨c, hc, _⟩
    cases hc

theorem paired_move (ho : o.Attached) (h : Move o b b') (hb : b.Paired) : b'.Paired := by
  refine ⟨?forward, ?backward⟩
  case forward =>
    intro a t r hk
    rcases knows_link_of_move (k := .forwardLink r t) ho h trivial hk with
      hk | ⟨x, root, hpart, hall⟩
    · exact knows_link_move h (hb.forward a t r hk)
    · cases hpart with
      | forward he =>
        obtain ⟨d, hd, hp⟩ := hall _ _ (.backward he)
        exact ⟨d, hd, Context.knows_of_pending hp⟩
  case backward =>
    intro a t r hk
    rcases knows_link_of_move (k := .backwardLink a r) ho h trivial hk with
      hk | ⟨x, root, hpart, hall⟩
    · rcases hb.backward a t r hk with hi | ⟨c, hc, hk⟩
      · exact Or.inl (has_move h hi)
      · obtain ⟨c', hc', he⟩ := evolves_move h hc
        rcases he.knows hk with hk | ⟨hi, _⟩
        · exact Or.inr ⟨c', hc', hk⟩
        · exact Or.inl ⟨c', hc', hi⟩
    · cases hpart with
      | backward he =>
        obtain ⟨d, hd, hp⟩ := hall _ _ (.forward he)
        exact Or.inr ⟨d, hd, Context.knows_of_pending hp⟩

end Board

namespace Workspace

open Ontology

variable {w v : Workspace} {calls : List Call} {roots : List NodeId}

theorem paired_runs (hw : w.state = State.new (after calls)) (h : Runs w roots v) :
    Board.Paired v.contextOf? := by
  have ho := attached_after calls
  refine board_runs (coherent_new hw) (fun b b' hm hb => ?_) h ?_
  · rw [hw] at hm
    exact Board.paired_move ho hm hb
  · rw [contextOf?_new hw]
    exact Board.paired_empty

theorem Quiet.has_of_knows (hq : v.Quiet) {n : NodeId} {k : Conclusion}
    (h : Board.Knows v.contextOf? n k) : Board.Has v.contextOf? n k := by
  obtain ⟨c, hc, hk⟩ := h
  exact ⟨c, hc, hk.has (hq n c hc)⟩

/-- Under every schedule, once nothing is pending, a context that is linked to another is linked
from it there. A link that leads to a context comes from one that holds its existential, and which
records the link unless it is inconsistent. -/
theorem links_of_runs (calls : List Call) (hw : w.state = State.new (after calls))
    (h : Runs w roots v) (hq : v.Quiet) (a t : NodeId) (r : PropertyId) :
    (∀ c, v.contextOf? a = some c → (r, t) ∈ c.facts.forward →
      ∃ d, v.contextOf? t = some d ∧ (r, a) ∈ d.facts.backward) ∧
    (∀ d, v.contextOf? t = some d → (r, a) ∈ d.facts.backward →
      ∃ c, v.contextOf? a = some c ∧
        (∃ e ∈ c.facts.subsumers, (after calls).expression? e = some (.existential r t)) ∧
        (c.inconsistent = false → (r, t) ∈ c.facts.forward)) := by
  have hpaired := paired_runs hw h
  have hsane := sane_runs (sane_new hw) h
  refine ⟨?_, ?_⟩
  · intro c hc hf
    exact hq.has_of_knows (hpaired.forward a t r ⟨c, hc, Or.inl hf⟩)
  · intro d hd hl
    obtain ⟨g, hg⟩ := hsane.supported.recorded t (.backwardLink a r) ⟨d, hd, hl⟩
    obtain ⟨c, e, hc, he, hx⟩ := Board.link_source hg
    refine ⟨c, hc, ⟨e, he, hx⟩, ?_⟩
    intro hcons
    rcases hpaired.backward a t r ⟨d, hd, Or.inl hl⟩ with ⟨c', hc', hi⟩ | hk
    · cases hc.symm.trans hc'
      rw [show c.inconsistent = true from hi] at hcons
      cases hcons
    · obtain ⟨c', hc', hf⟩ := hq.has_of_knows hk
      cases hc.symm.trans hc'
      exact hf

/-- A ⊑ owl:Nothing, A ⊑ ∃r.B and C ⊑ ∃r.B, the latest call first; A, B and C are nodes 2 to 4. -/
def twoSources : List Call :=
  [.addSubclass ⟨4⟩ ⟨5⟩, .addSubclass ⟨2⟩ ⟨5⟩, .addSubclass ⟨2⟩ bottom, .addExistential ⟨0⟩ ⟨3⟩,
    .addClass "C", .addClass "B", .addClass "A", .addProperty "r"]

/-- A has been run to completion, and then C has. -/
def bothLinked : Workspace := ((start (after twoSources)).saturate ⟨2⟩).saturate ⟨4⟩

theorem runs_bothLinked : Runs (start (after twoSources)) [⟨4⟩, ⟨2⟩] bothLinked := by
  have hidle : ((start (after twoSources)).saturate ⟨2⟩).state.active = [] := by decide +kernel
  have hfirst := runs_saturate_start (o := after twoSources) (n := ⟨2⟩) (by decide +kernel)
  refine hfirst.saturate (coherent_new rfl) ?_ (by decide +kernel)
  intro id hid
  rw [hidle] at hid
  cases hid

/-- Both links are recorded where they lead to. A has been found inconsistent before it could record
its own, which C has. -/
theorem links_of_runs_bothLinked :
    Runs (start (after twoSources)) [⟨4⟩, ⟨2⟩] bothLinked ∧ bothLinked.Quiet ∧
    ∃ a b c, bothLinked.contextOf? ⟨2⟩ = some a ∧ bothLinked.contextOf? ⟨3⟩ = some b ∧
      bothLinked.contextOf? ⟨4⟩ = some c ∧
      b.facts.backward = [(⟨0⟩, ⟨2⟩), (⟨0⟩, ⟨4⟩)] ∧
      a.inconsistent = true ∧ a.facts.forward = [] ∧
      (∃ e ∈ a.facts.subsumers, (after twoSources).expression? e = some (.existential ⟨0⟩ ⟨3⟩)) ∧
      c.inconsistent = false ∧ (⟨0⟩, ⟨3⟩) ∈ c.facts.forward := by
  have hq : bothLinked.Quiet := quiet_of_store (by decide +kernel)
  have ha : bothLinked.contextOf? ⟨2⟩ = some (bothLinked.store[0]?.getD default) := by
    decide +kernel
  have hb : bothLinked.contextOf? ⟨3⟩ = some (bothLinked.store[1]?.getD default) := by
    decide +kernel
  have hc : bothLinked.contextOf? ⟨4⟩ = some (bothLinked.store[2]?.getD default) := by
    decide +kernel
  have hlinks : (bothLinked.store[1]?.getD default).facts.backward = [(⟨0⟩, ⟨2⟩), (⟨0⟩, ⟨4⟩)] := by
    decide +kernel
  have hcons : (bothLinked.store[2]?.getD default).inconsistent = false := by decide +kernel
  obtain ⟨_, hfrom⟩ := links_of_runs twoSources rfl runs_bothLinked hq ⟨2⟩ ⟨3⟩ ⟨0⟩
  obtain ⟨a, ha', hsource, _⟩ := hfrom _ hb (by simp [hlinks])
  cases ha.symm.trans ha'
  obtain ⟨_, hfrom⟩ := links_of_runs twoSources rfl runs_bothLinked hq ⟨4⟩ ⟨3⟩ ⟨0⟩
  obtain ⟨c, hc', _, hforward⟩ := hfrom _ hb (by simp [hlinks])
  cases hc.symm.trans hc'
  exact ⟨runs_bothLinked, hq, _, _, _, ha, hb, hc, hlinks, by decide +kernel, by decide +kernel,
    hsource, hcons, hforward hcons⟩

end Workspace

end Subsumption
