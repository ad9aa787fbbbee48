import Subsumption.Proofs.Resuming

/-! Links that another run has left behind. If they are from roots whose contexts were at rest, they
change nothing but the record of links: what is derived, and what is sent, stays the same. -/
namespace Subsumption

namespace Context

variable {o : Ontology} {c c' : Context} {k : Conclusion} {x : NodeId} {r : PropertyId}
  {sat a : Bool} {links : List (PropertyId × NodeId)} {order : List PropertyId}

/-- The context with other marks and other links. -/
def relinked (c : Context) (sat a : Bool) (links : List (PropertyId × NodeId)) : Context :=
  { c with saturated := sat, active := a, facts := { c.facts with backward := links } }

theorem relinked_receive (ks : List Conclusion) : (c.relinked sat a links).receive ks =
    (c.receive ks).relinked sat (a || !ks.isEmpty) links := rfl

theorem LinksAdded.relinked (h : c.LinksAdded c') (hp : c'.pending = c.pending) :
    c' = c.relinked c'.saturated c'.active c'.facts.backward := by
  obtain ⟨hr, hi, l, hf⟩ := h
  cases c'
  cases c
  simp_all [Context.relinked]

/-- What is derived does not depend on the marks. -/
theorem derive_marked (c : Context) (o : Ontology) (k : Conclusion) :
    (c.relinked sat a c.facts.backward).derive o order k =
      ((c.derive o order k).1.relinked sat a (c.derive o order k).1.facts.backward,
        (c.derive o order k).2) := by
  cases hi : c.inconsistent with
  | true =>
    cases k with
    | backwardLink x r =>
      cases hf : c.facts.insertBackward? r x <;>
        simp [derive, deriveInconsistent, relinked, hi, hf]
    | _ => simp [derive, deriveInconsistent, relinked, hi]
  | false =>
    cases k with
    | subsumer x g =>
      cases hf : c.facts.insertSubsumer? x <;> simp [derive, deriveConsistent, relinked, hi, hf]
    | backwardLink x r =>
      cases hf : c.facts.insertBackward? r x <;> simp [derive, deriveConsistent, relinked, hi, hf]
    | propagation r e =>
      cases hf : c.facts.insertPropagation? r e <;>
        simp [derive, deriveConsistent, relinked, hi, hf]
    | _ => simp [derive, deriveConsistent, relinked, hi]

/-- When the context goes over, only links from kept roots are left of the other links. -/
theorem pruned_relinked (c' : Context) (kept : List NodeId) (h : c' = c.relinked sat a links)
    (hp : c.pending = []) : ∃ sat' a' links',
      c'.pruned kept = (c.pruned kept).relinked sat' a' links' ∧ ∀ l ∈ links', l.2 ∈ kept := by
  refine ⟨(c'.pruned kept).saturated, (c'.pruned kept).active, (c'.pruned kept).facts.backward,
    ?_, ?_⟩
  · subst h
    unfold pruned withoutSources?
    split <;> split <;> simp [relinked, Facts.keepSources, hp]
  · intro l hl
    exact (has_pruned (k := .backwardLink l.2 l.1).mp hl).2 l.2 l.1 rfl

/-- What follows from a link depends on that link alone being recorded or not. -/
theorem derive_relinked_link (c : Context) (o : Ontology)
    (h : (r, x) ∈ links ↔ (r, x) ∈ c.facts.backward) :
    ∃ links', (c.relinked sat a links).derive o order (.backwardLink x r) =
      ((c.derive o order (.backwardLink x r)).1.relinked sat a links',
        (c.derive o order (.backwardLink x r)).2) := by
  have hinsert : ∀ l, (r, x) ∉ l → ({ c.facts with backward := l } : Facts).insertBackward? r x =
      some { c.facts with backward := l ++ [(r, x)] } := by
    intro l hl
    simp [Facts.insertBackward?, Facts.hasBackward, hl]
  have hknown : ∀ l, (r, x) ∈ l →
      ({ c.facts with backward := l } : Facts).insertBackward? r x = none := by
    intro l hl
    simp [Facts.insertBackward?, Facts.hasBackward, hl]
  unfold derive deriveInconsistent deriveConsistent relinked
  dsimp only
  by_cases hm : (r, x) ∈ c.facts.backward
  · refine ⟨links, ?_⟩
    rw [hknown links (h.mpr hm), hknown c.facts.backward hm]
    split <;> rfl
  · refine ⟨links ++ [(r, x)], ?_⟩
    rw [hinsert links (fun hl => hm (h.mp hl)), hinsert c.facts.backward hm]
    split <;> rfl

end Context

namespace Board

variable {o : Ontology} {b b' b₀ b₁' : Board} {c c' : Context} {k : Conclusion} {n : NodeId}
  {order : List PropertyId}

/-- The board `b'` is `b` with other marks, and with more links, all of them from roots with
contexts that were at rest on `b₀`, to such contexts. -/
structure Overlinked (b₀ b b' : Board) : Prop where
  frozen : Frozen b₀ b
  context : ∀ n, ∃ sat a links, b' n = (b n).map (·.relinked sat a links) ∧
    ∀ c, b n = some c →
      (∀ r s, ¬ b₀.Hosts s → ((r, s) ∈ links ↔ (r, s) ∈ c.facts.backward)) ∧
      (¬ b₀.Hosts n → links = c.facts.backward)

/-- Links of the one kind do not change what follows from links of the other. -/
theorem derive_overlinked {sat a : Bool} {links : List (PropertyId × NodeId)}
    (hk : Admits b₀.Hosts n k)
    (hl : ∀ r s, ¬ b₀.Hosts s → ((r, s) ∈ links ↔ (r, s) ∈ c.facts.backward))
    (hn : ¬ b₀.Hosts n → links = c.facts.backward) :
    ∃ links', (c.relinked sat a links).derive o order k =
        ((c.derive o order k).1.relinked sat a links', (c.derive o order k).2) ∧
      (∀ r s, ¬ b₀.Hosts s →
        ((r, s) ∈ links' ↔ (r, s) ∈ (c.derive o order k).1.facts.backward)) ∧
      (¬ b₀.Hosts n → links' = (c.derive o order k).1.facts.backward) := by
  by_cases hr : b₀.Hosts n
  · obtain ⟨s, r, rfl⟩ := hk.link hr
    obtain ⟨links', hd⟩ := Context.derive_relinked_link (a := a) c o (hl r s hk)
    refine ⟨links', hd, ?_, fun h => absurd hr h⟩
    intro r' s' hs'
    have hnew : ∀ d : Context, (d.derive o order (.backwardLink s r)).1.Has (.backwardLink s' r') ↔
        d.Has (.backwardLink s' r') ∨ Conclusion.backwardLink s' r' = .backwardLink s r :=
      fun d => Context.has_derive.trans
        (or_congr_right (and_iff_right (Or.inr ⟨s, r, rfl⟩)))
    have hrelinked := hnew (c.relinked sat a links)
    rw [hd] at hrelinked
    exact hrelinked.trans ((or_congr_left (hl r' s' hs')).trans (hnew c).symm)
  · have hlinks := hn hr
    subst hlinks
    exact ⟨_, c.derive_marked o k, fun _ _ _ => Iff.rfl, fun _ => rfl⟩

theorem overlinked_move (h : Move o b' b₁') (hb : Overlinked b₀ b b') :
    ∃ b₁, Move o b b₁ ∧ Overlinked b₀ b₁ b₁' := by
  cases h with
  | opens root hr h =>
    have hm : Move o b fun n => (b n).or (if root = n then some (.opened o n) else none) :=
      .opens root hr fun _ => rfl
    refine ⟨_, hm, frozen_move hm hb.frozen, ?_⟩
    intro n
    obtain ⟨sat, a, links, hn, hl⟩ := hb.context n
    rw [h, hn]
    cases hc : b n with
    | some c => exact ⟨sat, a, links, rfl, fun c' hc' => hl c' (hc.trans hc')⟩
    | none =>
      split
      · exact ⟨_, _, _, rfl, fun c hc => by cases hc; exact ⟨fun _ _ _ => .rfl, fun _ => rfl⟩⟩
      · exact ⟨sat, a, links, rfl, fun c hc => by cases hc⟩
  | marks h =>
    refine ⟨b, .marks fun n => ?_, hb.frozen, ?_⟩
    · cases b n with
      | none => exact ⟨true, true, rfl⟩
      | some c => exact ⟨c.saturated, c.active, rfl⟩
    · intro n
      obtain ⟨sat, a, links, hn, hl⟩ := hb.context n
      obtain ⟨sat', a', hm⟩ := h n
      exact ⟨sat', a', links, by rw [hm, hn, Option.map_map]; rfl, hl⟩
  | @processes c' k rest order hc' hp h =>
    obtain ⟨sat, a, links, hroot, hl⟩ := hb.context c'.root
    obtain ⟨c, hc, rfl⟩ := Option.map_eq_some_iff.mp (hroot.symm.trans hc')
    have hc : b c.root = some c := hc
    have hk : Admits b₀.Hosts c.root k :=
      hb.frozen.pending c.root c k hc (by rw [show c.pending = _ from hp]; exact List.mem_cons_self)
    have hcopy := @derive_overlinked o b₀ { c with pending := rest } k c.root order sat a links
    obtain ⟨links', hd, hl'⟩ := hcopy hk (hl c hc).1 (hl c hc).2
    have hm : Move o b (processed o b c order k rest) := .processes hc hp fun _ => rfl
    refine ⟨_, hm, frozen_move hm hb.frozen, ?_⟩
    intro n
    unfold processed
    have hn := h n
    rw [show ({ c.relinked sat a links with pending := rest } : Context) =
      ({ c with pending := rest } : Context).relinked sat a links from rfl, hd] at hn
    rw [hn, show (c.relinked sat a links).root = c.root from rfl]
    generalize ({ c with pending := rest } : Context).derive o order k = d at hl'
    by_cases hr : n = c.root
    · rw [if_pos hr, if_pos hr, Option.some_or, Option.some_or]
      refine ⟨sat, _, links', congrArg some (Context.relinked_receive _), ?_⟩
      rintro _ ⟨⟩
      exact ⟨hl'.1, fun h => hl'.2 (hr ▸ h)⟩
    · rw [if_neg hr, if_neg hr]
      obtain ⟨sat', a', links'', hn', hl''⟩ := hb.context n
      rw [hn']
      cases hc' : b n with
      | some x =>
        refine ⟨sat', _, links'', congrArg some (Context.relinked_receive _), ?_⟩
        rintro _ ⟨⟩
        exact hl'' x hc'
      | none =>
        rw [Option.map_none, Option.none_or]
        split
        · refine ⟨_, _, _, rfl, ?_⟩
          rintro _ ⟨⟩
          exact ⟨fun _ _ _ => .rfl, fun _ => rfl⟩
        · exact ⟨true, true, [], rfl, fun _ hc => by cases hc⟩

/-- More links of this kind do not change what has been found out when nothing is pending. -/
theorem Overlinked.exact {K : NodeId → Prop} (hb : Overlinked b₀ b b') (hi : o.Interned)
    (hs : o.Closed) (hr : b.Resolved o K) (hq : ∀ n c, b' n = some c → c.pending = [])
    (hc' : b' n = some c') : Exact o n c' := by
  have hquiet : ∀ n c, b n = some c → c.pending = [] := by
    intro n c hc
    obtain ⟨sat, a, links, hn, _⟩ := hb.context n
    rw [hc, Option.map_some] at hn
    have hp := hq n _ hn
    exact hp
  obtain ⟨sat, a, links, hn, _⟩ := hb.context n
  obtain ⟨c, hc, rfl⟩ := Option.map_eq_some_iff.mp (hn.symm.trans hc')
  exact (hr.exact_of_quiet hi hs hquiet hc).of_same rfl rfl

end Board

end Subsumption
