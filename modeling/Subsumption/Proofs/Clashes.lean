import Subsumption.Proofs.CanonicalModel
import Subsumption.Proofs.ChainsFromAxioms

/-! Which clashes of disjoint classes are found. -/
namespace Subsumption.Workspace

open Ontology

variable {w v : Workspace} {calls : List Call} {roots members : List NodeId} {n x y : NodeId}
  {i j : Nat}

theorem pair_sublist (hij : i < j) (hx : members[i]? = some x) (hy : members[j]? = some y) :
    [x, y].Sublist members := by
  obtain ⟨hi, rfl⟩ := List.getElem?_eq_some_iff.mp hx
  obtain ⟨hj, rfl⟩ := List.getElem?_eq_some_iff.mp hy
  exact @List.map_getElem_sublist _ members [⟨i, hi⟩, ⟨j, hj⟩] (by simpa using hij)

/-- If a node is not refuted, it is an instance of itself in the canonical interpretation. There it
is an instance of both members as well, and so they are derived. -/
theorem refutes_of_entails (hr : (after calls).Registered fun _ => 0)
    (hb : (liveDisjointness calls).length ≤ UInt32.size) (hnode : n.index < (after calls).size)
    (hm : members ∈ liveDisjointness calls) (hxy : [x, y].Sublist members)
    (hx : (after calls).Plain x) (hy : (after calls).Plain y)
    (hnx : EntailsTold calls n x) (hny : EntailsTold calls n y) : (after calls).Refutes n := by
  have hi := interned_after calls
  have ho := attached_after calls
  obtain ⟨d, hlook, hentry⟩ := entries_of_disjointness hb hm
  by_contra hn
  have hself := mem_extension_of_derives (n := ⟨n, hn⟩) hi (closed_after calls) hnode .self
  have hmodel := satisfiesTold_canonical hr
  have hdx := derives_member hi ho hr (hentry x (hxy.subset (by simp))) hx (hnx _ _ hmodel hself)
  have hdy := derives_member hi ho hr (hentry y (hxy.subset (by simp))) hy (hny _ _ hmodel hself)
  exact hn (refutes_of_members hlook hentry hxy hdx hdy)

/-- A root that is contained in the members at two positions of a disjointness axiom is found
inconsistent, once nothing is pending, if both members are classes or occur on the left of an axiom.
Telling the disjointness does not register a compound member, and then nothing composes it. -/
theorem clash_found_of_runs (calls : List Call) (hcounted : Counted calls)
    (hb : (liveDisjointness calls).length ≤ UInt32.size)
    (hw : w.state = State.new (after calls)) (h : Runs w roots v) (hq : v.Quiet) (hn : n ∈ roots)
    (hm : members ∈ liveDisjointness calls) (hij : i ≠ j) (hi : members[i]? = some x)
    (hj : members[j]? = some y) (hx : (after calls).Plain x) (hy : (after calls).Plain y)
    (hnx : EntailsTold calls n x) (hny : EntailsTold calls n y) :
    ∃ c, v.contextOf? n = some c ∧ c.inconsistent = true := by
  have hr := hcounted.registered
  have hsane := sane_runs (sane_new hw) h
  obtain ⟨id, hid⟩ := submitted_runs (sane_new hw).coherent h n hn
  obtain ⟨c, hc, _⟩ := hsane.coherent.rooted n id hid
  have hc : v.contextOf? n = some c := (contextOf?_eq hid).trans hc
  have hnode : n.index < (after calls).size := hsane.supported.node n c hc
  refine ⟨c, hc, (hsane.exact hq hc).1.mpr ?_⟩
  rcases Nat.lt_or_gt_of_ne hij with hlt | hgt
  · exact refutes_of_entails hr hb hnode hm (pair_sublist hlt hi hj) hx hy hnx hny
  · exact refutes_of_entails hr hb hnode hm (pair_sublist hgt hj hi) hy hx hny hnx

/-- A ⊓ B and D are disjoint, C ⊑ A, C ⊑ B and C ⊑ D, the latest call first. C is node 6, A ⊓ B is
node 4 and D is node 5. -/
def composedMember : List Call :=
  [.addSubclass ⟨6⟩ ⟨5⟩, .addSubclass ⟨6⟩ ⟨3⟩, .addSubclass ⟨6⟩ ⟨2⟩, .addClass "C",
    .addDisjointness [⟨4⟩, ⟨5⟩], .addClass "D", .addIntersection ⟨2⟩ ⟨3⟩, .addClass "B",
    .addClass "A"]

theorem entails_composedMember (calls : List Call)
    (hexpression : (after calls).expression? ⟨4⟩ = some (.intersection ⟨2⟩ ⟨3⟩))
    (hlive : ∀ a ∈ liveSubclasses composedMember, a ∈ liveSubclasses calls) :
    EntailsTold calls ⟨6⟩ ⟨4⟩ ∧ EntailsTold calls ⟨6⟩ ⟨5⟩ := by
  have hcomposed : liveSubclasses composedMember = [(⟨6⟩, ⟨5⟩), (⟨6⟩, ⟨3⟩), (⟨6⟩, ⟨2⟩)] := by
    decide +kernel
  rw [hcomposed] at hlive
  refine ⟨fun D I hI => ?_, fun D I hI => ?_⟩
  · rw [extension_intersection (interned_after calls) hexpression]
    exact Set.subset_inter (hI.subclasses _ _ (hlive _ (by simp)))
      (hI.subclasses _ _ (hlive _ (by simp)))
  · exact hI.subclasses _ _ (hlive _ (by simp))

/-- The clash is not found: C is contained in A ⊓ B and in D, and its context is consistent. -/
theorem clash_missed_composedMember :
    ∃ c, Counted composedMember ∧ [⟨4⟩, ⟨5⟩] ∈ liveDisjointness composedMember ∧
      Runs (start (after composedMember)) [⟨6⟩] (saturate (start (after composedMember)) ⟨6⟩) ∧
      (saturate (start (after composedMember)) ⟨6⟩).Quiet ∧
      EntailsTold composedMember ⟨6⟩ ⟨4⟩ ∧ EntailsTold composedMember ⟨6⟩ ⟨5⟩ ∧
      (saturate (start (after composedMember)) ⟨6⟩).contextOf? ⟨6⟩ = some c ∧
      c.inconsistent = false := by
  have hrun := runs_saturate_start (o := after composedMember) (n := ⟨6⟩) (by decide +kernel)
  have hq : (saturate (start (after composedMember)) ⟨6⟩).Quiet :=
    quiet_of_store (by decide +kernel)
  have hsome : ((saturate (start (after composedMember)) ⟨6⟩).contextOf? ⟨6⟩).any
      (!·.inconsistent) = true := by
    decide +kernel
  obtain ⟨c, hc, hcon⟩ := (Option.any_eq_true _ _).mp hsome
  obtain ⟨hfirst, hsecond⟩ := entails_composedMember composedMember (by decide +kernel)
    fun _ h => h
  exact ⟨c, counted_of_length (by decide), by decide +kernel, hrun, hq, hfirst, hsecond, hc,
    by simpa using hcon⟩

/-- The same with A ⊓ B ⊑ A, which says nothing new but registers A ⊓ B. -/
def registeredMember : List Call := .addSubclass ⟨4⟩ ⟨2⟩ :: composedMember

theorem clash_found_of_runs_registeredMember :
    ∃ c, (saturate (start (after registeredMember)) ⟨6⟩).contextOf? ⟨6⟩ = some c ∧
      c.inconsistent = true := by
  have hrun := runs_saturate_start (o := after registeredMember) (n := ⟨6⟩) (by decide +kernel)
  have hq : (saturate (start (after registeredMember)) ⟨6⟩).Quiet :=
    quiet_of_store (by decide +kernel)
  obtain ⟨hfirst, hsecond⟩ := entails_composedMember registeredMember
    (by decide +kernel) (by decide +kernel)
  have hm : [⟨4⟩, ⟨5⟩] ∈ liveDisjointness registeredMember := by decide +kernel
  exact clash_found_of_runs (i := 0) (j := 1) registeredMember (counted_of_length (by decide))
    (by decide +kernel) rfl hrun hq (by simp) hm (by decide) rfl rfl (Or.inr (Or.inr (Or.inr (by decide +kernel))))
    (Or.inl ⟨"D", by decide +kernel⟩) hfirst hsecond

end Subsumption.Workspace
