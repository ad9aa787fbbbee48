import Subsumption.Proofs.Settled

/-! What a saturation finds out does not depend on its schedule. -/
namespace Subsumption.Workspace

open Ontology

variable {w v : Workspace} {o : Ontology} {calls : List Call} {roots : List NodeId} {n : NodeId}
  {c : Context}

/-- The contexts of a workspace know only what the rules derive, and have nothing left to find out
but what is pending. -/
structure Sane (o : Ontology) (w : Workspace) : Prop where
  ontology : w.state.ontology = o
  coherent : w.Coherent
  supported : Board.Supported o w.contextOf?
  settled : Board.Settled o w.contextOf?

theorem contextOf?_new (hw : w.state = State.new o) : w.contextOf? = fun _ => none := by
  funext n
  simp [contextOf?, hw, State.new, State.find?]

theorem sane_new (hw : w.state = State.new o) : Sane o w := by
  refine ⟨by rw [hw]; rfl, coherent_new hw, ?_, ?_⟩
  · rw [contextOf?_new hw]
    exact Board.supported_empty
  · rw [contextOf?_new hw]
    exact Board.settled_empty

/-- Runs over an ontology that calls have built keep what is known sane. -/
theorem sane_runs (hw : Sane (after calls) w) (h : Runs w roots v) : Sane (after calls) v := by
  have hi := interned_after calls
  have ho := attached_after calls
  have hs := closed_after calls
  have hk := keeps_runs hw.coherent h
  have hb : Board.Supported (after calls) v.contextOf? ∧ Board.Settled (after calls) v.contextOf? :=
    board_runs (P := fun b => Board.Supported (after calls) b ∧ Board.Settled (after calls) b)
      hw.coherent (fun b b' hm hb => by
        rw [hw.ontology] at hm
        exact ⟨Board.supported_move hi ho hs hm hb.1, Board.settled_move ho hs hm hb.1 hb.2⟩)
      h ⟨hw.supported, hw.settled⟩
  exact ⟨hk.ontology.trans hw.ontology, hk.coherent, hb.1, hb.2⟩

theorem Sane.exact (hw : Sane (after calls) w) (hq : w.Quiet) (hc : w.contextOf? n = some c) :
    (c.inconsistent = true ↔ (after calls).Refutes n) ∧
    (c.inconsistent = false → ∀ x, x ∈ c.facts.subsumers ↔ (after calls).Derives n x) :=
  Board.exact_of_quiet (interned_after calls) (closed_after calls) hw.supported hw.settled hq hc

/-- Under every schedule, once nothing is pending, the contexts that were found inconsistent are
those whose roots the rules refute, and all others hold just what the rules derive. -/
theorem exact_of_runs (calls : List Call) (hw : w.state = State.new (after calls))
    (h : Runs w roots v) (hq : v.Quiet) (hc : v.contextOf? n = some c) :
    (c.inconsistent = true ↔ (after calls).Refutes n) ∧
    (c.inconsistent = false → ∀ x, x ∈ c.facts.subsumers ↔ (after calls).Derives n x) :=
  (sane_runs (sane_new hw) h).exact hq hc

/-- A ⊑ ∃r.B and B ⊑ owl:Nothing, the latest call first; A is node 2. -/
def emptyFiller : List Call :=
  [.addSubclass ⟨3⟩ bottom, .addSubclass ⟨2⟩ ⟨4⟩, .addExistential ⟨0⟩ ⟨3⟩, .addClass "B",
    .addClass "A", .addProperty "r"]

theorem exact_of_runs_emptyFiller :
    ∃ c, Runs (start (after emptyFiller)) [⟨2⟩] (saturate (start (after emptyFiller)) ⟨2⟩) ∧
      (saturate (start (after emptyFiller)) ⟨2⟩).Quiet ∧
      (saturate (start (after emptyFiller)) ⟨2⟩).contextOf? ⟨2⟩ = some c ∧
      c.inconsistent = true ∧ (after emptyFiller).Refutes ⟨2⟩ := by
  have hrun := runs_saturate_start (o := after emptyFiller) (n := ⟨2⟩) (by decide +kernel)
  have hq : (saturate (start (after emptyFiller)) ⟨2⟩).Quiet := quiet_of_store (by decide +kernel)
  have hsome : ((saturate (start (after emptyFiller)) ⟨2⟩).contextOf? ⟨2⟩).any
      (·.inconsistent) = true := by
    decide +kernel
  obtain ⟨c, hc, hi⟩ := (Option.any_eq_true _ _).mp hsome
  exact ⟨c, hrun, hq, hc, hi, (exact_of_runs emptyFiller rfl hrun hq hc).1.mp hi⟩

end Subsumption.Workspace
