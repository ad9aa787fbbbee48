import Subsumption.Proofs.Exactness
import Subsumption.Proofs.Semantics

/-! What a workspace has found out is true in every interpretation, at any moment of a run. -/
namespace Subsumption

open Ontology

universe u

variable {D : Type u} {calls : List Call} {I : Interpretation D} {n x : NodeId}

namespace Ontology

theorem extension_subset_of_derives (hI : Satisfies calls I) (h : (after calls).Derives n x) :
    (after calls).extension I n ⊆ (after calls).extension I x := by
  have hi := interned_after calls
  have ho := attached_after calls
  induction h with
  | self => exact subset_rfl
  | top =>
    rw [extension_top hi.top]
    exact Set.subset_univ _
  | told _ hs ih => exact ih.trans (hI.subclasses _ _ (mem_supers.mp hs))
  | first _ he ih =>
    rw [extension_intersection hi he] at ih
    exact ih.trans Set.inter_subset_left
  | second _ he ih =>
    rw [extension_intersection hi he] at ih
    exact ih.trans Set.inter_subset_right
  | conjunction _ _ hm ihx ihy =>
    rcases (ho.partners _ _ hm).1 with he | he
    · rw [extension_intersection hi he]
      exact Set.subset_inter ihx ihy
    · rw [extension_intersection hi he]
      exact Set.subset_inter ihy ihx
  | propagation _ _ hr hs _ hr' ihe ihg =>
    intro a ha
    obtain ⟨b, hb, hf⟩ := (mem_extension_existential hi hr).mp (ihe ha)
    exact (mem_extension_existential hi hr').mpr ⟨b, hI.supers hs hb, ihg hf⟩

/-- An entry of a chain belongs to the axiom of its number, as long as the numbers suffice. -/
theorem extension_eq_empty_of_refutes (hb : (liveDisjointness calls).length ≤ UInt32.size)
    (hI : Satisfies calls I) (h : (after calls).Refutes n) : (after calls).extension I n = ∅ := by
  have hi := interned_after calls
  have hmem := (keeping_after calls).axioms (size_disjointness.trans_le hb)
  induction h with
  | bottom hx =>
    have := extension_subset_of_derives hI hx
    rwa [extension_bottom hi.bottom, Set.subset_empty_iff] at this
  | clash hx hy hne dx dy =>
    obtain ⟨a, ha, hxa⟩ := (hmem _ _).mp dx
    obtain ⟨b, hb, hyb⟩ := (hmem _ _).mp dy
    obtain rfl : a = b := Option.some.inj (ha.symm.trans hb)
    rw [← Set.subset_empty_iff, ← hI.of_ne ha hxa hyb hne]
    exact Set.subset_inter (extension_subset_of_derives hI hx) (extension_subset_of_derives hI hy)
  | @twice c d x hx dx ht =>
    obtain ⟨a, ha, _⟩ := (hmem _ _).mp dx
    have htwice : a.isSelfDisjoint x = true := by
      simpa [Deduction.isSelfDisjoint, ha] using ht
    rw [← Set.subset_empty_iff, ← hI.of_twice ha htwice]
    exact extension_subset_of_derives hI hx
  | filler he hr _ ih =>
    rw [Set.eq_empty_iff_forall_notMem]
    intro a ha
    obtain ⟨b, _, hf⟩ :=
      (mem_extension_existential hi hr).mp (extension_subset_of_derives hI he ha)
    exact (Set.eq_empty_iff_forall_notMem.mp ih) b hf

end Ontology

namespace Workspace

variable {w v : Workspace} {roots : List NodeId} {c : Context}

/-- Whatever a context holds the rules derive, finished or not. -/
theorem Sane.derives (hw : Sane (after calls) w) (hc : w.contextOf? n = some c) :
    (∀ x ∈ c.facts.subsumers, (after calls).Derives n x) ∧
    (c.inconsistent = true → (after calls).Refutes n) := by
  have hmeans : ∀ k, c.Has k → (after calls).Means n k := fun k hk =>
    hw.supported.means ⟨c, hc, hk⟩
  exact ⟨fun x hx => hmeans (.plain x) hx, fun h => hmeans .contradiction h⟩

/-- At every moment of every run, what a context holds is true in all interpretations of the axioms
in force: its root is contained in its subsumers, and is empty if it was found inconsistent. There
must be a number of its own for each disjointness axiom, and numbers are words of 32 bits. -/
theorem sound_of_runs (calls : List Call) (hb : (liveDisjointness calls).length ≤ UInt32.size)
    (hw : w.state = State.new (after calls)) (h : Runs w roots v) (hc : v.contextOf? n = some c)
    (I : Interpretation D) (hI : Satisfies calls I) :
    (∀ x ∈ c.facts.subsumers, (after calls).extension I n ⊆ (after calls).extension I x) ∧
    (c.inconsistent = true → (after calls).extension I n = ∅) := by
  obtain ⟨hderives, hrefutes⟩ := (sane_runs (sane_new hw) h).derives hc
  exact ⟨fun x hx => extension_subset_of_derives hI (hderives x hx),
    fun hc => extension_eq_empty_of_refutes hb hI (hrefutes hc)⟩

/-- A ⊑ ∃r.B, B ⊑ C and ∃r.C ⊑ D, the latest call first; A is node 2 and D node 7. -/
def throughFiller : List Call :=
  [.addSubclass ⟨6⟩ ⟨7⟩, .addSubclass ⟨3⟩ ⟨5⟩, .addSubclass ⟨2⟩ ⟨4⟩, .addClass "D",
    .addExistential ⟨0⟩ ⟨5⟩, .addClass "C", .addExistential ⟨0⟩ ⟨3⟩, .addClass "B", .addClass "A",
    .addProperty "r"]

/-- One instance of A and D, related to one of B and C. -/
def twoPoints : Interpretation Bool where
  classes name := if name = "A" ∨ name = "D" then {true} else {false}
  relations _ x y := x = true ∧ y = false

theorem satisfies_twoPoints : Satisfies throughFiller twoPoints := by
  have hi := interned_after throughFiller
  have hlive : liveSubclasses throughFiller = [(⟨6⟩, ⟨7⟩), (⟨3⟩, ⟨5⟩), (⟨2⟩, ⟨4⟩)] := by
    decide +kernel
  have hnamed : ∀ (n : NodeId) (name : String),
      (after throughFiller).expression? n = some (.named name) →
      (after throughFiller).extension twoPoints n =
        if name = "A" ∨ name = "D" then {true} else {false} := fun n name h => extension_named h
  have hA := hnamed ⟨2⟩ "A" (by decide +kernel)
  have hB := hnamed ⟨3⟩ "B" (by decide +kernel)
  have hC := hnamed ⟨5⟩ "C" (by decide +kernel)
  have hD := hnamed ⟨7⟩ "D" (by decide +kernel)
  refine ⟨?_, ?_, ?_⟩
  · intro a b hab
    rw [hlive] at hab
    simp only [List.mem_cons, Prod.mk.injEq, List.not_mem_nil, or_false] at hab
    rcases hab with ⟨rfl, rfl⟩ | ⟨rfl, rfl⟩ | ⟨rfl, rfl⟩
    · intro x hx
      obtain ⟨y, ⟨hx, _⟩, _⟩ :=
        (mem_extension_existential hi (r := ⟨0⟩) (f := ⟨5⟩) (by decide +kernel)).mp hx
      simp [hD, hx]
    · simp [hB, hC]
    · intro x hx
      have hx : x = true := by simpa [hA] using hx
      exact (mem_extension_existential hi (r := ⟨0⟩) (f := ⟨3⟩) (by decide +kernel)).mpr
        ⟨false, ⟨hx, rfl⟩, by simp [hB]⟩
  · intro r s hrs
    have hnone : liveSubproperties throughFiller = [] := by decide +kernel
    simp [hnone] at hrs
  · intro members hm
    have hnone : liveDisjointness throughFiller = [] := by decide +kernel
    simp [hnone] at hm

theorem sound_of_runs_throughFiller :
    ∃ c, Runs (start (after throughFiller)) [⟨2⟩] (saturate (start (after throughFiller)) ⟨2⟩) ∧
      (saturate (start (after throughFiller)) ⟨2⟩).contextOf? ⟨2⟩ = some c ∧
      Satisfies throughFiller twoPoints ∧ ⟨7⟩ ∈ c.facts.subsumers ∧
      (after throughFiller).extension twoPoints ⟨2⟩ ⊆
        (after throughFiller).extension twoPoints ⟨7⟩ := by
  have hrun := runs_saturate_start (o := after throughFiller) (n := ⟨2⟩) (by decide +kernel)
  have hsome : ((saturate (start (after throughFiller)) ⟨2⟩).contextOf? ⟨2⟩).any
      (·.facts.hasSubsumer ⟨7⟩) = true := by
    decide +kernel
  obtain ⟨c, hc, hd⟩ := (Option.any_eq_true _ _).mp hsome
  have hd : ⟨7⟩ ∈ c.facts.subsumers := by simpa [Facts.hasSubsumer] using hd
  exact ⟨c, hrun, hc, satisfies_twoPoints, hd,
    (sound_of_runs throughFiller (by decide +kernel) rfl hrun hc twoPoints
      satisfies_twoPoints).1 _ hd⟩

end Workspace

end Subsumption
