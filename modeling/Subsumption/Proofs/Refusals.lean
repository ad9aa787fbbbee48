import Subsumption.Proofs.LiveAxioms

/-! Calls that are refused: each call makes its checks in a fixed order, is refused for the first
that fails and for no other reason, and then leaves the ontology alone. -/
namespace Subsumption

/-! ### Edits that come to nothing -/

namespace RuleChain

variable {c : RuleChain} {k : RuleKind} {s : NodeId}

/-- No rule of a proper chain is empty. -/
theorem Proper.prune_eq_self (hc : c.Proper) : c.prune k = c := by
  unfold prune
  cases h : c.find? k with
  | none => rfl
  | some r =>
    have hfilled : r.isEmpty = false := hc.filled r ((find?_eq_some c hc.distinct).mp h).1
    simp [hfilled]

/-- Taking a superclass away that was not told leaves a proper chain as it is: the rule that is
looked at afterwards has not become empty by it, and was not empty before. -/
theorem Proper.eraseSuper_eq_self (hc : c.Proper) (hs : s ∉ c.supers) : c.eraseSuper s = c := by
  have hmodify : c.modify .told (·.eraseSuper s) = c := by
    refine modify_eq_self _ fun r hr => ?_
    have hnot : s ∉ r.supers := by simpa [supers, rule, hr] using hs
    cases r with
    | told supers => exact congrArg Rule.told (List.erase_of_not_mem hnot)
    | _ => rfl
  rw [eraseSuper, hmodify]
  exact hc.prune_eq_self

end RuleChain

namespace Ontology

variable {o : Ontology} {n a b : NodeId} {p : PropertyId} {calls : List Call}
  {members : List NodeId}

theorem modifyRules_eq_self {f : RuleChain → RuleChain} (h : f (o.rules n) = o.rules n) :
    o.modifyRules n f = o := by
  have hnodes : o.nodes.modify n.index (fun x => { x with rules := f x.rules }) = o.nodes := by
    refine Array.ext (by simp) fun i hi _ => ?_
    rw [Array.getElem_modify]
    split
    · rename_i hn
      subst hn
      have hlook : o.nodes[n.index]? = some o.nodes[n.index] := Array.getElem?_eq_getElem _
      have hrules : o.rules n = o.nodes[n.index].rules := by simp [rules, node?, hlook]
      rw [← hrules, h, hrules]
    · rfl
  rw [modifyRules, hnodes]

/-! ### Checks -/

/-- What a call can ask for before it changes anything. -/
inductive Check where
  | node (id : NodeId)
  | property (id : PropertyId)
  /-- So many members are at least two. -/
  | several (count : Nat)
  /-- The axiom `sub ⊑ sup` is in force. -/
  | told (sub sup : NodeId)
deriving DecidableEq

/-- Whether a check succeeds after the calls that have been made. -/
def Check.Passes (calls : List Call) : Check → Prop
  | .node id => id.index < (after calls).size
  | .property id => id.index < (after calls).properties.size
  | .several count => 2 ≤ count
  | .told sub sup => (sub, sup) ∈ liveSubclasses calls

instance (calls : List Call) : DecidablePred (Check.Passes calls)
  | .node id => inferInstanceAs (Decidable (id.index < (after calls).size))
  | .property id => inferInstanceAs (Decidable (id.index < (after calls).properties.size))
  | .several count => inferInstanceAs (Decidable (2 ≤ count))
  | .told sub sup => inferInstanceAs (Decidable ((sub, sup) ∈ liveSubclasses calls))

/-- The reason of the refusal when a check fails. -/
def Check.reason : Check → OntologyError
  | .node id => .unknownNode id
  | .property id => .unknownProperty id
  | .several count => .tooFewMembers count
  | .told sub sup => .noSuchAxiom sub sup

/-- The checks of a call, in the order of its arguments; the number of members comes before them. -/
def Call.checks : Call → List Check
  | .addClass _ | .addProperty _ => []
  | .addIntersection a b => [.node a, .node b]
  | .addExistential property filler => [.property property, .node filler]
  | .addSubProperty sub sup => [.property sub, .property sup]
  | .addSubclass sub sup => [.node sub, .node sup]
  | .removeSubclass sub sup => [.node sub, .node sup, .told sub sup]
  | .addDisjointness members => .several members.length :: members.map .node

/-- The first of the checks that fails. -/
def firstFailing (calls : List Call) (checks : List Check) : Option Check :=
  checks.find? fun check => ¬ check.Passes calls

/-- Why an edit was refused, if it was. -/
def reason? {α : Type} : Except OntologyError α → Option OntologyError
  | .ok _ => none
  | .error reason => some reason

/-- Why a call is refused, if it is. -/
def refusal? (o : Ontology) : Call → Option OntologyError
  | .addClass _ | .addProperty _ => none
  | .addIntersection a b => reason? (o.addIntersection a b).1
  | .addExistential property filler => reason? (o.addExistential property filler).1
  | .addSubProperty sub sup => reason? (o.addSubProperty sub sup).1
  | .addSubclass sub sup => reason? (o.addSubclass sub sup).1
  | .removeSubclass sub sup => reason? (o.removeSubclass sub sup).1
  | .addDisjointness members => reason? (o.addDisjointness members).1

/-! ### The first check that fails -/

theorem firstFailing_of_passes {check : Check} {checks : List Check} (h : check.Passes calls) :
    firstFailing calls (check :: checks) = firstFailing calls checks := by
  simp [firstFailing, h]

theorem firstFailing_of_fails {check : Check} {checks : List Check} (h : ¬ check.Passes calls) :
    firstFailing calls (check :: checks) = some check := by
  simp [firstFailing, h]

section
variable {α : Type} {e : Edit α} {checks : List Check}

/-- An edit that is made after a check makes this one before all others. -/
theorem reason?_guarded {check : Check} {result : Except OntologyError Unit}
    (hpass : check.Passes calls → result = .ok ())
    (hfail : ¬ check.Passes calls → result = .error check.reason)
    (he : reason? e.1 = (firstFailing calls checks).map Check.reason) :
    reason? (o.guarded result e).1 = (firstFailing calls (check :: checks)).map Check.reason := by
  by_cases h : check.Passes calls
  · rw [firstFailing_of_passes h, hpass h]
    exact he
  · rw [firstFailing_of_fails h, hfail h]
    rfl

theorem reason?_checkNode (he : reason? e.1 = (firstFailing calls checks).map Check.reason) :
    reason? (o.guarded ((after calls).checkNode n) e).1 =
      (firstFailing calls (.node n :: checks)).map Check.reason :=
  reason?_guarded (fun h => if_pos h) (fun h => if_neg h) he

theorem reason?_checkProperty (he : reason? e.1 = (firstFailing calls checks).map Check.reason) :
    reason? (o.guarded ((after calls).checkProperty p) e).1 =
      (firstFailing calls (.property p :: checks)).map Check.reason :=
  reason?_guarded (fun h => if_pos h) (fun h => if_neg h) he

theorem reason?_checkNodes (he : reason? e.1 = none) :
    reason? (o.guarded ((after calls).checkNodes members) e).1 =
      (firstFailing calls (members.map .node)).map Check.reason := by
  induction members with
  | nil => exact he
  | cons m rest ih =>
    by_cases hm : (Check.node m).Passes calls
    · have hcheck : (after calls).checkNode m = .ok () := if_pos hm
      rw [List.map_cons, firstFailing_of_passes hm, ← ih, checkNodes, hcheck]
    · have hcheck : (after calls).checkNode m = .error (.unknownNode m) := if_neg hm
      rw [List.map_cons, firstFailing_of_fails hm, checkNodes, hcheck]
      rfl

end

theorem reason?_removeSubclass (calls : List Call) (a b : NodeId) :
    reason? ((after calls).removeSubclass a b).1 =
      (firstFailing calls [.node a, .node b, .told a b]).map Check.reason := by
  refine reason?_checkNode (reason?_checkNode ?_)
  have hlive : ((after calls).rules a).hasSuper b = true ↔ (Check.told a b).Passes calls :=
    (RuleChain.hasSuper_iff _ b).trans mem_supers
  by_cases h : (Check.told a b).Passes calls
  · rw [firstFailing_of_passes h]
    simp only [hlive.mpr h, if_true]
    rfl
  · rw [firstFailing_of_fails h]
    simp only [mt hlive.mp h]
    rfl

theorem reason?_addDisjointness (calls : List Call) (members : List NodeId) :
    reason? ((after calls).addDisjointness members).1 =
      (firstFailing calls (.several members.length :: members.map .node)).map Check.reason := by
  unfold addDisjointness
  by_cases hm : members.length < 2
  · have hfails : ¬ (Check.several members.length).Passes calls := Nat.not_le_of_lt hm
    rw [firstFailing_of_fails hfails, if_pos hm]
    rfl
  · have hpasses : (Check.several members.length).Passes calls := Nat.le_of_not_lt hm
    rw [firstFailing_of_passes hpasses, if_neg hm]
    exact reason?_checkNodes rfl

/-- A call is refused for the first of its checks that fails. -/
theorem refusal?_eq (calls : List Call) (c : Call) :
    (after calls).refusal? c = (firstFailing calls c.checks).map Check.reason := by
  cases c with
  | addClass | addProperty => rfl
  | addIntersection a b => exact reason?_checkNode (reason?_checkNode rfl)
  | addExistential property filler => exact reason?_checkProperty (reason?_checkNode rfl)
  | addSubProperty sub sup => exact reason?_checkProperty (reason?_checkProperty rfl)
  | addSubclass sub sup => exact reason?_checkNode (reason?_checkNode rfl)
  | removeSubclass sub sup => exact reason?_removeSubclass calls sub sup
  | addDisjointness members => exact reason?_addDisjointness calls members

/-! ### What refused calls leave alone -/

/-- If it is refused, the edit leaves the ontology as it was. -/
def Harmless {α : Type} (o : Ontology) (e : Edit α) : Prop := reason? e.1 ≠ none → e.2 = o

theorem harmless_ok {α : Type} (x : α) (o' : Ontology) : Harmless o (.ok x, o') :=
  fun h => absurd rfl h

theorem Harmless.guarded {α : Type} {e : Edit α} (h : Harmless o e)
    (check : Except OntologyError Unit) : Harmless o (o.guarded check e) := by
  unfold Ontology.guarded
  split
  · exact h
  · exact fun _ => rfl

/-- Only the removal of an axiom edits a chain before it is clear that it is refused. -/
theorem harmless_removeSubclass (ho : ∀ n, (o.rules n).Proper) (a b : NodeId) :
    Harmless o (o.removeSubclass a b) := by
  refine Harmless.guarded (Harmless.guarded ?_ _) _
  dsimp only
  split
  · exact harmless_ok _ _
  · rename_i hs
    have hnot : b ∉ (o.rules a).supers := fun h => hs ((RuleChain.hasSuper_iff _ b).mpr h)
    have hsame : o.modifyRules a (·.eraseSuper b) = o :=
      modifyRules_eq_self ((ho a).eraseSuper_eq_self hnot)
    exact fun _ => hsame

theorem harmless_addDisjointness (members : List NodeId) :
    Harmless o (o.addDisjointness members) := by
  unfold addDisjointness
  split
  · exact fun _ => rfl
  · exact (harmless_ok _ _).guarded _

theorem perform_of_refused (ho : ∀ n, (o.rules n).Proper) {c : Call} (h : o.refusal? c ≠ none) :
    o.perform c = o := by
  cases c with
  | addClass | addProperty => exact absurd rfl h
  | addIntersection a b => exact ((harmless_ok _ _).guarded _).guarded _ h
  | addExistential property filler => exact ((harmless_ok _ _).guarded _).guarded _ h
  | addSubProperty sub sup => exact ((harmless_ok _ _).guarded _).guarded _ h
  | addSubclass sub sup => exact ((harmless_ok _ _).guarded _).guarded _ h
  | removeSubclass sub sup => exact harmless_removeSubclass ho sub sup h
  | addDisjointness members => exact harmless_addDisjointness members h

/-- Whatever was called before, a call is refused just if one of its checks fails, and for the first
one that does; then the ontology is what it was. -/
theorem refused_calls_change_nothing (calls : List Call) (c : Call) :
    (after calls).refusal? c = (firstFailing calls c.checks).map Check.reason ∧
    ((after calls).refusal? c ≠ none → (after calls).perform c = after calls) :=
  ⟨refusal?_eq calls c, perform_of_refused (attached_after calls).proper⟩

/-- A ⊑ B has been told and taken back, A ⊑ C is in force. -/
def takenBack : List Call :=
  [.removeSubclass ⟨2⟩ ⟨3⟩, .addSubclass ⟨2⟩ ⟨4⟩, .addSubclass ⟨2⟩ ⟨3⟩, .addClass "C",
    .addClass "B", .addClass "A"]

/-- To take A ⊑ B back again is refused, and of two unknown members the first one is reported. -/
theorem refused_calls_change_nothing_takenBack :
    (after takenBack).refusal? (.removeSubclass ⟨2⟩ ⟨3⟩) = some (.noSuchAxiom ⟨2⟩ ⟨3⟩) ∧
    (after takenBack).perform (.removeSubclass ⟨2⟩ ⟨3⟩) = after takenBack ∧
    (after takenBack).refusal? (.addDisjointness [⟨2⟩, ⟨9⟩, ⟨8⟩]) = some (.unknownNode ⟨9⟩) ∧
    (after takenBack).perform (.addDisjointness [⟨2⟩, ⟨9⟩, ⟨8⟩]) = after takenBack := by
  obtain ⟨hremove, hsame⟩ := refused_calls_change_nothing takenBack (.removeSubclass ⟨2⟩ ⟨3⟩)
  obtain ⟨hmembers, hsame'⟩ :=
    refused_calls_change_nothing takenBack (.addDisjointness [⟨2⟩, ⟨9⟩, ⟨8⟩])
  have hfirst : firstFailing takenBack (Call.removeSubclass ⟨2⟩ ⟨3⟩).checks =
      some (.told ⟨2⟩ ⟨3⟩) := by
    decide +kernel
  have hfirst' : firstFailing takenBack (Call.addDisjointness [⟨2⟩, ⟨9⟩, ⟨8⟩]).checks =
      some (.node ⟨9⟩) := by
    decide +kernel
  rw [hfirst] at hremove
  rw [hfirst'] at hmembers
  refine ⟨hremove, hsame ?_, hmembers, hsame' ?_⟩
  · simp [hremove]
  · simp [hmembers]

end Ontology

end Subsumption
