import Subsumption.Proofs.Changes
import Subsumption.Proofs.Termination

/-! A pass comes to its end whichever of the waiting contexts it takes next. What is left to do does
not depend on the order of the queue, and each step takes something away from it. -/
namespace Subsumption

/-- How far a pass is: it has a context in hand or none, or the flag, or the empty queue, has ended
it. -/
inductive Stage
  | holding (id : ContextId)
  | free
  | ended (stopped : Bool)
deriving DecidableEq, Repr

namespace RuleRun

open Workspace

variable {σ : Type} {obs : RuleObserver σ} {timed : Bool} {r r' : RuleRun σ} {s s' : Stage}
  {hand : Option ContextId} {b : Bool} {e n : Nat}

/-- A step of a pass that is free to take any of the waiting contexts. -/
inductive Turn (obs : RuleObserver σ) (timed : Bool) :
    Stage → RuleRun σ → Stage → RuleRun σ → Prop
  | process {r id k work} (h : r.work.pop? id = some (k, work)) :
    Turn obs timed (.holding id) r (.holding id)
      (({ r with work } : RuleRun σ).apply obs timed id k)
  | layDown {r id} (h : r.work.pop? id = none) :
    Turn obs timed (.holding id) r .free { r with work := r.work.setActive id false }
  | stopped {r env} (h : obs.poll r.env = (true, env)) :
    Turn obs timed .free r (.ended true) { r with env }
  | drained {r env} (h : obs.poll r.env = (false, env)) (ha : r.work.state.active = []) :
    Turn obs timed .free r (.ended false) { r with env }
  | take {r env before id after} (h : obs.poll r.env = (false, env))
    (ha : r.work.state.active = before ++ id :: after) :
    Turn obs timed .free r (.holding id)
      ⟨{ r.work with state := { r.work.state with active := before ++ after } },
        r.stats.countContext, env⟩

/-- So many steps, one after the other. -/
inductive Turns (obs : RuleObserver σ) (timed : Bool) (s : Stage) (r : RuleRun σ) :
    Nat → Stage → RuleRun σ → Prop
  | none : Turns obs timed s r 0 s r
  | more {n s' r' s'' r''} (h : Turns obs timed s r n s' r') (ht : Turn obs timed s' r' s'' r'') :
    Turns obs timed s r (n + 1) s'' r''

/-! ### Each step takes something away -/

/-- What is left to do at a stage: a context that is laid down is one step, and so is the end. -/
def remaining (e : Nat) (s : Stage) (w : Workspace) : Nat :=
  match s with
  | .holding _ => w.effort e + 2
  | .free => w.effort e + 1
  | .ended _ => 0

/-- To take a context from any place in the queue is worth the same. -/
theorem effort_remove {w : Workspace} {before after : List ContextId} {id : ContextId}
    (ha : w.state.active = before ++ id :: after) :
    ({ w with state := { w.state with active := before ++ after } } : Workspace).effort e + 2
      = w.effort e := by
  simp only [effort, load, room, sumOf, absent, ha, List.length_append, List.length_cons]
  omega

theorem Turn.decreases (h : Turn obs timed s r s' r') (hd : Distinct e r.work) :
    Distinct e r'.work ∧ remaining e s' r'.work < remaining e s r.work := by
  cases h with
  | process h =>
    obtain ⟨hd', hlt⟩ := effort_process obs timed hd h r.stats r.env
    exact ⟨hd', Nat.add_lt_add_right hlt 2⟩
  | @layDown _ id h =>
    have hdown : Charged e 0 r.work (r.work.setActive id false) :=
      charged_modify id (fun _ => ⟨rfl, rfl⟩) fun _ => Nat.le_refl _
    have hle := hdown.effort
    refine ⟨hdown.distinct hd, ?_⟩
    simp only [remaining]
    omega
  | stopped h | drained h ha => exact ⟨hd, Nat.succ_pos _⟩
  | take h ha =>
    have heffort := effort_remove (e := e) ha
    exact ⟨hd, Nat.lt_succ_of_le heffort.le⟩

theorem Turns.within (h : Turns obs timed s r n s' r') (hd : Distinct e r.work) :
    Distinct e r'.work ∧ remaining e s' r'.work + n ≤ remaining e s r.work := by
  induction h with
  | none => exact ⟨hd, Nat.le_refl _⟩
  | more _ ht ih =>
    obtain ⟨hd', hlt⟩ := ht.decreases ih.1
    have hle := ih.2
    exact ⟨hd', by omega⟩

/-- No pass takes more steps than the fuel that a pass over the workspace is given. -/
theorem Turns.le_passBound (h : Turns obs timed .free r n s' r') : n ≤ r.work.passBound := by
  have hle := (h.within r.work.distinct_factCount).2
  have hbound := r.work.effort_lt_passBound
  simp only [remaining] at hle
  omega

/-! ### Only the end has no step -/

theorem exists_turn (hs : ∀ b, s ≠ .ended b) (r : RuleRun σ) :
    ∃ s' r', Turn obs timed s r s' r' := by
  cases s with
  | holding id =>
    cases h : r.work.pop? id with
    | none => exact ⟨_, _, .layDown h⟩
    | some p => exact ⟨_, _, .process h⟩
  | free =>
    rcases hp : obs.poll r.env with ⟨_ | _, env⟩
    case true => exact ⟨_, _, .stopped hp⟩
    case false =>
      cases ha : r.work.state.active with
      | nil => exact ⟨_, _, .drained hp ha⟩
      | cons id rest => exact ⟨_, _, .take hp (show _ = [] ++ id :: rest from ha)⟩
  | ended b => exact absurd rfl (hs b)

/-- Where the flag is never found set, it is the empty queue that ends a pass. -/
theorem Turns.drained_of_clear (hclear : ∀ env, (obs.poll env).1 = false)
    (h : Turns obs timed .free r n (.ended b) r') : b = false ∧ r'.work.state.active = [] := by
  cases h with
  | more _ ht =>
    cases ht with
    | stopped hp =>
      have hset := hclear ‹RuleRun σ›.env
      rw [hp] at hset
      cases hset
    | drained _ ha => exact ⟨rfl, ha⟩

/-! ### The order of waiting is one of the orders -/

theorem Turns.first (ht : Turn obs timed s r s' r') {s'' : Stage} {r'' : RuleRun σ}
    (h : Turns obs timed s' r' n s'' r'') : Turns obs timed s r (n + 1) s'' r'' := by
  induction h with
  | none => exact .more .none ht
  | more _ ht' ih => exact .more ih ht'

theorem Passes.turns (h : Passes obs timed hand r b r') :
    ∃ n, Turns obs timed (hand.elim .free .holding) r n (.ended b) r' := by
  induction h with
  | process h _ ih =>
    obtain ⟨n, hn⟩ := ih
    exact ⟨n + 1, .first (.process h) hn⟩
  | layDown h _ ih =>
    obtain ⟨n, hn⟩ := ih
    exact ⟨n + 1, .first (.layDown h) hn⟩
  | stopped h => exact ⟨1, .more .none (.stopped h)⟩
  | drained h ht =>
    refine ⟨1, .more .none (.drained h ?_)⟩
    unfold takeActive? at ht
    split at ht
    · assumption
    · cases ht
  | @take _ _ id _ _ _ h ht _ ih =>
    obtain ⟨rest, ha, rfl⟩ := active_of_take ht
    obtain ⟨n, hn⟩ := ih
    exact ⟨n + 1, .first (.take h (show _ = [] ++ id :: rest from ha)) hn⟩

/-! ### The queue is emptied -/

theorem Turns.goes_on_or_drained (hclear : ∀ env, (obs.poll env).1 = false)
    (h : Turns obs timed .free r n s' r') :
    (∃ s'' r'', Turn obs timed s' r' s'' r'') ∨
      s' = .ended false ∧ r'.work.state.active = [] := by
  cases s' with
  | holding | free => exact Or.inl (exists_turn (fun _ => Stage.noConfusion) r')
  | ended b =>
    obtain ⟨rfl, ha⟩ := h.drained_of_clear hclear
    exact Or.inr ⟨rfl, ha⟩

/-- Nothing is asked of the workspace: whatever it holds, and whichever of the waiting contexts is
taken each time, a pass takes no more steps than its fuel, and as long as the flag is clear it goes
on until the queue is empty. The pass that takes the context that has waited longest is one of
them. -/
theorem emptied_in_any_order (obs : RuleObserver σ) (timed : Bool) (r : RuleRun σ)
    (hclear : ∀ env, (obs.poll env).1 = false) :
    (∀ n s r', Turns obs timed .free r n s r' → n ≤ r.work.passBound ∧
      ((∃ s' r'', Turn obs timed s r' s' r'') ∨
        s = .ended false ∧ r'.work.state.active = [])) ∧
    (∃ n, Turns obs timed .free r n (.ended false) (r.process obs timed).2) ∧
    (r.process obs timed).1 = false ∧ (r.process obs timed).2.work.state.active = [] := by
  obtain ⟨n, hturns⟩ := (passes_process obs timed r).turns
  have hturns : Turns obs timed .free r n (.ended (r.process obs timed).1) _ := hturns
  obtain ⟨hfalse, ha⟩ := hturns.drained_of_clear hclear
  refine ⟨?_, ⟨n, hfalse ▸ hturns⟩, hfalse, ha⟩
  intro n s r' h
  exact ⟨h.le_passBound, h.goes_on_or_drained hclear⟩

/-- A ⊑ B ⊑ A, A ⊑ ∃s.B, B ⊑ ∃r.A and ∃r.A ⊑ A, with r ⊑ s ⊑ r. -/
def cycles : List Ontology.Call :=
  [.addSubclass ⟨4⟩ ⟨2⟩, .addSubclass ⟨3⟩ ⟨4⟩, .addSubclass ⟨2⟩ ⟨5⟩, .addSubclass ⟨3⟩ ⟨2⟩,
    .addSubclass ⟨2⟩ ⟨3⟩, .addExistential ⟨1⟩ ⟨3⟩, .addExistential ⟨0⟩ ⟨2⟩, .addClass "B",
    .addClass "A", .addSubProperty ⟨1⟩ ⟨0⟩, .addSubProperty ⟨0⟩ ⟨1⟩, .addProperty "s",
    .addProperty "r"]

/-- Contexts of A and of a root that the ontology does not have, the latter inconsistent. Queued for
them are conclusions twice, and conclusions with unknown numbers. -/
def cyclesWaiting : Workspace where
  store := #[
    ⟨⟨2⟩, false, false, true, [.plain ⟨2⟩, .plain ⟨2⟩, .plain ⟨90⟩, .backwardLink ⟨77⟩ ⟨9⟩],
      ⟨[⟨80⟩], [(⟨8⟩, ⟨77⟩)], [], [(⟨0⟩, ⟨4⟩)], []⟩⟩,
    ⟨⟨77⟩, true, true, true, [.contradiction, .backwardLink ⟨2⟩ ⟨0⟩, .disjointSubsumer ⟨5⟩ ⟨90⟩],
      .empty⟩]
  state := ⟨Ontology.after cycles, [(⟨2⟩, ⟨0⟩), (⟨77⟩, ⟨1⟩)], [⟨0⟩, ⟨1⟩], []⟩
  events := []
  layout := .asLinked

/-- A step that takes the context that came last, and what every way to go on comes to. -/
theorem emptied_in_any_order_cycles :
    let obs : RuleObserver Unit := ⟨fun e => (false, e), fun _ e => e⟩
    let r : RuleRun Unit := ⟨cyclesWaiting, .zero, ()⟩
    (∀ env, (obs.poll env).1 = false) ∧
    (∃ r', Turn obs false .free r (.holding ⟨1⟩) r' ∧ r'.work.state.active = [⟨0⟩]) ∧
    (∀ n s r', Turns obs false .free r n s r' → n ≤ r.work.passBound ∧
      ((∃ s' r'', Turn obs false s r' s' r'') ∨
        s = .ended false ∧ r'.work.state.active = [])) ∧
    (r.process obs false).1 = false ∧ (r.process obs false).2.work.state.active = [] := by
  intro obs r
  have hclear : ∀ env, (obs.poll env).1 = false := fun _ => rfl
  obtain ⟨hall, _, hfalse, ha⟩ := emptied_in_any_order obs false r hclear
  have hwaiting : cyclesWaiting.state.active = [⟨0⟩] ++ ⟨1⟩ :: [] := rfl
  exact ⟨hclear, ⟨_, .take rfl hwaiting, rfl⟩, hall, hfalse, ha⟩

end RuleRun

end Subsumption
