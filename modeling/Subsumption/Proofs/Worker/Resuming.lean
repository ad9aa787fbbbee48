import Subsumption.Proofs.Worker.Serving

/-! Stopping one worker and letting it go on. Whenever the flag is set and however often, in the end
everything is as if the worker had been left alone. -/
namespace Subsumption

variable {α σ : Type}

namespace Worker

open JobObserver

section
variable {obs : JobObserver α σ} {w v : Worker α (σ × Notices α)} {e e₀ : σ} {ids : List JobId}

/-- Calls one after the other, each under surroundings of its own, in which the flag stays set once
it is found set. -/
inductive Calls (obs : JobObserver α σ) (w : Worker α (σ × Notices α)) :
    Worker α (σ × Notices α) → Prop
  | none : Calls obs w w
  | call {v : Worker α (σ × Notices α)} {e : σ} (h : Calls obs w v) (he : obs.Latching e) :
    Calls obs w ((v.surrounded e).process obs.recording).2

theorem Calls.serves (h : Calls obs w v) (hw : w.shared.desk.Balanced 0) :
    v.shared.desk.Balanced 0 ∧ ∀ u, Serves v.results.settle u → Serves w.results.settle u := by
  induction h with
  | none => exact ⟨hw, fun u hu => hu⟩
  | @call v e _ he ih =>
    obtain ⟨hv, hgo⟩ := ih
    obtain ⟨_, hbalanced, _, hserves, _⟩ := process_serves (w := v.surrounded e) hv he
    exact ⟨hbalanced, fun u hu => hgo u (hserves u hu)⟩

/-- A new worker with jobs in its queue. -/
def engaged (s : Saturation α σ) (ids : List JobId) : Worker α σ := ids.foldl submit (new s)

theorem balanced_submits {w : Worker α σ} {n : Nat} (hw : w.shared.desk.Balanced n)
    (ids : List JobId) : (ids.foldl submit w).shared.desk.Balanced n := by
  induction ids generalizing w with
  | nil => exact hw
  | cons id rest ih =>
    exact ih ⟨hw.passes, hw.interrupt, hw.contexts, hw.created, hw.jobs, hw.progress, hw.waiting⟩

theorem balanced_engaged {s : Saturation α σ} {threshold : Nat} {timed : Bool}
    (hs : s.desk = .new threshold timed) (ids : List JobId) :
    (engaged s ids).shared.desk.Balanced 0 := by
  refine balanced_submits (w := new s) ?_ ids
  change s.desk.Balanced 0
  rw [hs]
  exact ⟨rfl, Nat.le_refl _, rfl, Nat.le_refl _, rfl, rfl, rfl⟩

/-- After any calls of a worker with a new dispatcher, a call in which the flag is clear returns, and
everything is as if there had been no other call. -/
theorem results_of_stopped_calls {s : Saturation α (σ × Notices α)} {threshold : Nat} {timed : Bool}
    (hs : s.desk = .new threshold timed) (h : Calls obs (engaged s ids) v) (he : obs.Lowered e)
    (he₀ : obs.Lowered e₀) :
    let resumed := (v.surrounded e).process obs.recording
    let single := ((engaged s ids).surrounded e₀).process obs.recording
    resumed.1 = .returned ∧ single.1 = .returned ∧ resumed.2.results = single.2.results := by
  have hw := balanced_engaged hs ids
  obtain ⟨hv, hgo⟩ := h.serves hw
  obtain ⟨hreturned, _, hlater, _, hend⟩ :=
    process_serves (w := v.surrounded e) hv he.latching
  obtain ⟨hreturned₀, _, hlater₀, _, hend₀⟩ :=
    process_serves (w := (engaged s ids).surrounded e₀) hw he₀.latching
  have hserves := (hend.resolve_left (he.not_raised hlater)).2.2.2
  have hserves₀ := (hend₀.resolve_left (he₀.not_raised hlater₀)).2.2.2
  exact ⟨hreturned, hreturned₀, (hgo _ hserves).unique hserves₀⟩

end

end Worker

/-! ### A flag that is set in the course of a call -/

namespace JobObserver

/-- Surroundings in which the flag is found set after so many polls, and from then on, or never. -/
def timer : JobObserver α (Option Nat) where
  poll
    | none => (false, none)
    | some 0 => (true, some 0)
    | some (n + 1) => (false, some n)
  finished := fun _ _ e => e

theorem lowered_timer : (timer (α := α)).Lowered none := by
  have hnone : ∀ e', timer.Later (α := α) none e' → e' = none := by
    intro e' h
    induction h with
    | refl => rfl
    | poll _ ih => rw [ih]; rfl
    | finished _ _ _ ih => exact ih
  intro e' h
  rw [hnone e' h]
  rfl

theorem latching_timer (e : Option Nat) : (timer (α := α)).Latching e := by
  have hzero : ∀ e', timer.Later (α := α) (some 0) e' → e' = some 0 := by
    intro e' h
    induction h with
    | refl => rfl
    | poll _ ih => rw [ih]; rfl
    | finished _ _ _ ih => exact ih
  intro e' _ hset
  match e', hset with
  | some 0, _ =>
    intro e'' h
    rw [hzero e'' h]
    rfl

end JobObserver

end Subsumption
