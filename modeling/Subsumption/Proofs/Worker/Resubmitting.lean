import Subsumption.Proofs.Interruption
import Subsumption.Proofs.Worker.Completing

/-! Jobs submitted again after an interruption, to a second worker over the same contexts. What the
first one has left pending is found out by the second; but contexts that only the first one has
counted are not marked. -/
namespace Subsumption

open Workspace

variable {α β σ τ : Type}

namespace RuleRun

variable {obs : RuleObserver σ} {timed b : Bool} {hand : Option ContextId} {r r' : RuleRun σ}

/-- When a pass is over, no context is in hand. -/
theorem Passes.tidy (h : Passes obs timed hand r b r') (ht : Tidy hand.toList r.work) :
    Tidy [] r'.work := by
  induction h with
  | @process r id k work b r' hpop _ ih =>
    obtain ⟨root, hroot⟩ := ht.known id (List.mem_append_left _ (List.mem_singleton_self id))
    exact ih (Workshop.tidy_process ht obs timed r.stats r.env hroot hpop)
  | @layDown r id b r' hpop _ ih =>
    refine ih ?_
    have hdown := ht.layDown (List.mem_singleton_self id) hpop
    rwa [show (some id).toList.erase id = [] by simp] at hdown
  | stopped | drained => exact ht
  | take _ htake _ ih => exact ih (ht.take htake)

end RuleRun

namespace Worker

/-- What one worker comes to by submissions and calls, whatever the flag does. -/
inductive Employed (obs : JobObserver α σ) (w : Worker α σ) : Worker α σ → Prop
  | start : Employed obs w w
  | submit {v : Worker α σ} (h : Employed obs w v) (id : JobId) : Employed obs w (v.submit id)
  | call {v : Worker α σ} (h : Employed obs w v) : Employed obs w (v.process obs).2

/-- The workspaces that runs lead to over the ontology of a new state, nobody having a context in
hand. -/
def Left (w₀ w : Workspace) : Prop := (∃ roots, Runs w₀ roots w) ∧ Tidy [] w

theorem kept_left (obs : JobObserver α σ) {w₀ : Workspace} (hw₀ : w₀.Coherent) :
    Kept obs fun s => Left w₀ s.work ∧ ∀ id, (s.rootOf id).index < w₀.state.ontology.size := by
  refine kept_of_work (Q := Left w₀) (N := fun root => root.index < w₀.state.ontology.size)
    ?_ ?_ ?_ ?_
  · rintro τ o timed r ⟨⟨roots, hr⟩, ht⟩
    exact ⟨⟨roots, (runs_pass hw₀ hr fun id hid => ht.known id hid).1⟩,
      (RuleRun.passes_process o timed r).tidy ht⟩
  · rintro τ o r root hroot ⟨⟨roots, hr⟩, ht⟩
    refine ⟨⟨root :: roots, hr.submit o r.stats r.env root ?_⟩,
      Workshop.tidy_submit ht o r.stats r.env root⟩
    rw [(keeps_runs hw₀ hr).ontology]
    exact hroot
  · rintro w ⟨⟨roots, hr⟩, ht⟩
    exact ⟨⟨roots, hr.step .mark⟩, ht.mark⟩
  · rintro w e ⟨⟨roots, hr⟩, ht⟩
    exact ⟨⟨roots, hr.step (.report e)⟩, (lasting_tidy []).report w e ht⟩

theorem Kept.employed {obs : JobObserver α σ} {P : Saturation α σ → Prop} {w v : Worker α σ}
    (hP : Kept obs P) (h : Employed obs w v) (hw : P w.shared) : P v.shared := by
  induction h with
  | start => exact hw
  | submit _ id ih => exact hP.desk _ _ ih
  | call _ ih => exact hP.process ih

end Worker

namespace Saturation

open Worker JobObserver Ontology

theorem rootOf_lt {s : Saturation α σ} {n : Nat} (hn : 0 < n)
    (h : ∀ j ∈ s.jobs.toList, j.root.index < n) (id : JobId) : (s.rootOf id).index < n := by
  cases hj : s.job? id with
  | none =>
    simp only [rootOf, hj]
    exact hn
  | some j =>
    simp only [rootOf, hj]
    exact h j (Array.mem_toList_iff.mpr (Array.mem_of_getElem? hj))

theorem size_after_pos (calls : List Call) : 0 < (after calls).size :=
  after_induction (P := fun o => 0 < o.size) (by decide)
    (fun _ _ h ho => Nat.lt_of_lt_of_le ho (Ontology.size_change h)) calls

/-- Jobs have been submitted to one worker over a new state, and it has been called any number of
times, whatever the flag has done. Then other jobs without output, those that have not been resolved
or more, are run with a new dispatcher over the same contexts, and the flag is clear. The run
returns with all jobs done, in the order of the queue, and about every root that has a context the
same has been found out as in every run to completion on a new state. But as many contexts are left
to be marked as there were before. If there were none, all contexts are saturated, and those that
notice has been given with were so then. -/
theorem resubmitted_jobs_delivered {calls : List Call} {obs₁ : JobObserver α σ}
    {obs₂ : JobObserver β τ} {first : Saturation α σ} {v : Worker α σ}
    (hnew₁ : first.work.state = State.new (after calls))
    (hroots₁ : ∀ j ∈ first.jobs.toList, j.root.index < (after calls).size)
    (hfirst : Employed obs₁ (Worker.new first) v)
    {second : Saturation β (τ × Notices β)} {threshold : Nat} {timed : Bool} {ids : List JobId}
    (hwork : second.work = v.shared.work)
    (hdesk : second.desk = { Dispatcher.new threshold timed with toDo := ids })
    (hflag : obs₂.Lowered second.env.1) (hd : ids.Nodup)
    (hnew₂ : ∀ id ∈ ids, ∃ j, second.job? id = some j ∧ j.output = none)
    (hroots₂ : ∀ j ∈ second.jobs.toList, j.root.index < (after calls).size) :
    let run := second.run obs₂.recording
    run.1 = .returned ∧ run.2.1 = false ∧ run.2.2.desk.counters.lastInterrupt = 0 ∧
    run.2.2.Completed second.work.state.unsaturated.length ids second.env.2 ∧
    ∀ n c, run.2.2.work.contextOf? n = some c → ∀ w roots u, w.state = State.new (after calls) →
      Runs w roots u → u.Quiet → n ∈ roots → ∃ d, u.contextOf? n = some d ∧ SameFindings c d := by
  obtain ⟨w₀, hw₀⟩ : ∃ w₀, w₀ = first.work := ⟨_, rfl⟩
  have hstate : w₀.state = State.new (after calls) := hw₀ ▸ hnew₁
  have hcoherent := coherent_new hstate
  have hontology : w₀.state.ontology = after calls := by rw [hstate]; rfl
  have hsize := size_after_pos calls
  have hstart : Left w₀ first.work :=
    ⟨⟨[], hw₀ ▸ .start⟩, hw₀ ▸ (ready_new hstate).tidy⟩
  obtain ⟨hleft, _⟩ := (kept_left obs₁ hcoherent).employed hfirst
    ⟨hstart, fun id => hontology ▸ rootOf_lt hsize hroots₁ id⟩
  rw [← hwork] at hleft
  obtain ⟨⟨⟨roots, hruns⟩, htidy⟩, _⟩ := (kept_left obs₂.recording hcoherent).run
    ⟨hleft, fun id => hontology ▸ rootOf_lt hsize hroots₂ id⟩
  obtain ⟨⟨_, hruns₁⟩, htidy₁⟩ := hleft
  obtain ⟨hreturned, ⟨e, he, hpoll⟩, hrun⟩ := run_completes hdesk hflag.latching htidy₁.coherent
    (fun id hid => htidy₁.known id hid) ((keeps_runs hcoherent hruns₁).listed (listed_new hstate))
    hd hnew₂
  have hclear : (second.run obs₂.recording).2.1 = false := hpoll ▸ hflag e he
  obtain ⟨hundisturbed, hcompleted⟩ := hrun hclear
  have hquiet : (second.run obs₂.recording).2.2.work.Quiet := htidy.quiet hcompleted.active
  refine ⟨hreturned, hclear, hundisturbed, hcompleted, ?_⟩
  intro n c hc w others u hw hu hq hn
  obtain ⟨hi, hx⟩ := (sane_runs (sane_new hstate) hruns).exact hquiet hc
  exact sameFindings_of_exact ⟨hi, hx⟩ hw hu hq hn

/-- The flag is found set when the pass for A is to take its first context. -/
def stoppedAtOnce : Worker Unit (Option Nat × Notices Unit) :=
  ((Worker.new (queued (some 2) 96 [⟨0⟩])).process timer.recording).2

/-- The job for A is submitted again, and the job for B after it. -/
def resubmitted : Saturation Unit (Option Nat × Notices Unit) :=
  { queued none 96 [⟨0⟩, ⟨1⟩] with work := stoppedAtOnce.shared.work }

/-- What was pending for A is found out, though the context of A was not new any more. -/
theorem resubmitted_jobs_delivered_emptyFiller :
    stoppedAtOnce.rules.contexts = 0 ∧ stoppedAtOnce.shared.desk.inProgress = [⟨0⟩] ∧
    ¬ resubmitted.work.Quiet ∧
    let run := resubmitted.run timer.recording
    run.1 = .returned ∧ run.2.1 = false ∧ run.2.2.Completed 1 [⟨0⟩, ⟨1⟩] [] ∧
      ∃ c d, run.2.2.work.contextOf? ⟨2⟩ = some c ∧
        (saturate (start (after emptyFiller)) ⟨2⟩).contextOf? ⟨2⟩ = some d ∧
        c.inconsistent = true ∧ SameFindings c d := by
  have hfirst : Employed timer.recording (Worker.new (queued (some 2) 96 [⟨0⟩])) stoppedAtOnce :=
    .call .start
  have hstate : (start (after emptyFiller)).state = State.new (after emptyFiller) := rfl
  have hwork : resubmitted.work = stoppedAtOnce.shared.work := rfl
  obtain ⟨hreturned, hclear, _, hcompleted, hsame⟩ :=
    resubmitted_jobs_delivered hstate (by decide +kernel) hfirst hwork rfl lowered_timer
      (by decide) (by decide +kernel) (by decide +kernel)
  have hinconsistent : ((resubmitted.run timer.recording).2.2.work.contextOf? ⟨2⟩).any
      (·.inconsistent) = true := by
    decide +kernel
  have hpending : (resubmitted.work.contextOf? ⟨2⟩).map (·.pending.isEmpty) = some false := by
    decide +kernel
  obtain ⟨c, hc, hi⟩ := (Option.any_eq_true _ _).mp hinconsistent
  obtain ⟨d, hd, hfindings⟩ := hsame _ c hc _ _ _ rfl (runs_saturate_start (by decide +kernel))
    (quiet_of_store (by decide +kernel)) List.mem_cons_self
  have hleft : resubmitted.work.state.unsaturated.length = 1 := by decide +kernel
  rw [hleft] at hcompleted
  refine ⟨by decide +kernel, by decide +kernel, fun hq => ?_, hreturned, hclear, hcompleted, c, d,
    hc, hd, hi, hfindings⟩
  obtain ⟨c, hc, hp⟩ := Option.map_eq_some_iff.mp hpending
  rw [hq _ c hc] at hp
  cases hp

/-- The second worker has counted the context of B only, and marks that of A in its place. Notice of
the job for B is given with a context that is not saturated, and it is left so. -/
theorem unmarked_resubmitted :
    let run := resubmitted.run timer.recording
    run.1 = .returned ∧ run.2.1 = false ∧
      run.2.2.env.2.map (fun p => (p.2.root, p.2.saturated)) = [(⟨2⟩, true), (⟨3⟩, false)] ∧
      run.2.2.work.state.unsaturated.length = 1 := by
  decide +kernel

end Saturation

end Subsumption
