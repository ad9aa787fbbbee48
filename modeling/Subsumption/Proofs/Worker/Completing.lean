import Subsumption.Proofs.Exactness
import Subsumption.Proofs.Worker.Delivering
import Subsumption.Proofs.Worker.Resuming

/-! Runs of one worker. If no job is left in the queue and the flag has not stopped the last pass, a
run has left nothing undone, whatever the flag has done before. That a run finds the flag clear at
its end does not say so, as the flag may have been cleared. -/
namespace Subsumption

variable {α σ : Type}

namespace Saturation

open JobObserver Worker Workspace

/-- A run that may take so many rounds of the loop over the jobs. -/
def runWithin (obs : JobObserver α σ) (rounds : Nat) (s : Saturation α σ) :
    Outcome × Bool × Saturation α σ :=
  let (outcome, w) := (Worker.new (s.runStarted 1)).processWithin obs rounds
  let (interrupted, s) := w.finish.runEnded obs
  (outcome, interrupted, s)

/-- A run takes as many rounds as there are jobs in the queue after its first pass, and two more. -/
theorem run_eq_runWithin (obs : JobObserver α σ) (s : Saturation α σ) :
    ∃ rounds, s.run obs = s.runWithin obs rounds :=
  ⟨((Worker.new (s.runStarted 1)).runRules obs).shared.desk.toDo.length + 2, rfl⟩

/-- All jobs `ids` are done. Notice of each has been given once, after those `before`, with the
context of its root, which is its output; in the order of `ids` if no pass has been stopped. No
context waits for a worker, and all are marked but for `l`. -/
structure Completed (l : Nat) (ids : List JobId) (before : Notices α)
    (s : Saturation α (σ × Notices α)) : Prop where
  toDo : s.desk.toDo = []
  inProgress : s.desk.inProgress = []
  active : s.work.state.active = []
  unsaturated : s.work.state.unsaturated.length = l
  saturated : l = 0 → ∀ n c, s.work.contextOf? n = some c → c.saturated = true
  notices : ∃ done new, done.Perm ids ∧ (s.desk.counters.lastInterrupt = 0 → done = ids) ∧
    s.env.2 = before ++ new ∧ s.Delivers done (l = 0) new

section
variable {obs : JobObserver α σ} {s t : Saturation α (σ × Notices α)} {threshold : Nat}
  {timed : Bool} {ids : List JobId} {before : Notices α} {l : Nat} {w : Worker α (σ × Notices α)}

theorem completed_of_level (hw : Between l w) (h : w.shared.Progresses ids before (l = 0))
    (hl : w.Level) (hq : w.shared.desk.toDo = []) : w.shared.Completed l ids before := by
  obtain ⟨done, new, henv, hdelivers, hperm, horder⟩ := h.notices
  have hundone : w.shared.undone = [] := by rw [undone, hl.inProgress, hq]; rfl
  rw [hundone, List.append_nil] at hperm horder
  have hunsaturated := hw.unsaturated hl
  refine ⟨hq, hl.inProgress, hl.active, hunsaturated, ?_, done, new, hperm, horder, henv, hdelivers⟩
  rintro rfl n c hc
  exact saturated_of_listed hw.listed (List.length_eq_zero_iff.mp hunsaturated) hc

theorem Completed.of_eq {e : Event} (h : s.Completed l ids before)
    (hwork : t.work = s.work.report e) (hjobs : t.jobs = s.jobs) (henv : t.env.2 = s.env.2)
    (htodo : t.desk.toDo = s.desk.toDo) (hprogress : t.desk.inProgress = s.desk.inProgress)
    (hcounters : t.desk.counters = s.desk.counters) : t.Completed l ids before := by
  obtain ⟨done, new, hperm, horder, hnew, hdelivers⟩ := h.notices
  refine ⟨htodo.trans h.toDo, hprogress.trans h.inProgress, ?_, ?_, ?_, done, new, hperm,
    hcounters ▸ horder, henv.trans hnew, hdelivers.of_kept ?_ ?_⟩
  · rw [hwork]
    exact h.active
  · rw [hwork]
    exact h.unsaturated
  · rw [hwork]
    exact h.saturated
  · intro x _
    rw [job?, job?, hjobs]
  · rw [hwork]
    exact fun _ _ hf => hf

/-- What a run has done when its call has come to an end. -/
theorem runWithin_eq (obs : JobObserver α σ) (rounds : Nat) (s : Saturation α σ) :
    let p := (Worker.new (s.runStarted 1)).processWithin obs rounds
    ∃ e, s.runWithin obs rounds =
      (p.1, (p.2.finish.poll obs).1, (p.2.finish.poll obs).2.report e) :=
  ⟨_, rfl⟩

/-- Jobs are in the queue, and nothing has happened to them. -/
theorem progresses_new (htodo : s.desk.toDo = ids) (hprogress : s.desk.inProgress = [])
    (hnew : ∀ id ∈ ids, ∃ j, s.job? id = some j ∧ j.output = none) (marked : Prop) :
    s.Progresses ids s.env.2 marked := by
  have hundone : s.undone = ids := by rw [undone, hprogress, htodo]; rfl
  refine ⟨?_, ?_, [], [], (List.append_nil _).symm, ⟨rfl, ?_, ?_⟩, ?_, ?_⟩
  · rw [hundone]
    exact hnew
  · rw [hprogress]
    exact fun _ hid => absurd hid List.not_mem_nil
  · exact fun _ hp => absurd hp List.not_mem_nil
  · exact fun _ hp => absurd hp List.not_mem_nil
  · rw [hundone]
    exact .refl _
  · exact fun _ => hundone

/-- A new worker with jobs in its queue, before its first pass. -/
theorem progresses_started (hdesk : s.desk = { Dispatcher.new threshold timed with toDo := ids })
    (hnew : ∀ id ∈ ids, ∃ j, s.job? id = some j ∧ j.output = none) (marked : Prop) :
    (s.runStarted 1).Progresses ids s.env.2 marked :=
  progresses_new (s := s.runStarted 1) (congrArg Dispatcher.toDo hdesk)
    (congrArg Dispatcher.inProgress hdesk) hnew marked

theorem balanced_new (hdesk : s.desk = { Dispatcher.new threshold timed with toDo := ids }) :
    (Worker.new (s.runStarted 1)).shared.desk.Balanced 0 := by
  change s.desk.Balanced 0
  rw [hdesk]
  exact ⟨rfl, Nat.le_refl _, rfl, Nat.le_refl _, rfl, rfl, rfl⟩

theorem inOrder_new (hdesk : s.desk = { Dispatcher.new threshold timed with toDo := ids })
    (hc : s.work.Coherent) (hq : s.work.Queued) (hl : s.work.Listed) :
    InOrder s.work.state.unsaturated.length (Worker.new (s.runStarted 1)) := by
  refine ⟨hc.report _, hq, hl, ?_⟩
  have hcreated : s.desk.counters.contextsCreated = 0 := by rw [hdesk]; rfl
  have hfinished : s.desk.counters.contextsFinished = 0 := by rw [hdesk]; rfl
  change s.work.state.unsaturated.length + s.desk.counters.contextsFinished = _
  rw [hfinished]
  change _ = s.desk.counters.contextsCreated + _
  rw [hcreated, Nat.add_zero, Nat.zero_add]

variable (obs) in
/-- A run with a new dispatcher only waits if its last pass has been stopped; if that has not and no
job is left in the queue, all jobs are done. -/
theorem runWithin_completes (hdesk : s.desk = { Dispatcher.new threshold timed with toDo := ids })
    (hc : s.work.Coherent) (hq : s.work.Queued) (hl : s.work.Listed) (hd : ids.Nodup)
    (hnew : ∀ id ∈ ids, ∃ j, s.job? id = some j ∧ j.output = none) (rounds : Nat) :
    let run := s.runWithin obs.recording rounds
    (run.1 = .blocked → run.2.2.desk.counters.Stopped) ∧
    (run.2.2.desk.toDo = [] → ¬ run.2.2.desk.counters.Stopped →
      run.2.2.Completed s.work.state.unsaturated.length ids s.env.2) := by
  obtain ⟨hbetween, hprogresses, hblocked⟩ := processWithin_between obs rounds
    (balanced_new hdesk) (inOrder_new hdesk hc hq hl) (progresses_started hdesk hnew _) hd
  obtain ⟨e, hrun⟩ := runWithin_eq obs.recording rounds s
  dsimp only
  rw [hrun]
  refine ⟨hblocked, fun htodo hgo => ?_⟩
  exact (completed_of_level hbetween hprogresses (hbetween.level hgo) htodo).of_eq
    (e := e) rfl rfl rfl rfl rfl rfl

/-- If the flag, once set, stays set, a run with a new dispatcher returns, and if it says that it
has not been interrupted, no pass has been stopped and all jobs are done. -/
theorem run_completes (hdesk : s.desk = { Dispatcher.new threshold timed with toDo := ids })
    (hflag : obs.Latching s.env.1) (hc : s.work.Coherent) (hq : s.work.Queued)
    (hl : s.work.Listed) (hd : ids.Nodup)
    (hnew : ∀ id ∈ ids, ∃ j, s.job? id = some j ∧ j.output = none) :
    let run := s.run obs.recording
    run.1 = .returned ∧ (∃ e, obs.Later s.env.1 e ∧ (obs.poll e).1 = run.2.1) ∧
    (run.2.1 = false → run.2.2.desk.counters.lastInterrupt = 0 ∧
      run.2.2.Completed s.work.state.unsaturated.length ids s.env.2) := by
  obtain ⟨w, hw⟩ : ∃ w, w = Worker.new (s.runStarted 1) := ⟨_, rfl⟩
  have hbalanced : w.shared.desk.Balanced 0 := hw ▸ balanced_new hdesk
  have hlatching : obs.Latching w.shared.env.1 := hw ▸ hflag
  obtain ⟨hreturned, _, hlater, _, hend⟩ := process_serves hbalanced hlatching
  obtain ⟨hbetween, hprogresses, _⟩ := processWithin_between obs _ hbalanced
    (hw ▸ inOrder_new hdesk hc hq hl) (by rw [hw]; exact progresses_started hdesk hnew _) hd
  obtain ⟨e, hrun⟩ : ∃ e, s.run obs.recording = ((w.process obs.recording).1,
      (obs.poll (w.process obs.recording).2.shared.env.1).1,
      ((w.process obs.recording).2.finish.poll obs.recording).2.report e) := by
    rw [hw]
    exact ⟨_, rfl⟩
  dsimp only
  rw [hrun]
  refine ⟨hreturned, ⟨_, hw ▸ hlater, rfl⟩, fun hclear => ?_⟩
  -- The flag is clear at the end, so that it has never been set.
  obtain ⟨hlevel, hundisturbed, htodo, _⟩ := hend.resolve_left fun hraised => by
    rw [hraised _ .refl] at hclear
    cases hclear
  refine ⟨?_, (completed_of_level hbetween hprogresses hlevel htodo).of_eq
    (e := e) rfl rfl rfl rfl rfl rfl⟩
  have hzero : w.shared.desk.counters.lastInterrupt = 0 := by
    rw [hw]
    exact congrArg (·.counters.lastInterrupt) hdesk
  exact Eq.trans hundisturbed hzero

end

/-- One worker with a new dispatcher is run, with any threshold, on different jobs without output,
over contexts that are all marked saturated. Whatever the polls of the flag answer, it only waits
for others if the flag has stopped its last pass; and if that has not been stopped and no job is
left in the queue, all jobs are done and all contexts marked. If the flag, once set, stays set, the
run returns, and if it says that it has not been interrupted, this is so, with no pass stopped at
all. -/
theorem run_delivers (obs : JobObserver α σ) (s : Saturation α (σ × Notices α))
    {threshold : Nat} {timed : Bool} {ids : List JobId}
    (hdesk : s.desk = { Dispatcher.new threshold timed with toDo := ids })
    (hc : s.work.Coherent) (hq : s.work.Queued) (hl : s.work.Listed)
    (hu : s.work.state.unsaturated = []) (hd : ids.Nodup)
    (hnew : ∀ id ∈ ids, ∃ j, s.job? id = some j ∧ j.output = none) :
    (∀ rounds, let run := s.runWithin obs.recording rounds
      (run.1 = .blocked → run.2.2.desk.counters.Stopped) ∧
      (run.2.2.desk.toDo = [] → ¬ run.2.2.desk.counters.Stopped →
        run.2.2.Completed 0 ids s.env.2)) ∧
    (obs.Latching s.env.1 → let run := s.run obs.recording
      run.1 = .returned ∧ (run.2.1 = false → run.2.2.desk.counters.lastInterrupt = 0 ∧
        run.2.2.Completed 0 ids s.env.2)) := by
  have hnone : s.work.state.unsaturated.length = 0 := by rw [hu]; rfl
  refine ⟨fun rounds => ?_, fun hflag => ?_⟩
  · have hrun := runWithin_completes obs hdesk hc hq hl hd hnew rounds
    rwa [hnone] at hrun
  · obtain ⟨hreturned, _, hrun⟩ := run_completes hdesk hflag hc hq hl hd hnew
    rw [hnone] at hrun
    exact ⟨hreturned, hrun⟩

/-- Jobs for A and B over A ⊑ ∃r.B and B ⊑ owl:Nothing, of which some are queued. -/
def queued (e : σ) (threshold : Nat) (ids : List JobId) : Saturation Unit (σ × Notices Unit) where
  work := start (Ontology.after emptyFiller)
  jobs := #[.new ⟨2⟩ (), .new ⟨3⟩ ()]
  desk := { Dispatcher.new threshold false with toDo := ids }
  env := (e, [])

/-- Surroundings in which the polls have these answers, one after the other; after the last the flag
is clear. -/
def script : JobObserver Unit (List Bool) where
  poll
    | [] => (false, [])
    | b :: answers => (b, answers)
  finished := fun _ _ e => e

/-- The flag is set when the pass for A is to take its first context, and cleared at once. The pass
for B makes up for it. -/
theorem run_delivers_emptyFiller :
    let run := (queued [false, false, true] 96 [⟨0⟩, ⟨1⟩]).run script.recording
    run.2.2.desk.counters.lastInterrupt = 2 ∧ run.2.1 = false ∧
      run.2.2.Completed 0 [⟨0⟩, ⟨1⟩] [] := by
  have hcoherent := coherent_new (w := start (Ontology.after emptyFiller)) rfl
  have hlisted := listed_new (w := start (Ontology.after emptyFiller)) rfl
  obtain ⟨hrun, _⟩ := run_delivers script (queued [false, false, true] 96 [⟨0⟩, ⟨1⟩]) rfl
    hcoherent (fun id hid => by cases hid) hlisted rfl (by decide) (by decide +kernel)
  have htodo : ((queued [false, false, true] 96 [⟨0⟩, ⟨1⟩]).run script.recording).2.2.desk.toDo
      = [] := by
    decide +kernel
  have hinterrupt : ((queued [false, false, true] 96 [⟨0⟩, ⟨1⟩]).run
      script.recording).2.2.desk.counters.lastInterrupt = 2 := by
    decide +kernel
  have hstarted : ((queued [false, false, true] 96 [⟨0⟩, ⟨1⟩]).run
      script.recording).2.2.desk.counters.workersStarted = 3 := by
    decide +kernel
  obtain ⟨rounds, hsame⟩ :=
    run_eq_runWithin script.recording (queued [false, false, true] 96 [⟨0⟩, ⟨1⟩])
  have hcompleted := (hrun rounds).2
  rw [← hsame] at hcompleted
  refine ⟨hinterrupt, by decide +kernel, hcompleted htodo ?_⟩
  rw [Counters.Stopped, hstarted, hinterrupt]
  decide

/-- If there is no other job, there is no such pass. The run says that it has not been interrupted,
with the job undone; or the worker waits for ever, if no incomplete context is allowed. -/
theorem undone_clearedFlag :
    ((queued [false, false, true] 0 [⟨0⟩]).run script.recording).1 = .blocked ∧
      let run := (queued [false, false, true] 96 [⟨0⟩]).run script.recording
      run.1 = .returned ∧ run.2.1 = false ∧ run.2.2.desk.inProgress = [⟨0⟩] ∧
        (run.2.2.job? ⟨0⟩).map (·.output) = some none ∧ run.2.2.env.2.length = 0 ∧
        run.2.2.work.state.unsaturated.length = 1 := by
  decide +kernel

end Saturation

end Subsumption
