import Subsumption.Proofs.Standing
import Subsumption.Proofs.Worker.Surroundings

/-! The end of a pass of one worker. A pass that has ended finishes all contexts and jobs counted so
far; a pass that has been stopped finishes nothing, and leaves everything to the next one. -/
namespace Subsumption

variable {α σ : Type}

/-! ### Counters -/

namespace Counters

/-- The counters apart from those of passes and interruptions. -/
def essence (c : Counters) : Counters :=
  { c with workersStarted := 0, workersFinished := 0, lastInterrupt := 0 }

/-- The counters when all contexts and jobs are finished. -/
def settled (c : Counters) : Counters :=
  { c with
    contextsProcessed := c.contextsCreated, contextsFinished := c.contextsCreated
    jobsProcessed := c.jobsSubmitted, jobsFinished := c.jobsSubmitted }

/-- The last pass has been stopped by the flag: no pass has been started since. -/
def Stopped (c : Counters) : Prop := c.workersStarted ≤ c.lastInterrupt

end Counters

/-- The counters while `n` passes are under way: what has been found complete has been finished,
nobody waits, and no interruption has been seen in the pass under way. -/
structure Dispatcher.Balanced (n : Nat) (d : Dispatcher) : Prop where
  passes : d.counters.workersStarted = d.counters.workersFinished + n
  interrupt : d.counters.lastInterrupt + n ≤ d.counters.workersStarted
  contexts : d.counters.contextsFinished = d.counters.contextsProcessed
  created : d.counters.contextsProcessed ≤ d.counters.contextsCreated
  jobs : d.counters.jobsFinished = d.counters.jobsProcessed
  progress : d.inProgress.length + d.counters.jobsFinished = d.counters.jobsSubmitted
  waiting : d.waiting = false

namespace Worker

/-! ### The end of a pass -/

section
variable (obs : JobObserver α σ) (w : Worker α σ)

/-- All contexts and jobs are declared complete. -/
def declare : Worker α σ :=
  w.mapShared fun s =>
    ((s.raiseJobsProcessed s.desk.counters.jobsSubmitted).2.raiseContextsProcessed
      s.desk.counters.contextsCreated).2

/-- All contexts and jobs are declared complete and finished. -/
def finishAll : Worker α σ :=
  let w := w.declare
  let c := w.shared.desk.counters
  finishJobs obs (c.jobsProcessed - c.jobsFinished)
    (w.finishContexts (c.contextsProcessed - c.contextsFinished))

end

section
variable {obs : JobObserver α σ} {w : Worker α σ} {id : JobId} {rest : List JobId} {n : Nat}

theorem finishJobs_nil (h : w.shared.desk.inProgress = []) : finishJobs obs (n + 1) w =
    (w.mapShared (·.countJobFinished)).mapShared (·.report .noJobToFinish) := by
  have hpop : (w.mapShared (·.countJobFinished)).shared.popInProgress? = none := by
    simp [Saturation.popInProgress?, mapShared, Saturation.countJobFinished, Saturation.mapCounters,
      h]
  rw [finishJobs]
  simp only [hpop]

/-- The worker when it has taken a job in progress to finish it and `rest` are left. -/
def finishing (rest : List JobId) (w : Worker α σ) : Worker α σ :=
  w.mapShared fun s => { s with desk := { s.desk with
    inProgress := rest
    counters := { s.desk.counters with jobsFinished := s.desk.counters.jobsFinished + 1 } } }

theorem finishJobs_cons (h : w.shared.desk.inProgress = id :: rest) :
    finishJobs obs (n + 1) w = finishJobs obs n ((w.finishing rest).complete obs id) := by
  have hpop : (w.mapShared (·.countJobFinished)).shared.popInProgress? =
      some (id, (w.finishing rest).shared) := by
    simp [Saturation.popInProgress?, mapShared, Saturation.countJobFinished, Saturation.mapCounters,
      finishing, h]
  rw [finishJobs]
  simp only [hpop]
  rfl

/-! What finishing does to the desk. -/

theorem desk_finishContexts (n : Nat) (w : Worker α σ) : (w.finishContexts n).shared.desk =
    { w.shared.desk with counters := { w.shared.desk.counters with
      contextsFinished := w.shared.desk.counters.contextsFinished + n } } := by
  induction n generalizing w with
  | zero => rfl
  | succ n ih =>
    rw [finishContexts, ih]
    simp only [mapShared, Saturation.markNext, Saturation.countContextFinished,
      Saturation.mapCounters]
    rw [Nat.add_right_comm, Nat.add_assoc]

theorem desk_giveOutput (s : Saturation α σ) (id : JobId) (output : ContextId) :
    (s.giveOutput id output).2.desk = s.desk := by
  unfold Saturation.giveOutput
  split
  · split <;> rfl
  · rfl

theorem desk_notify (s : Saturation α σ) (id : JobId) : (s.notify obs id).desk = s.desk := by
  unfold Saturation.notify
  split
  · split <;> rfl
  · rfl

theorem desk_complete (w : Worker α σ) (id : JobId) :
    (w.complete obs id).shared.desk = w.shared.desk := by
  unfold complete
  split
  · rfl
  · rename_i output _
    have hgive := desk_giveOutput w.shared id output
    dsimp only
    split
    · rename_i hg
      rw [hg] at hgive
      exact (desk_notify _ id).trans hgive
    · rename_i hg
      rw [hg] at hgive
      exact hgive

variable (obs) in
theorem desk_completeAtOnce (w : Worker α σ) (id : JobId) (output : ContextId) :
    (w.completeAtOnce obs id output).shared.desk = w.shared.desk := by
  have hgive := desk_giveOutput w.shared id output
  unfold completeAtOnce
  dsimp only
  split
  · rename_i hg
    rw [hg] at hgive
    exact (desk_notify _ id).trans hgive
  · rename_i hg
    rw [hg] at hgive
    exact hgive

theorem desk_finishJobs (h : n ≤ w.shared.desk.inProgress.length) :
    (finishJobs obs n w).shared.desk = { w.shared.desk with
      inProgress := w.shared.desk.inProgress.drop n
      counters := { w.shared.desk.counters with
        jobsFinished := w.shared.desk.counters.jobsFinished + n } } := by
  induction n generalizing w with
  | zero => rfl
  | succ n ih =>
    cases hq : w.shared.desk.inProgress with
    | nil =>
      rw [hq] at h
      cases h
    | cons id rest =>
      rw [hq, List.length_cons] at h
      rw [finishJobs_cons hq, ih (by rw [desk_complete]; exact Nat.le_of_succ_le_succ h),
        desk_complete]
      simp only [finishing, mapShared, List.drop_succ_cons]
      rw [Nat.add_right_comm, Nat.add_assoc]

theorem desk_declare (h : w.shared.desk.Balanced n) : w.declare.shared.desk =
    { w.shared.desk with counters := { w.shared.desk.counters with
      contextsProcessed := w.shared.desk.counters.contextsCreated
      jobsProcessed := w.shared.desk.counters.jobsSubmitted } } := by
  have hsubmitted :
      w.shared.desk.counters.jobsProcessed ≤ w.shared.desk.counters.jobsSubmitted := by
    have := h.jobs
    have := h.progress
    omega
  simp only [declare, mapShared, Saturation.raiseJobsProcessed, Saturation.raiseContextsProcessed,
    Saturation.mapCounters, Counters.raise_snd, Nat.max_eq_right hsubmitted,
    Nat.max_eq_right h.created]

/-- When a pass has ended, nothing is left in progress. -/
theorem desk_finishAll (h : w.shared.desk.Balanced n) (obs : JobObserver α σ) :
    (w.finishAll obs).shared.desk =
    { w.shared.desk with inProgress := [], counters := w.shared.desk.counters.settled } := by
  have hdesk : ∀ m, (w.declare.finishContexts m).shared.desk.inProgress
      = w.shared.desk.inProgress := by
    intro m
    rw [desk_finishContexts, desk_declare h]
  have hlength : w.shared.desk.counters.jobsSubmitted - w.shared.desk.counters.jobsFinished
      = w.shared.desk.inProgress.length := by
    have := h.progress
    omega
  unfold finishAll
  dsimp only
  rw [desk_declare h]
  dsimp only
  rw [desk_finishJobs (by rw [hdesk, hlength]), hdesk, hlength, List.drop_length,
    desk_finishContexts, desk_declare h]
  dsimp only [Counters.settled]
  have hcontexts := h.contexts
  have hcreated := h.created
  have hprogress := h.progress
  congr 2 <;> omega

/-- A pass that has been stopped finishes nothing. -/
theorem leaveRules_stopped (h : w.shared.desk.Balanced 1) : w.leaveRules obs true =
    w.mapShared fun s => s.mapCounters fun c => { c with
      lastInterrupt := c.workersStarted, workersFinished := c.workersFinished + 1 } := by
  have hraise : (Counters.raise w.shared.desk.counters.lastInterrupt
      w.shared.desk.counters.workersStarted).2 = w.shared.desk.counters.workersStarted := by
    rw [Counters.raise_snd]
    have := h.interrupt
    omega
  simp only [leaveRules, if_true, mapShared, Saturation.raiseInterrupt, Saturation.endPass,
    Saturation.mapCounters, hraise, updateProcessed, Nat.le_refl, h.contexts, h.jobs, Nat.sub_self,
    finishContexts, finishJobs, Bool.false_and, Bool.false_eq_true, if_false]

theorem Balanced.startPass (h : w.shared.desk.Balanced 0) :
    (w.mapShared (·.startPass)).shared.desk.Balanced 1 :=
  ⟨congrArg (· + 1) h.passes, Nat.succ_le_succ h.interrupt, h.contexts, h.created, h.jobs,
    h.progress, h.waiting⟩

theorem Balanced.endPass (h : w.shared.desk.Balanced 1) :
    (w.mapShared (·.endPass)).shared.desk.Balanced 0 :=
  ⟨h.passes, Nat.le_of_succ_le h.interrupt, h.contexts, h.created, h.jobs, h.progress, h.waiting⟩

/-- A pass that has ended finishes everything. -/
theorem leaveRules_ended (h : w.shared.desk.Balanced 1) :
    w.leaveRules obs false = (w.mapShared (·.endPass)).finishAll obs := by
  have hinterrupt :
      ¬ w.shared.desk.counters.workersStarted ≤ w.shared.desk.counters.lastInterrupt :=
    Nat.not_le.mpr h.interrupt
  have hpasses : ¬ w.shared.desk.counters.workersFinished + 1
      < w.shared.desk.counters.workersStarted := by
    rw [h.passes]
    exact Nat.lt_irrefl _
  have hupdate : (w.mapShared (·.endPass)).updateProcessed
      (w.mapShared (·.endPass)).shared.desk.counters.workersFinished =
      (((w.shared.endPass.raiseJobsProcessed
          w.shared.desk.counters.jobsSubmitted).2.raiseContextsProcessed
            w.shared.desk.counters.contextsCreated).1, (w.mapShared (·.endPass)).declare) := by
    simp only [updateProcessed, mapShared, Saturation.endPass, Saturation.mapCounters, hinterrupt,
      hpasses, if_false]
    rfl
  have hwaiting : ((w.mapShared (·.endPass)).finishAll obs).shared.desk.waiting = false := by
    rw [desk_finishAll (Balanced.endPass h) _]
    exact h.waiting
  simp only [leaveRules, Bool.false_eq_true, if_false, hupdate]
  change (if _ && ((w.mapShared (·.endPass)).finishAll obs).shared.desk.waiting then _ else
    (w.mapShared (·.endPass)).finishAll obs) = _
  rw [hwaiting, Bool.and_false]
  rfl

end

end Worker

/-! ### What is kept of a worker -/

/-- A saturation without the flag and the counters of passes and interruptions. -/
def Saturation.results (s : Saturation α (σ × Notices α)) : Saturation α (Notices α) :=
  ⟨s.work, s.jobs, { s.desk with counters := s.desk.counters.essence }, s.env.2⟩

namespace Worker

open JobObserver

/-- A worker without the flag and the counters of passes and interruptions: contexts, jobs, queues,
all other counters and statistics, and the notices given so far. -/
def results (w : Worker α (σ × Notices α)) : Worker α (Notices α) :=
  ⟨w.shared.results, w.rules, w.jobs⟩

/-- The worker under other surroundings, with the notices given so far. -/
def surrounded (e : σ) (w : Worker α (σ × Notices α)) : Worker α (σ × Notices α) :=
  w.mapShared fun s => { s with env := (e, s.env.2) }

section
variable {obs : JobObserver α σ} {w : Worker α (σ × Notices α)} {id : JobId} {output : ContextId}

theorem results_giveOutput (s : Saturation α (σ × Notices α)) (id : JobId) (output : ContextId) :
    s.results.giveOutput id output = ((s.giveOutput id output).1,
      (s.giveOutput id output).2.results) := by
  have hjob : s.results.job? id = s.job? id := rfl
  simp only [Saturation.giveOutput, hjob]
  cases s.job? id with
  | none => rfl
  | some j =>
    dsimp only
    cases j.setOutput output <;> rfl

variable (obs) in
theorem results_notify (s : Saturation α (σ × Notices α)) (id : JobId) :
    (s.notify obs.recording id).results = s.results.notify recorder id := by
  have hjob : s.results.job? id = s.job? id := rfl
  have hwork : s.results.work = s.work := rfl
  simp only [Saturation.notify, hjob, hwork]
  cases s.job? id with
  | none => rfl
  | some j =>
    dsimp only
    cases j.output.bind s.work.context? <;> rfl

theorem results_complete (w : Worker α (σ × Notices α)) (id : JobId) :
    (w.complete obs.recording id).results = w.results.complete recorder id := by
  have hfind : w.results.shared.work.state.find? (w.results.shared.rootOf id) =
      w.shared.work.state.find? (w.shared.rootOf id) := rfl
  have hshared : w.results.shared = w.shared.results := rfl
  simp only [complete, hfind]
  cases w.shared.work.state.find? (w.shared.rootOf id) with
  | none => rfl
  | some output =>
    simp only [hshared, results_giveOutput]
    cases hg : w.shared.giveOutput id output with
    | mk b s =>
      cases b with
      | true =>
        have hn := results_notify obs (s.report (.saturationFinished (s.labelOf id))) id
        simp only [results, hn]
        rfl
      | false => rfl

theorem results_completeAtOnce (w : Worker α (σ × Notices α)) (id : JobId) (output : ContextId) :
    (w.completeAtOnce obs.recording id output).results
      = w.results.completeAtOnce recorder id output := by
  have hshared : w.results.shared = w.shared.results := rfl
  simp only [completeAtOnce, hshared, results_giveOutput]
  cases hg : w.shared.giveOutput id output with
  | mk b s =>
    cases b with
    | true => simp only [results, results_notify]
    | false => rfl

theorem results_finishContexts (n : Nat) (w : Worker α (σ × Notices α)) :
    (w.finishContexts n).results = w.results.finishContexts n := by
  induction n generalizing w with
  | zero => rfl
  | succ n ih => exact ih _

theorem results_finishJobs (n : Nat) (w : Worker α (σ × Notices α)) :
    (finishJobs obs.recording n w).results = finishJobs recorder n w.results := by
  induction n generalizing w with
  | zero => rfl
  | succ n ih =>
    cases hq : w.shared.desk.inProgress with
    | nil =>
      have hq' : w.results.shared.desk.inProgress = [] := hq
      rw [finishJobs_nil hq, finishJobs_nil hq']
      rfl
    | cons id rest =>
      have hq' : w.results.shared.desk.inProgress = id :: rest := hq
      rw [finishJobs_cons hq, finishJobs_cons hq', ih, results_complete]
      rfl

theorem results_finishAll (w : Worker α (σ × Notices α)) :
    (w.finishAll obs.recording).results = w.results.finishAll recorder := by
  rw [finishAll, results_finishJobs, results_finishContexts]
  rfl

end

/-! ### What finishing keeps -/

/-- What reports, outputs and notices keep, and all that happens to the desk. -/
structure Steady (obs : JobObserver α σ) (P : Saturation α σ → Prop) : Prop where
  desk : ∀ s d, P s → P { s with desk := d }
  report : ∀ s e, P s → P (s.report e)
  output : ∀ s id j c, s.job? id = some j → j.output = none → P s →
    P { s with jobs := s.jobs.setIfInBounds id.index { j with output := some c } }
  finished : ∀ s j c, P s → P { s with env := obs.finished j c s.env }

/-- What marks keep too. -/
structure Durable (obs : JobObserver α σ) (P : Saturation α σ → Prop) : Prop
    extends Steady obs P where
  mark : ∀ s, P s → P s.markNext

section
variable {obs : JobObserver α σ} {P : Saturation α σ → Prop} {w : Worker α σ}
  {s : Saturation α σ}

theorem Steady.notify (hP : Steady obs P) (h : P s) (id : JobId) : P (s.notify obs id) := by
  unfold Saturation.notify
  split
  · split
    · exact hP.finished _ _ _ h
    · exact h
  · exact h

theorem Steady.giveOutput (hP : Steady obs P) (h : P s) (id : JobId) (output : ContextId) :
    P (s.giveOutput id output).2 := by
  unfold Saturation.giveOutput
  split
  · rename_i j hj
    cases ho : j.output with
    | none =>
      simp only [Job.setOutput, ho]
      exact hP.output s id j output hj ho h
    | some _ =>
      simp only [Job.setOutput, ho]
      exact hP.report _ _ h
  · exact h

theorem Steady.complete (hP : Steady obs P) (h : P w.shared) (id : JobId) :
    P (w.complete obs id).shared := by
  unfold Worker.complete
  split
  · exact hP.report _ _ h
  · rename_i output _
    have hgive := hP.giveOutput h id output
    dsimp only
    split
    · rename_i hg
      rw [hg] at hgive
      exact hP.notify (hP.report _ _ hgive) id
    · rename_i hg
      rw [hg] at hgive
      exact hgive

theorem Steady.completeAtOnce (hP : Steady obs P) (h : P w.shared) (id : JobId)
    (output : ContextId) : P (w.completeAtOnce obs id output).shared := by
  have hgive := hP.giveOutput h id output
  unfold Worker.completeAtOnce
  dsimp only
  split
  · rename_i hg
    rw [hg] at hgive
    exact hP.notify hgive id
  · rename_i hg
    rw [hg] at hgive
    exact hgive

theorem Durable.finishContexts (hP : Durable obs P) (h : P w.shared) (n : Nat) :
    P (w.finishContexts n).shared := by
  induction n generalizing w with
  | zero => exact h
  | succ n ih => exact ih (hP.mark _ (hP.desk _ _ h))

theorem Steady.finishJobs (hP : Steady obs P) (h : P w.shared) (n : Nat) :
    P (finishJobs obs n w).shared := by
  induction n generalizing w with
  | zero => exact h
  | succ n ih =>
    cases hq : w.shared.desk.inProgress with
    | nil =>
      rw [finishJobs_nil hq]
      exact hP.report _ _ (hP.desk _ _ h)
    | cons id rest =>
      rw [finishJobs_cons hq]
      refine ih (hP.complete ?_ id)
      exact hP.desk _ _ h

theorem Durable.finishAll (hP : Durable obs P) (h : P w.shared) : P (w.finishAll obs).shared :=
  hP.finishJobs (hP.finishContexts (w := w.declare) (hP.desk _ _ (hP.desk _ _ h)) _) _

variable (obs) in
theorem durable_active (a : List ContextId) :
    Durable obs fun s => s.work.state.active = a := by
  refine ⟨⟨fun _ _ h => h, fun _ _ h => h, fun _ _ _ _ _ _ h => h, fun _ _ _ h => h⟩, ?_⟩
  intro s h
  simp only [Saturation.markNext, Workspace.markNext]
  split
  · exact h
  · rw [Workspace.state_markSaturated]
    exact h

theorem durable_later (obs : JobObserver α σ) (e : σ) :
    Durable obs.recording fun s => obs.Later e s.env.1 :=
  ⟨⟨fun _ _ h => h, fun _ _ h => h, fun _ _ _ _ _ _ h => h, fun _ j c h => h.finished j c⟩,
    fun _ h => h⟩

theorem steady_state (s₀ : State) : Steady obs fun s => s.work.state = s₀ :=
  ⟨fun _ _ h => h, fun _ _ h => h, fun _ _ _ _ _ _ h => h, fun _ _ _ h => h⟩

end

end Worker

end Subsumption
