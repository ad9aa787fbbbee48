import Subsumption.Proofs.Worker.Finishing

/-! How one worker serves its jobs: one after the other, each with a pass of its own. A call that
the flag stops leaves the worker where a later call goes on in the same way. -/
namespace Subsumption.Worker

open JobObserver

variable {α σ : Type}

/-! ### Passes -/

/-- `c'` are the counters after some contexts have been created. -/
structure Opened (c c' : Counters) : Prop where
  created : c.contextsCreated ≤ c'.contextsCreated
  others : c' = { c with contextsCreated := c'.contextsCreated }

section
variable {obs : JobObserver α σ} {n : Nat} {c c' : Counters}

theorem Opened.create (h : Opened c c') :
    Opened c { c' with contextsCreated := c'.contextsCreated + 1 } := by
  refine ⟨Nat.le_succ_of_le h.created, ?_⟩
  rw [h.others]

theorem Opened.lastInterrupt (h : Opened c c') : c'.lastInterrupt = c.lastInterrupt := by
  rw [h.others]

theorem Opened.balanced (h : Opened c c') {d : Dispatcher} (hd : d.counters = c)
    (hb : d.Balanced n) : ({ d with counters := c' } : Dispatcher).Balanced n := by
  subst hd
  rw [h.others]
  exact ⟨hb.passes, hb.interrupt, hb.contexts, hb.created.trans h.created, hb.jobs, hb.progress,
    hb.waiting⟩

variable (obs) in
/-- What a submission does to the surroundings of the rule engine. -/
theorem opened_submit (w : Worker α σ) (root : NodeId) :
    Opened w.shared.desk.counters (w.ruleRun.submit (ruleObserver obs) root).2.env.1 ∧
      (w.ruleRun.submit (ruleObserver obs) root).2.env.2 = w.shared.env := by
  have halike : RuleRun.Alike (fun (x : Counters × σ) (_ : Unit) =>
      Opened w.shared.desk.counters x.1 ∧ x.2 = w.shared.env) w.ruleRun
      ⟨w.shared.work, w.rules, ()⟩ := ⟨rfl, rfl, ⟨Nat.le_refl _, rfl⟩, rfl⟩
  have hnotice : RuleRun.TakeNotice (fun (x : Counters × σ) (_ : Unit) =>
      Opened w.shared.desk.counters x.1 ∧ x.2 = w.shared.env) (ruleObserver obs)
      ⟨fun t => (false, t), fun _ t => t⟩ := fun _ _ _ h => ⟨h.1.create, h.2⟩
  exact (halike.obtain hnotice root).2.env

/-- What a pass does to the surroundings of the rule engine. -/
theorem opened_passes {w : Worker α σ} {b : Bool} {r : RuleRun (Counters × σ)}
    (h : RuleRun.Passes (ruleObserver obs) w.shared.desk.timed none w.ruleRun b r) :
    Opened w.shared.desk.counters r.env.1 ∧ ∃ e, obs.Later w.shared.env e ∧
      obs.poll e = (b, r.env.2) := by
  have hstart : Opened w.shared.desk.counters w.ruleRun.env.1 ∧
      obs.Later w.shared.env w.ruleRun.env.2 := ⟨⟨Nat.le_refl _, rfl⟩, .refl⟩
  obtain ⟨x, ⟨hopened, hlater⟩, hpoll⟩ := h.env (P := fun x : Counters × σ =>
    Opened w.shared.desk.counters x.1 ∧ obs.Later w.shared.env x.2)
    (by intro c x hx; exact ⟨hx.1.create, hx.2⟩) (by intro x hx; exact ⟨hx.1, hx.2.poll⟩) hstart
  simp only [ruleObserver, Prod.mk.injEq] at hpoll
  refine ⟨?_, x.2, hlater, Prod.ext hpoll.1 ?_⟩
  · rw [← hpoll.2]
    exact hopened
  · rw [← hpoll.2]

end

/-- All contexts and jobs are finished, and no context waits. -/
structure Level (w : Worker α σ) : Prop where
  counters : w.shared.desk.counters.settled = w.shared.desk.counters
  inProgress : w.shared.desk.inProgress = []
  active : w.shared.work.state.active = []

section
variable {obs : JobObserver α σ} {w : Worker α σ} {n : Nat}

theorem balanced_finishAll (hw : w.shared.desk.Balanced n) :
    (w.finishAll obs).shared.desk.Balanced n := by
  rw [desk_finishAll hw _]
  exact ⟨hw.passes, hw.interrupt, rfl, Nat.le_refl _, rfl, Nat.zero_add _, hw.waiting⟩

theorem level_finishAll (hw : w.shared.desk.Balanced n) (ha : w.shared.work.state.active = [])
    (obs : JobObserver α σ) :
    (w.finishAll obs).Level := by
  refine ⟨?_, ?_, (durable_active obs []).finishAll ha⟩
  · rw [desk_finishAll hw _]
    rfl
  · rw [desk_finishAll hw _]

end

/-- Where everything is finished, there is nothing to finish. -/
theorem finishAll_of_level {obs : JobObserver α σ} {w : Worker α σ} (h : w.Level) :
    w.finishAll obs = w := by
  have hc := h.counters
  have hcreated : w.shared.desk.counters.contextsCreated =
      w.shared.desk.counters.contextsProcessed :=
    congrArg Counters.contextsProcessed hc
  have hfinished : w.shared.desk.counters.contextsCreated =
      w.shared.desk.counters.contextsFinished :=
    congrArg Counters.contextsFinished hc
  have hsubmitted : w.shared.desk.counters.jobsSubmitted = w.shared.desk.counters.jobsProcessed :=
    congrArg Counters.jobsProcessed hc
  have hdone : w.shared.desk.counters.jobsSubmitted = w.shared.desk.counters.jobsFinished :=
    congrArg Counters.jobsFinished hc
  have hdeclare : w.declare = w := by
    simp only [declare, mapShared, Saturation.raiseJobsProcessed, Saturation.raiseContextsProcessed,
      Saturation.mapCounters, Counters.raise_snd, Nat.max_eq_left (Nat.le_of_eq hcreated),
      Nat.max_eq_left (Nat.le_of_eq hsubmitted)]
  rw [finishAll, hdeclare, ← hcreated, ← hsubmitted, ← hfinished, ← hdone, Nat.sub_self,
    Nat.sub_self]
  rfl

/-- A pass that nothing stops. -/
def settle (w : Worker α (Notices α)) : Worker α (Notices α) :=
  (w.withRules (w.ruleRun.process (ruleObserver recorder) w.shared.desk.timed).2).finishAll recorder

theorem recorder_calm (x : Counters × Notices α) :
    (ruleObserver recorder).poll x = (false, x) := rfl

theorem settle_eq {w : Worker α (Notices α)} {r : RuleRun (Counters × Notices α)}
    (h : RuleRun.Passes (ruleObserver recorder) w.shared.desk.timed none w.ruleRun false r) :
    w.settle = (w.withRules r).finishAll recorder := by
  have hprocess := RuleRun.passes_process (ruleObserver recorder) w.shared.desk.timed w.ruleRun
  rw [settle, (hprocess.unique h).2]

/-- Where there is nothing to do, a pass does nothing. -/
theorem settle_of_level {w : Worker α (Notices α)} (h : w.Level) : w.settle = w := by
  have hpass : RuleRun.Passes (ruleObserver recorder) w.shared.desk.timed none w.ruleRun false
      w.ruleRun :=
    .drained (recorder_calm _) (by simp [Workspace.takeActive?, ruleRun, h.active])
  rw [settle_eq hpass]
  exact finishAll_of_level h

theorem Level.results {w : Worker α (σ × Notices α)} (h : w.Level) : w.results.Level :=
  ⟨congrArg Counters.essence h.counters, h.inProgress, h.active⟩

/-- The surroundings of the rule engine agree apart from the flag and the counters of passes and
interruptions. -/
def Agree (x : Counters × (σ × Notices α)) (y : Counters × Notices α) : Prop :=
  x.1.essence = y.1 ∧ x.2.2 = y.2

theorem takeNotice_agree (obs : JobObserver α σ) :
    RuleRun.TakeNotice Agree (ruleObserver obs.recording) (ruleObserver recorder) := by
  rintro c x ⟨_, _⟩ ⟨rfl, hn⟩
  exact ⟨rfl, hn⟩

/-- No pass has been stopped on the way to `v`. -/
def Undisturbed (w v : Worker α σ) : Prop :=
  v.shared.desk.counters.lastInterrupt = w.shared.desk.counters.lastInterrupt

theorem Undisturbed.trans {w v u : Worker α σ} (h : w.Undisturbed v) (h' : v.Undisturbed u) :
    w.Undisturbed u := Eq.trans h' h

section
variable {obs : JobObserver α σ} {w : Worker α (σ × Notices α)} {b : Bool}
  {r : RuleRun (Counters × (σ × Notices α))}

/-- What the rule engine works on is part of the results. -/
theorem results_withRules {s : RuleRun (Counters × Notices α)} (h : RuleRun.Alike Agree r s) :
    (w.withRules r).results = w.results.withRules s := by
  have hwork := h.work
  have hstats := h.stats
  obtain ⟨hcounters, hnotices⟩ := h.env
  simp only [withRules, results, Saturation.results, hwork, hstats, hcounters, hnotices]

/-- Going on from where a pass has led makes up for the pass. -/
theorem settle_withRules {w : Worker α (Notices α)} {s : RuleRun (Counters × Notices α)}
    (h : ∀ s', RuleRun.Passes (ruleObserver recorder) w.shared.desk.timed none s false s' →
      RuleRun.Passes (ruleObserver recorder) w.shared.desk.timed none w.ruleRun false s') :
    (w.withRules s).settle = w.settle := by
  have hp := RuleRun.passes_process (ruleObserver recorder) w.shared.desk.timed s
  rw [hp.calm recorder_calm] at hp
  rw [settle_eq (w := w.withRules s) hp, settle_eq (h _ hp)]
  rfl

/-- A pass under way comes to its end or is stopped. In both cases the counters are balanced
afterwards, and a pass that nothing stops leads from there to the same results as before. -/
theorem leave_pass (hw : w.shared.desk.Balanced 1) (hl : obs.Latching w.shared.env.1)
    (hp : RuleRun.Passes (ruleObserver obs.recording) w.shared.desk.timed none w.ruleRun b r) :
    let w' := (w.withRules r).leaveRules obs.recording b
    w'.shared.desk.Balanced 0 ∧ w'.shared.desk.toDo = w.shared.desk.toDo ∧
      obs.Later w.shared.env.1 w'.shared.env.1 ∧ w'.results.settle = w.results.settle ∧
      (obs.Raised w'.shared.env.1 ∨ w'.Level ∧ w.Undisturbed w') := by
  obtain ⟨hopened, x, hx, hpolled⟩ := opened_passes hp
  have hlater : obs.Later w.shared.env.1 x.1 := hx.of_recording
  have hpoll : obs.poll x.1 = (b, r.env.2.1) := by
    have hfirst := congrArg (·.1) hpolled
    have hsecond := congrArg (·.2.1) hpolled
    exact Prod.ext hfirst hsecond
  have hbalanced : (w.withRules r).shared.desk.Balanced 1 := hopened.balanced rfl hw
  have halike : RuleRun.Alike Agree w.ruleRun w.results.ruleRun := ⟨rfl, rfl, rfl, rfl⟩
  obtain ⟨s, hs, hgo⟩ := hp.resumes (takeNotice_agree obs) (fun _ _ h => h) recorder_calm halike
  have hsame := results_withRules (w := w) hs
  have hsettle := settle_withRules (w := w.results) hgo
  have henv : obs.Later w.shared.env.1 r.env.2.1 := by
    have := hlater.poll
    rwa [hpoll] at this
  cases b with
  | true =>
    have hraised : obs.Raised r.env.2.1 := by
      have := hl x.1 hlater
      rw [hpoll] at this
      exact this rfl
    rw [leaveRules_stopped hbalanced]
    exact ⟨⟨hbalanced.passes, Nat.le_refl _, hbalanced.contexts, hbalanced.created, hbalanced.jobs,
      hbalanced.progress, hbalanced.waiting⟩, rfl, henv, hsame ▸ hsettle, Or.inl hraised⟩
  | false =>
    have hended := Balanced.endPass hbalanced
    have hlevel := level_finishAll hended (hp.drains rfl) obs.recording
    have hresults : (((w.withRules r).mapShared (·.endPass)).finishAll obs.recording).results =
        w.results.settle := by
      have hdrained : s.work.state.active = [] := hs.work ▸ hp.drains rfl
      have hempty : s.work.takeActive? = none := by simp [Workspace.takeActive?, hdrained]
      rw [settle_eq (hgo s (.drained (recorder_calm _) hempty)), results_finishAll, ← hsame]
      rfl
    have hnoticed := (durable_later obs w.shared.env.1).finishAll
      (w := (w.withRules r).mapShared (·.endPass)) henv
    rw [leaveRules_ended hbalanced]
    refine ⟨balanced_finishAll hended, by rw [desk_finishAll hended _]; rfl, hnoticed, ?_,
      Or.inr ⟨hlevel, ?_⟩⟩
    · rw [settle_of_level hlevel.results, hresults]
    · rw [Undisturbed, desk_finishAll hended _]
      exact hopened.lastInterrupt

/-- The pass at the beginning of a call. -/
theorem leave_runRules (hw : w.shared.desk.Balanced 0) (hl : obs.Latching w.shared.env.1) :
    let w' := w.runRules obs.recording
    w'.shared.desk.Balanced 0 ∧ w'.shared.desk.toDo = w.shared.desk.toDo ∧
      obs.Later w.shared.env.1 w'.shared.env.1 ∧ w'.results.settle = w.results.settle ∧
      (obs.Raised w'.shared.env.1 ∨ w'.Level ∧ w.Undisturbed w') := by
  exact leave_pass (w := w.mapShared (·.startPass)) (Balanced.startPass hw) hl
    (RuleRun.passes_process _ _ _)

end

/-! ### A job -/

section
variable (obs : JobObserver α σ) (w : Worker α σ) (id : JobId)

/-- A job is put in progress, and its root submitted to the rule engine. -/
def handIn : Worker α σ :=
  let w := w.mapShared fun s =>
    ((s.report (.saturationStarted (s.labelOf id))).pushInProgress id).countSubmitted
  w.withRules (w.ruleRun.submit (ruleObserver obs) (w.shared.rootOf id)).2

/-- A job is put in progress, and its root is still to be submitted. -/
def announced : Worker α σ :=
  w.mapShared fun s =>
    ((s.report (.saturationStarted (s.labelOf id))).pushInProgress id).countSubmitted

theorem handIn_eq : w.handIn obs id = (w.announced id).withRules
    ((w.announced id).ruleRun.submit (ruleObserver obs) (w.shared.rootOf id)).2 := rfl

/-- What handing in a job does to the counters and the surroundings. -/
theorem opened_handIn :
    Opened (w.announced id).shared.desk.counters (w.handIn obs id).shared.desk.counters ∧
      (w.handIn obs id).shared.env = w.shared.env :=
  opened_submit obs (w.announced id) (w.shared.rootOf id)

end

theorem balanced_handIn (obs : JobObserver α σ) {w : Worker α σ} {n : Nat}
    (hw : w.shared.desk.Balanced n) (id : JobId) : (w.handIn obs id).shared.desk.Balanced n := by
  refine (opened_handIn obs w id).1.balanced rfl ⟨hw.passes, hw.interrupt, hw.contexts, hw.created,
    hw.jobs, ?_, hw.waiting⟩
  have hprogress := hw.progress
  simp only [mapShared, Saturation.pushInProgress, Saturation.countSubmitted, Saturation.report,
    Saturation.mapCounters, List.length_append, List.length_singleton]
  omega

section
variable {obs : JobObserver α σ} {w : Worker α (σ × Notices α)} {id : JobId}

theorem results_handIn (w : Worker α (σ × Notices α)) (id : JobId) :
    ((w.mapShared (·.startPass)).handIn obs.recording id).results
      = w.results.handIn recorder id := by
  have halike : RuleRun.Alike Agree ((w.mapShared (·.startPass)).announced id).ruleRun
      (w.results.announced id).ruleRun := ⟨rfl, rfl, rfl, rfl⟩
  exact results_withRules (halike.obtain (takeNotice_agree obs) (w.shared.rootOf id)).2

/-- The pass for a job that has just been taken. -/
theorem leave_runJob (hw : w.shared.desk.Balanced 0) (hl : obs.Latching w.shared.env.1) :
    let w' := w.runJob obs.recording id
    w'.shared.desk.Balanced 0 ∧ w'.shared.desk.toDo = w.shared.desk.toDo ∧
      obs.Later w.shared.env.1 w'.shared.env.1 ∧
      w'.results.settle = (w.results.handIn recorder id).settle ∧
      (obs.Raised w'.shared.env.1 ∨ w'.Level ∧ w.Undisturbed w') := by
  have hbalanced := balanced_handIn obs.recording (Balanced.startPass hw) id
  obtain ⟨hopened, henv⟩ := opened_handIn obs.recording (w.mapShared (·.startPass)) id
  have henv' : ((w.mapShared (·.startPass)).handIn obs.recording id).shared.env = w.shared.env :=
    henv
  have hundisturbed : w.Undisturbed ((w.mapShared (·.startPass)).handIn obs.recording id) :=
    hopened.lastInterrupt
  have hleave := leave_pass hbalanced (henv' ▸ hl) (RuleRun.passes_process _ _ _)
  rw [henv', results_handIn] at hleave
  obtain ⟨hbalanced', htodo, hlater, hsettle, hend⟩ := hleave
  exact ⟨hbalanced', htodo, hlater, hsettle,
    hend.imp_right fun h => ⟨h.1, hundisturbed.trans h.2⟩⟩

/-- A job whose root has a saturated context is completed at once. -/
theorem leave_completeAtOnce (obs : JobObserver α σ) (hw : w.shared.desk.Balanced 0) (h : w.Level)
    (id : JobId) (output : ContextId) :
    let w' := w.completeAtOnce obs.recording id output
    w'.shared.desk.Balanced 0 ∧ w'.shared.desk.toDo = w.shared.desk.toDo ∧
      obs.Later w.shared.env.1 w'.shared.env.1 ∧
      w'.results.settle = w.results.completeAtOnce recorder id output ∧
      w'.Level ∧ w.Undisturbed w' := by
  have hdesk := desk_completeAtOnce obs.recording w id output
  have hlater := (durable_later obs w.shared.env.1).completeAtOnce (w := w) .refl id output
  have hactive := (durable_active obs.recording []).completeAtOnce (w := w) h.active id output
  have hlevel : (w.completeAtOnce obs.recording id output).Level := by
    refine ⟨?_, ?_, hactive⟩
    · rw [hdesk]
      exact h.counters
    · rw [hdesk]
      exact h.inProgress
  refine ⟨hdesk ▸ hw, by rw [hdesk], hlater, ?_, hlevel, by rw [Undisturbed, hdesk]⟩
  rw [settle_of_level hlevel.results, results_completeAtOnce]

end

section
variable (obs : JobObserver α σ) (w : Worker α σ) (id : JobId)

/-- The worker when it has taken a job and `rest` are left. -/
def leaving (rest : List JobId) : Worker α σ :=
  w.mapShared fun s => { s with desk := { s.desk with toDo := rest } }

/-- What the worker does for a job that it has taken. -/
def attend : Worker α σ :=
  match w.saturated? (w.shared.rootOf id) with
  | some output => w.completeAtOnce obs id output
  | none => w.runJob obs id

/-- The same if nothing stops the pass. -/
def serve (w : Worker α (Notices α)) (id : JobId) : Worker α (Notices α) :=
  match w.saturated? (w.shared.rootOf id) with
  | some output => w.completeAtOnce recorder id output
  | none => (w.handIn recorder id).settle

end

section
variable {obs : JobObserver α σ} {w : Worker α (σ × Notices α)} {id : JobId}

theorem leave_attend (hw : w.shared.desk.Balanced 0) (hl : obs.Latching w.shared.env.1)
    (h : w.Level) (id : JobId) :
    let w' := w.attend obs.recording id
    w'.shared.desk.Balanced 0 ∧ w'.shared.desk.toDo = w.shared.desk.toDo ∧
      obs.Later w.shared.env.1 w'.shared.env.1 ∧ w'.results.settle = w.results.serve id ∧
      (obs.Raised w'.shared.env.1 ∨ w'.Level ∧ w.Undisturbed w') := by
  have hsaturated : w.results.saturated? (w.results.shared.rootOf id) =
      w.saturated? (w.shared.rootOf id) := rfl
  unfold attend serve
  rw [hsaturated]
  cases w.saturated? (w.shared.rootOf id) with
  | some output =>
    obtain ⟨hbalanced, htodo, hlater, hsame, hlevel⟩ :=
      leave_completeAtOnce obs hw h id output
    exact ⟨hbalanced, htodo, hlater, hsame, Or.inr hlevel⟩
  | none => exact leave_runJob hw hl

end

/-! ### All jobs -/

/-- One job after the other is served, each before the next is taken. -/
inductive Serves : Worker α (Notices α) → Worker α (Notices α) → Prop
  | done {w} (h : w.shared.desk.toDo = []) : Serves w w
  | job {w id rest w'} (h : w.shared.desk.toDo = id :: rest)
    (next : Serves ((w.leaving rest).serve id) w') : Serves w w'

theorem Serves.unique {w v v' : Worker α (Notices α)} (h : Serves w v) (h' : Serves w v') :
    v = v' := by
  induction h with
  | done hq =>
    cases h' with
    | done => rfl
    | job hq' => cases hq.symm.trans hq'
  | job hq _ ih =>
    cases h' with
    | done hq' => cases hq.symm.trans hq'
    | job hq' next =>
      cases hq.symm.trans hq'
      exact ih next

/-! ### Rounds of the loop over the jobs -/

section
variable (obs : JobObserver α σ) (w : Worker α σ)

/-- The worker after a poll of the flag. -/
def polled : Worker α σ := { w with shared := (w.shared.poll obs).2 }

/-- Whether the worker has to wait for contexts to be completed. -/
def full : Bool := w.shared.desk.isFull w.shared.desk.counters.contextsProcessed

end

/-- What the worker comes to in at most so many rounds, and how it leaves its loop. -/
inductive Rounds (obs : JobObserver α σ) : Nat → Worker α σ → Outcome → Worker α σ → Prop
  | unfinished {w} : Rounds obs 0 w .unfinished w
  | flagged {n w} (hset : (w.shared.poll obs).1 = true) :
    Rounds obs (n + 1) w .returned (w.polled obs)
  | parked {n w o v} (hclear : (w.shared.poll obs).1 = false) (hfull : (w.polled obs).full = true)
    (hset : ((w.polled obs).park obs).1 = true)
    (next : Rounds obs n ((w.polled obs).park obs).2 o v) : Rounds obs (n + 1) w o v
  | blocked {n w} (hclear : (w.shared.poll obs).1 = false) (hfull : (w.polled obs).full = true)
    (hwait : ((w.polled obs).park obs).1 = false) :
    Rounds obs (n + 1) w .blocked ((w.polled obs).park obs).2
  | done {n w} (hclear : (w.shared.poll obs).1 = false) (hroom : (w.polled obs).full = false)
    (hq : (w.polled obs).shared.desk.toDo = []) : Rounds obs (n + 1) w .returned (w.polled obs)
  | job {n w o v id rest} (hclear : (w.shared.poll obs).1 = false)
    (hroom : (w.polled obs).full = false) (hq : (w.polled obs).shared.desk.toDo = id :: rest)
    (next : Rounds obs n (((w.polled obs).leaving rest).attend obs id) o v) :
    Rounds obs (n + 1) w o v

section
variable {obs : JobObserver α σ} {w : Worker α σ} {id : JobId} {rest : List JobId} {fuel : Nat}

theorem loop_flagged (hset : (w.shared.poll obs).1 = true) :
    loop obs (fuel + 1) w = (.returned, w.polled obs) := by
  have hpoll : w.shared.poll obs = (true, (w.polled obs).shared) := Prod.ext hset rfl
  rw [loop, hpoll]
  rfl

theorem loop_full {b : Bool} {v : Worker α σ} (hclear : (w.shared.poll obs).1 = false)
    (hfull : (w.polled obs).full = true) (hpark : (w.polled obs).park obs = (b, v)) :
    loop obs (fuel + 1) w = if b then loop obs fuel v else (.blocked, v) := by
  have hpoll : w.shared.poll obs = (false, (w.polled obs).shared) := Prod.ext hclear rfl
  have hparked : ({ w with shared := (w.polled obs).shared } : Worker α σ).park obs = (b, v) :=
    hpark
  unfold full at hfull
  rw [loop]
  simp only [hpoll, hfull, if_true, hparked]
  cases b <;> rfl

theorem loop_done (hclear : (w.shared.poll obs).1 = false) (hroom : (w.polled obs).full = false)
    (hq : (w.polled obs).shared.desk.toDo = []) :
    loop obs (fuel + 1) w = (.returned, w.polled obs) := by
  have hpoll : w.shared.poll obs = (false, (w.polled obs).shared) := Prod.ext hclear rfl
  have hpop : (w.polled obs).shared.popToDo? = none := by simp [Saturation.popToDo?, hq]
  unfold full at hroom
  rw [loop]
  simp only [hpoll, hroom, Bool.false_eq_true, if_false, hpop]
  rfl

theorem loop_job (hclear : (w.shared.poll obs).1 = false) (hroom : (w.polled obs).full = false)
    (hq : (w.polled obs).shared.desk.toDo = id :: rest) :
    loop obs (fuel + 1) w = loop obs fuel (((w.polled obs).leaving rest).attend obs id) := by
  obtain ⟨v, hv⟩ : ∃ v, v = (w.polled obs).leaving rest := ⟨_, rfl⟩
  have hpoll : w.shared.poll obs = (false, (w.polled obs).shared) := Prod.ext hclear rfl
  have hpop : (w.polled obs).shared.popToDo? = some (id, v.shared) := by
    rw [hv]
    simp [Saturation.popToDo?, hq, leaving, mapShared]
  have hsame : (⟨v.shared, w.rules, w.jobs⟩ : Worker α σ) = v := by rw [hv]; rfl
  unfold full at hroom
  rw [loop, ← hv]
  simp only [hpoll, hroom, Bool.false_eq_true, if_false, hpop, hsame]
  unfold attend
  cases v.saturated? (v.shared.rootOf id) <;> rfl

end

theorem rounds_loop (obs : JobObserver α σ) (fuel : Nat) (w : Worker α σ) :
    Rounds obs fuel w (loop obs fuel w).1 (loop obs fuel w).2 := by
  induction fuel generalizing w with
  | zero => exact .unfinished
  | succ fuel ih =>
    cases hset : (w.shared.poll obs).1 with
    | true =>
      rw [loop_flagged hset]
      exact .flagged hset
    | false =>
      cases hfull : (w.polled obs).full with
      | true =>
        cases hpark : ((w.polled obs).park obs).1 with
        | true =>
          rw [loop_full hset hfull (Prod.ext hpark rfl)]
          exact .parked hset hfull hpark (ih _)
        | false =>
          rw [loop_full hset hfull (Prod.ext hpark rfl)]
          exact .blocked hset hfull hpark
      | false =>
        cases hq : (w.polled obs).shared.desk.toDo with
        | nil =>
          rw [loop_done hset hfull hq]
          exact .done hset hfull hq
        | cons id rest =>
          rw [loop_job hset hfull hq]
          exact .job hset hfull hq (ih _)

/-! ### A call -/

section
variable {obs : JobObserver α σ} {w : Worker α (σ × Notices α)}

theorem Level.not_full (h : w.Level) : w.full = false := by
  have hcreated : w.shared.desk.counters.contextsCreated
      = w.shared.desk.counters.contextsProcessed := congrArg Counters.contextsProcessed h.counters
  simp [full, Dispatcher.isFull, hcreated]

/-- The worker goes round its loop until it finds the flag set or no job, whichever comes first, and
never has to wait. What is served from where it stops is served from where it began. -/
theorem Rounds.serves {fuel : Nat} {o : Outcome} {v : Worker α (σ × Notices α)}
    (h : Rounds obs.recording fuel w o v) (hw : w.shared.desk.Balanced 0)
    (hl : obs.Latching w.shared.env.1) (hg : obs.Raised w.shared.env.1 ∨ w.Level)
    (hf : w.shared.desk.toDo.length + 2 ≤ fuel) :
    o = .returned ∧ v.shared.desk.Balanced 0 ∧ obs.Later w.shared.env.1 v.shared.env.1 ∧
      (∀ u, Serves v.results.settle u → Serves w.results.settle u) ∧
      (obs.Raised v.shared.env.1 ∨ v.Level ∧ w.Undisturbed v ∧ v.shared.desk.toDo = []) := by
  have hpolled (u : Worker α (σ × Notices α)) :
      obs.Later u.shared.env.1 (u.polled obs.recording).shared.env.1 := .poll .refl
  -- While the flag is found clear, no pass has been stopped.
  have hlevel {u : Worker α (σ × Notices α)} (hg : obs.Raised u.shared.env.1 ∨ u.Level)
      (hclear : (u.shared.poll obs.recording).1 = false) : (u.polled obs.recording).Level := by
    obtain ⟨hcounters, hprogress, hactive⟩ := hg.resolve_left fun hr => by
      rw [show (u.shared.poll obs.recording).1 = true from hr _ .refl] at hclear
      cases hclear
    exact ⟨hcounters, hprogress, hactive⟩
  induction h with
  | unfinished => omega
  | flagged hset => exact ⟨rfl, hw, hpolled _, fun _ hu => hu, Or.inl (hl _ .refl hset)⟩
  | parked hclear hfull | blocked hclear hfull =>
    rw [(hlevel hg hclear).not_full] at hfull
    cases hfull
  | done hclear _ hq =>
    exact ⟨rfl, hw, hpolled _, fun _ hu => hu, Or.inr ⟨hlevel hg hclear, rfl, hq⟩⟩
  | @job n w o v id rest hclear _ hq _ ih =>
    have htaken : Dispatcher.Balanced 0 ((w.polled obs.recording).leaving rest).shared.desk :=
      ⟨hw.passes, hw.interrupt, hw.contexts, hw.created, hw.jobs, hw.progress, hw.waiting⟩
    have hlast := hlevel hg hclear
    obtain ⟨hbalanced, htodo, hlater, hserve, hnext⟩ := leave_attend htaken
      (hl.later (hpolled w)) ⟨hlast.counters, hlast.inProgress, hlast.active⟩ id
    have hfuel : rest.length + 2 ≤ n := by
      rw [show w.shared.desk.toDo = id :: rest from hq, List.length_cons] at hf
      omega
    obtain ⟨hreturned, hbalanced', hlater', hgo, hend⟩ := ih hbalanced
      ((hl.later (hpolled w)).later hlater) (hnext.imp_right (·.1)) (by rw [htodo]; exact hfuel)
    refine ⟨hreturned, hbalanced', ((hpolled w).trans hlater).trans hlater', ?_, ?_⟩
    · intro u hu
      change Serves (w.polled obs.recording).results.settle u
      rw [settle_of_level hlast.results]
      exact .job hq (hserve ▸ hgo u hu)
    · rcases hnext with hr | ⟨_, hundisturbed⟩
      · exact Or.inl (hr.later hlater')
      · exact hend.imp_right fun h => ⟨h.1, hundisturbed.trans h.2.1, h.2.2⟩

/-- A call returns. What is served after it, if nothing stops that, is what would have been served
without the call; and the call has served all jobs, and no pass of it has been stopped, unless it
has found the flag set. -/
theorem process_serves (hw : w.shared.desk.Balanced 0) (hl : obs.Latching w.shared.env.1) :
    let p := w.process obs.recording
    p.1 = .returned ∧ p.2.shared.desk.Balanced 0 ∧ obs.Later w.shared.env.1 p.2.shared.env.1 ∧
      (∀ u, Serves p.2.results.settle u → Serves w.results.settle u) ∧
      (obs.Raised p.2.shared.env.1 ∨ p.2.Level ∧ w.Undisturbed p.2 ∧ p.2.shared.desk.toDo = [] ∧
        Serves w.results.settle p.2.results) := by
  obtain ⟨hbalanced, htodo, hlater, hsame, hg⟩ := leave_runRules hw hl
  obtain ⟨hreturned, hbalanced', hlater', hgo, hend⟩ :=
    (rounds_loop obs.recording _ _).serves hbalanced (hl.later hlater) (hg.imp_right (·.1))
      (Nat.le_refl _)
  rw [hsame] at hgo
  refine ⟨hreturned, hbalanced', hlater.trans hlater', hgo, ?_⟩
  rcases hg with hr | ⟨_, hundisturbed⟩
  · exact Or.inl (hr.later hlater')
  · refine hend.imp_right fun ⟨hlevel, hrest, hq⟩ =>
      ⟨hlevel, hundisturbed.trans hrest, hq, hgo _ ?_⟩
    rw [settle_of_level hlevel.results]
    exact .done hq

end

end Subsumption.Worker
