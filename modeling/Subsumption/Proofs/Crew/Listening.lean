import Mathlib.Data.List.Forall2
import Subsumption.Proofs.Crew.Endings
import Subsumption.Proofs.Worker.Surroundings

/-! What the listener of a crew is told. A listener may keep a record, to which nothing is added but
what it is called with; in every course the record is, one by one and in this order, of the jobs
that the course says notice is given of. -/
namespace Subsumption

variable {α σ : Type} {obs : JobObserver α σ}

/-! ### Steps with a listener that keeps a record -/

namespace Saturation

/-- The same data, with a listener that has recorded notices. -/
def hearing (l : Notices α) (s : Saturation α σ) : Saturation α (σ × Notices α) :=
  { s with env := (s.env, l) }

/-- What the listener is to be called with for a job, if the output of the job can be looked up. -/
def noticeOf (s : Saturation α σ) (job : JobId) : Notices α :=
  match s.job? job with
  | some j => ((j.output.bind s.work.context?).map fun c => (j, c)).toList
  | none => []

variable {l : Notices α} (s : Saturation α σ)

theorem poll_hearing (obs : JobObserver α σ) :
    (s.hearing l).poll obs.recording = ((s.poll obs).1, (s.poll obs).2.hearing l) := rfl

theorem giveOutput_hearing (job : JobId) (output : ContextId) :
    (s.hearing l).giveOutput job output =
      ((s.giveOutput job output).1, (s.giveOutput job output).2.hearing l) := by
  have hjob : (s.hearing l).job? job = s.job? job := rfl
  simp only [giveOutput, hjob]
  cases s.job? job with
  | none => rfl
  | some j =>
    dsimp only
    cases j.setOutput output <;> rfl

/-- The listener is called with this, and with nothing else. -/
theorem notify_hearing (obs : JobObserver α σ) (job : JobId) :
    (s.hearing l).notify obs.recording job = (s.notify obs job).hearing (l ++ s.noticeOf job) := by
  have hjob : (s.hearing l).job? job = s.job? job := rfl
  have hwork : (s.hearing l).work = s.work := rfl
  simp only [notify, noticeOf, hjob, hwork]
  cases s.job? job with
  | none => simp
  | some j =>
    dsimp only
    cases j.output.bind s.work.context? with
    | none => simp
    | some c => rfl

theorem perform_hearing (stats : RuleStatistics) (a : Action) :
    Agenda.perform (s.hearing l) stats a =
      ((Agenda.perform s stats a).1.hearing l, (Agenda.perform s stats a).2) := by
  have hwork : (s.hearing l).work = s.work := rfl
  cases a with
  | locate root ks =>
    simp only [Agenda.perform, hwork]
    cases s.work.state.find? root <;> rfl
  | activate id =>
    simp only [Agenda.perform, hwork]
    cases s.work.isActive id <;> rfl
  | _ => rfl

end Saturation

/-- The same move, with a listener that has recorded notices. -/
def Move.hearing (l : Notices α) (mv : Move α σ) : Move α (σ × Notices α) :=
  ⟨mv.shared.hearing l, mv.lock, mv.member, mv.wakes⟩

/-- The record of the listener after the step of a worker. -/
def PC.record (l : Notices α) (s : Saturation α σ) : PC → Notices α
  | .notify _ job | .notifyAtOnce job => l ++ s.noticeOf job
  | _ => l

namespace Member

variable {s : Saturation α σ} {lock : Option Nat} {me : Nat} {m : Member} {l : Notices α}

theorem stepPass_hearing : m.stepPass obs.recording (s.hearing l) lock =
    (m.stepPass obs s lock).map (.hearing (m.pc.record l s)) := by
  have hwork : (s.hearing l).work = s.work := rfl
  obtain ⟨pc, rules, jobs⟩ := m
  cases pc with
  | poll =>
    simp only [stepPass, Saturation.poll_hearing]
    cases s.poll obs with
    | mk b s' => cases b <;> rfl
  | take =>
    simp only [stepPass, hwork]
    cases s.work.takeActive? <;> rfl
  | pop id =>
    simp only [stepPass, hwork]
    cases s.work.pop? id <;> rfl
  | derive id k =>
    simp only [stepPass, hwork]
    cases s.work.context? id <;> rfl
  | act hand agenda =>
    cases agenda with
    | nil => cases hand <;> rfl
    | cons a rest =>
      simp only [stepPass, Saturation.perform_hearing]
      rfl
  | recheck id =>
    simp only [stepPass, hwork]
    cases s.work.hasPending id <;> rfl
  | retake id =>
    simp only [stepPass, hwork]
    cases s.work.isActive id <;> rfl
  | _ => rfl

theorem stepLeave_hearing : m.stepLeave (s.hearing l) lock =
    (m.stepLeave s lock).map (.hearing (m.pc.record l s)) := by
  have hdesk : (s.hearing l).desk = s.desk := rfl
  obtain ⟨pc, rules, jobs⟩ := m
  cases pc with
  | raiseInterrupt v seen =>
    simp only [stepLeave, hdesk]
    rcases tryRaise s.desk.counters.lastInterrupt v seen with ⟨_, _ | _⟩ <;> rfl
  | raiseJobs c v seen =>
    simp only [stepLeave, hdesk]
    rcases tryRaise s.desk.counters.jobsProcessed v seen with ⟨_, _ | _⟩ <;> rfl
  | raiseContexts v seen =>
    simp only [stepLeave, hdesk]
    rcases tryRaise s.desk.counters.contextsProcessed v seen with ⟨_, _ | _⟩ <;> rfl
  | compareInterrupt | comparePasses =>
    simp only [stepLeave, hdesk]
    split <;> rfl
  | _ => rfl

theorem stepFinish_hearing : m.stepFinish obs.recording (s.hearing l) lock =
    (m.stepFinish obs s lock).map (.hearing (m.pc.record l s)) := by
  have hwork : (s.hearing l).work = s.work := rfl
  have hdesk : (s.hearing l).desk = s.desk := rfl
  obtain ⟨pc, rules, jobs⟩ := m
  cases pc with
  | compareContexts | claimContext | compareJobs | claimJob =>
    simp only [stepFinish, hdesk]
    split <;> rfl
  | takeUnsaturated b =>
    simp only [stepFinish, hwork]
    cases s.work.state.unsaturated <;> rfl
  | takeInProgress b =>
    simp only [stepFinish, Saturation.popInProgress?, hdesk]
    cases s.desk.inProgress <;> rfl
  | locateOutput b job =>
    have hroot : (s.hearing l).rootOf job = s.rootOf job := rfl
    simp only [stepFinish, hwork, hroot]
    cases s.work.state.find? (s.rootOf job) <;> rfl
  | giveOutput b job output =>
    simp only [stepFinish, Saturation.giveOutput_hearing]
    rcases s.giveOutput job output with ⟨_ | _, _⟩ <;> rfl
  | notify b job =>
    have hreport : (s.hearing l).report (.saturationFinished ((s.hearing l).labelOf job)) =
        (s.report (.saturationFinished (s.labelOf job))).hearing l := rfl
    simp only [stepFinish, hreport, Saturation.notify_hearing]
    rfl
  | _ => rfl

theorem stepPark_hearing : m.stepPark obs.recording (s.hearing l) lock me =
    (m.stepPark obs s lock me).map (.hearing (m.pc.record l s)) := by
  have hdesk : (s.hearing l).desk = s.desk := rfl
  obtain ⟨pc, rules, jobs⟩ := m
  cases pc with
  | loadWaiting | parkCompare =>
    simp only [stepPark, hdesk]
    split <;> rfl
  | wakeLock | parkLock | awake => cases lock <;> rfl
  | parkPoll =>
    simp only [stepPark, Saturation.poll_hearing]
    rcases s.poll obs with ⟨_ | _, _⟩ <;> rfl
  | _ => rfl

theorem stepJobs_hearing : m.stepJobs obs.recording (s.hearing l) lock =
    (m.stepJobs obs s lock).map (.hearing (m.pc.record l s)) := by
  have hwork : (s.hearing l).work = s.work := rfl
  have hdesk : (s.hearing l).desk = s.desk := rfl
  obtain ⟨pc, rules, jobs⟩ := m
  cases pc with
  | pollJobs =>
    simp only [stepJobs, Saturation.poll_hearing]
    rcases s.poll obs with ⟨_ | _, _⟩ <;> rfl
  | compareThreshold processed =>
    simp only [stepJobs, hdesk]
    split <;> rfl
  | takeJob =>
    simp only [stepJobs, Saturation.popToDo?, hdesk]
    cases s.desk.toDo <;> rfl
  | locateJob job =>
    have hroot : (s.hearing l).rootOf job = s.rootOf job := rfl
    simp only [stepJobs, hwork, hroot]
    cases s.work.state.find? (s.rootOf job) <;> rfl
  | checkSaturated job id =>
    simp only [stepJobs, hwork]
    split <;> rfl
  | giveAtOnce job output =>
    simp only [stepJobs, Saturation.giveOutput_hearing]
    rcases s.giveOutput job output with ⟨_ | _, _⟩ <;> rfl
  | notifyAtOnce job =>
    simp only [stepJobs, Saturation.notify_hearing]
    rfl
  | _ => rfl

/-- A step with a listener that keeps a record is the step without, and the record grows by the
notice that is given in it. -/
theorem step_hearing : m.step obs.recording (s.hearing l) lock me =
    (m.step obs s lock me).map (.hearing (m.pc.record l s)) := by
  simp only [step, stepPass_hearing, stepLeave_hearing, stepFinish_hearing, stepPark_hearing,
    stepJobs_hearing, Option.orElse_eq_orElse, Option.orElse_eq_or, Option.map_or]

end Member

theorem PC.deeds_hearing (obs : JobObserver α σ) (s : Saturation α σ) (l : Notices α) (pc : PC) :
    pc.deeds obs.recording (s.hearing l) = pc.deeds obs s := by
  cases pc with
  | giveOutput | giveAtOnce => simp only [deeds, Saturation.giveOutput_hearing]
  | _ => rfl

/-! ### Courses that are listened to -/

namespace Crew

variable {c₀ c₁ c : Crew α (σ × Notices α)} {d₀ d : Crew α σ} {ds ds' : List Deed} {i : Nat}
  {m : Member}

/-- The same crew, with a listener that has recorded notices. -/
def hearing (l : Notices α) (c : Crew α σ) : Crew α (σ × Notices α) :=
  ⟨c.shared.hearing l, c.lock, c.members⟩

/-- A course with a listener that keeps a record. Only workers add to the record; the surroundings
may change as they like otherwise. -/
inductive Overheard (obs : JobObserver α σ) (c₀ : Crew α (σ × Notices α)) :
    List Deed → Crew α (σ × Notices α) → Prop
  | start : Overheard obs c₀ [] c₀
  | step {ds c i m c'} (h : Overheard obs c₀ ds c) (hm : c.members[i]? = some m)
    (hs : c.step obs.recording i = some c') :
    Overheard obs c₀ (m.pc.deeds obs.recording c.shared ++ ds) c'
  | aside {ds c ds' c'} (h : Overheard obs c₀ ds c) (ht : Turn obs.recording c ds' c')
    (hl : c'.shared.env.2 = c.shared.env.2) : Overheard obs c₀ (ds' ++ ds) c'

theorem Overheard.course (h : Overheard obs c₀ ds c) : Course obs.recording c₀ ds c := by
  induction h with
  | start => exact .start
  | step _ hm hs ih => exact ih.turn (.step hm hs)
  | aside _ ht _ ih => exact ih.turn ht

theorem Overheard.append (h : Overheard obs c₀ ds c₁) (h' : Overheard obs c₁ ds' c) :
    Overheard obs c₀ (ds' ++ ds) c := by
  induction h' with
  | start => exact h
  | step _ hm hs ih =>
    rw [List.append_assoc]
    exact ih.step hm hs
  | aside _ ht hl ih =>
    rw [List.append_assoc]
    exact ih.aside ht hl

theorem step_hearing (l : Notices α) (hm : d.members[i]? = some m) :
    (d.hearing l).step obs.recording i =
      (d.step obs i).map (.hearing (m.pc.record l d.shared)) := by
  have hm' : (d.hearing l).members[i]? = some m := hm
  have hmove : m.step obs.recording (d.hearing l).shared (d.hearing l).lock i =
      (m.step obs d.shared d.lock i).map (.hearing (m.pc.record l d.shared)) := Member.step_hearing
  simp only [Crew.step, hm, hm', hmove]
  cases m.step obs d.shared d.lock i <;> rfl

/-- Every course can be listened to. -/
theorem Course.overheard (h : Course obs d₀ ds d) (l₀ : Notices α) :
    ∃ l, Overheard obs (d₀.hearing l₀) ds (d.hearing l) := by
  induction h with
  | start => exact ⟨l₀, .start⟩
  | @turn ds d _ _ _ ht ih =>
    obtain ⟨l, hl⟩ := ih
    cases ht with
    | @step i m _ hm hs =>
      have hs' : (d.hearing l).step obs.recording i = _ := step_hearing l hm
      rw [hs] at hs'
      have hd : m.pc.deeds obs.recording (d.hearing l).shared = m.pc.deeds obs d.shared :=
        PC.deeds_hearing obs d.shared l m.pc
      exact ⟨_, hd ▸ hl.step hm hs'⟩
    | call hm hr => exact ⟨l, hl.aside (.call hm hr) rfl⟩
    | submit hm hr hj => exact ⟨l, hl.aside (.submit hm hr hj) rfl⟩
    | join => exact ⟨l, hl.aside .join rfl⟩
    | make root payload => exact ⟨l, hl.aside (.make root payload) rfl⟩
    | surroundings env => exact ⟨l, hl.aside (.surroundings (env, l)) rfl⟩
    | alert => exact ⟨l, hl.aside .alert rfl⟩
    | wake => exact ⟨l, hl.aside .wake rfl⟩

theorem overheard_runTurns (obs : JobObserver α σ) (turn : Nat → Nat) (fuel : Nat)
    (c : Crew α (σ × Notices α)) : Overheard obs c (recordTurns obs.recording turn fuel c)
      (c.runTurns obs.recording turn fuel) := by
  have h := runTurns_invariant (P := Overheard obs c) turn Overheard.step fuel .start
  rwa [List.append_nil] at h

end Crew

/-! ### What has been told -/

theorem Saturation.Fresh.hearing {s : Saturation α σ} (h : s.Fresh) (l : Notices α) :
    (s.hearing l).Fresh := ⟨h.state, h.desk, h.jobs⟩

section
variable {s s' : Saturation α σ} {ps ps' : Multiset PC} {pc pc' : PC}
  {ds ds' : List Deed} {job : JobId} {n : Job α × Context}

/-- The listener has been called for a job: with the job as it still is, its output being the
context of the root, and with a context of that root. -/
structure Saturation.Told (s : Saturation α σ) (job : JobId) (n : Job α × Context) : Prop where
  job : s.job? job = some n.1
  output : ∃ o d, n.1.output = some o ∧ s.work.Stands n.1.root o d
  root : n.2.root = n.1.root

/-- A job that has got its output stays as it is. -/
theorem job?_act {j : Job α} (h : Act s pc ds s' pc') (hj : s.job? job = some j)
    (ho : j.output ≠ none) : s'.job? job = some j := by
  have hset : ∀ {x jx output}, s.job? x = some jx → jx.output = none →
      ({ s with jobs := s.jobs.setIfInBounds x.index { jx with output := some output } } :
        Saturation α σ).job? job = some j := by
    intro x jx output hx hxo
    rw [job?_setOutput hx, if_neg, hj]
    rintro rfl
    cases hj.symm.trans hx
    exact ho hxo
  cases h with
  | perform h => cases h <;> exact hj
  | giveOutput hx hxo | giveAtOnce hx hxo => exact hset hx hxo
  | _ => exact hj

theorem Saturation.Told.shift (ht : s.Told job n) (hw : s.work.Coherent)
    (h : Shift s ps ds s' ps') : s'.Told job n := by
  obtain ⟨o, d, ho, hd⟩ := ht.output
  obtain ⟨d', hd', _⟩ := (grows_shift hw h).stands _ o d hd
  refine ⟨?_, ⟨o, d', ho, hd'⟩, ht.root⟩
  cases h with
  | act h => exact job?_act h ht.job (by simp [ho])
  | make root payload =>
    obtain ⟨hlt, hget⟩ := Array.getElem?_eq_some_iff.mp ht.job
    simpa [Saturation.job?, Array.getElem?_push_lt hlt] using hget
  | _ => exact ht.job

/-- The listener is called in a step for the job that the step is said to give notice of. -/
theorem told_deeds (obs : JobObserver α σ) (hw : s.work.Coherent) (hn : Noticed ds s ps)
    (hpc : pc ∈ ps) : ∃ l, (∀ l₀, pc.record l₀ s = l₀ ++ l) ∧
      List.Forall₂ s.Told (notices (pc.deeds obs s)).reverse l := by
  have hnotice : ∀ {job}, job ∈ pc.notifying →
      List.Forall₂ s.Told (notices (s.notices job)).reverse (s.noticeOf job) := by
    intro job hjob
    obtain ⟨o, ho⟩ := hn.outputOf_of_notifying hpc hjob
    obtain ⟨j, hj, hjo⟩ := Option.bind_eq_some_iff.mp ho
    have hroot : s.rootOf job = j.root := by simp [Saturation.rootOf, hj]
    have hf : s.work.state.find? j.root = some o := hroot ▸ hn.right job o ho
    obtain ⟨d, hd, hdroot⟩ := hw.rooted _ o hf
    rw [notices_eq hw ho (hn.right job o ho)]
    simp only [Saturation.noticeOf, hj, hjo, Option.bind_some, hd, Option.map_some,
      Option.toList_some]
    exact .cons ⟨hj, ⟨o, d, hjo, hf, hd⟩, hdroot⟩ .nil
  cases pc with
  | notify b job => exact ⟨_, fun _ => rfl, hnotice (List.mem_singleton_self job)⟩
  | notifyAtOnce job => exact ⟨_, fun _ => rfl, hnotice (List.mem_singleton_self job)⟩
  | poll | pollJobs | checkSaturated | locateOutput | giveOutput | giveAtOnce =>
    refine ⟨[], fun _ => (List.append_nil _).symm, ?_⟩
    simp only [PC.deeds]
    split <;> exact .nil
  | _ => exact ⟨[], fun _ => (List.append_nil _).symm, .nil⟩

end

namespace Crew

variable {c c' : Crew α (σ × Notices α)} {s : Saturation α σ} {ds : List Deed} {workers i : Nat}
  {m : Member}

theorem record_step (hm : c.members[i]? = some m) (h : c.step obs.recording i = some c') :
    c'.shared.env.2 = m.pc.record c.shared.env.2 c.shared := by
  let d : Crew α σ := ⟨{ c.shared with env := c.shared.env.1 }, c.lock, c.members⟩
  have hstep : c.step obs.recording i = (d.step obs i).map _ :=
    step_hearing (d := d) c.shared.env.2 hm
  rw [h] at hstep
  obtain ⟨d', _, rfl⟩ := Option.map_eq_some_iff.mp hstep.symm
  rfl

theorem told_step (hr : Recorded ds c.shared c.places) (hm : c.members[i]? = some m)
    (h : c.step obs.recording i = some c')
    (ht : List.Forall₂ c.shared.Told (notices ds).reverse c.shared.env.2) :
    List.Forall₂ c'.shared.Told (notices (m.pc.deeds obs.recording c.shared ++ ds)).reverse
      c'.shared.env.2 := by
  have hw := hr.orderly.enrolled.coherent
  have hshift := shift_of_turn (.step hm h)
  have hawake : m.pc ∈ c.places := by
    cases hs : m.step obs.recording c.shared c.lock i with
    | none => simp [Crew.step, hm, hs] at h
    | some mv => exact awake_of_act (act_of_step hs) ▸ mem_places (Array.mem_of_getElem? hm)
  obtain ⟨l, hl, hnew⟩ := told_deeds obs.recording hw hr.noticed hawake
  rw [record_step hm h, hl, notices_append, List.reverse_append]
  exact List.rel_append (ht.imp fun _ _ h => h.shift hw hshift)
    (hnew.imp fun _ _ h => h.shift hw hshift)

/-- At all times the listener has been called for the jobs that the course says, in this order, and
for nothing else. -/
theorem Overheard.told (hs : s.Fresh) (h : Overheard obs (.new (s.hearing []) workers) ds c) :
    List.Forall₂ c.shared.Told (notices ds).reverse c.shared.env.2 := by
  have hfresh := hs.hearing []
  induction h with
  | start => exact .nil
  | step h hm hstep ih => exact told_step (h.course.recorded hfresh) hm hstep ih
  | aside h hturn hl ih =>
    have hr := h.course.recorded hfresh
    have hlater := ih.imp fun _ _ ht => ht.shift hr.orderly.enrolled.coherent (shift_of_turn hturn)
    rw [← hl] at hlater
    cases hturn with
    | step hm hstep => exact told_step hr hm hstep ih
    | _ => exact hlater

end Crew
end Subsumption
