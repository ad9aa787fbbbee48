import Mathlib.Data.List.Perm.Basic
import Mathlib.Data.Multiset.MapFold
import Mathlib.Data.Multiset.Replicate
import Mathlib.Data.Multiset.ZeroCons
import Mathlib.Data.Option.Basic
import Subsumption.Proofs.Crew.Course
import Subsumption.Proofs.Delivery

/-! What a step of a worker can do, place by place. It is said once here; the invariants of a crew
are derived from it, by cases on what is done. -/
namespace Subsumption

variable {α σ : Type}

attribute [simp] Workspace.report Saturation.report Saturation.reportAll Saturation.mapCounters
  Saturation.pushToDo Saturation.pushInProgress Saturation.startPass Saturation.endPass
  Saturation.countSubmitted Saturation.countCreated Saturation.countContextFinished
  Saturation.countJobFinished

/-! ### Actions, place by place -/

namespace PC

/-- Whether the worker, between its passes, holds nothing and has seen nothing that matters. -/
def isFree : PC → Bool
  | .loadWaiting _ | .wakeLock | .wakeClear | .wakeAll => true
  | .pollJobs | .loadProcessed | .compareThreshold _ | .takeJob => true
  | .parkLock _ | .parkFlag _ | .parkCompare _ | .parkClear | .parkWakeAll | .parkPoll => true
  | .awake | .parkUnlock => true
  | _ => false

/-- To sleep is as good as to be awake and wait for the lock. -/
def woken : PC → PC
  | .asleep => .awake
  | pc => pc

end PC

/-- What carrying out an action does to the shared data, and the actions that it puts in front. -/
inductive Action.Does (s : Saturation α σ) : Action → Saturation α σ → Agenda → Prop
  | found {root ks id} (h : s.work.state.find? root = some id) :
    Does s (.locate root ks) s (ks.map (.push id))
  | opened {root ks} (h : s.work.state.find? root = none) :
    Does s (.locate root ks) { s with work := (s.work.insertContext root).2 }
      ([.enlist s.work.nextId] ++
        (RuleRun.initialConclusions s.work.state.ontology root).map (.push s.work.nextId) ++
        [.countCreated] ++ ks.map (.push s.work.nextId))
  | enlist {id} : Does s (.enlist id) { s with work := s.work.enlist id } []
  | countCreated : Does s .countCreated s.countCreated []
  | push {id k} : Does s (.push id k) { s with work := s.work.modify id (·.push k) } [.activate id]
  | outrun {id} (h : s.work.isActive id = true) : Does s (.activate id) s []
  | activate {id} (h : s.work.isActive id = false) :
    Does s (.activate id) { s with work := s.work.setActive id true } [.enqueue id]
  | enqueue {id} : Does s (.enqueue id) { s with work := s.work.enqueue id } []
  | countDecomposition : Does s .countDecomposition s []
  | countRule {kind} : Does s (.countRule kind) s []
  | reportRefuted {root} (e : Event) : Does s (.reportRefuted root) (s.report e) []

/-- What a worker does at a place of the program: the deeds, the shared data afterwards and the next
place. That a worker falls asleep is left out. -/
inductive Act (s : Saturation α σ) : PC → List Deed → Saturation α σ → PC → Prop
  -- A pass of the rule engine, once the worker has been called.
  | call : Act s .returned [] s .startPass
  | startPass : Act s .startPass [] s.startPass .poll
  | interrupted (env : σ) : Act s .poll [.stopped] { s with env } .loadStarted
  | polled (env : σ) : Act s .poll [] { s with env } .take
  | noneActive (h : s.work.state.active = []) : Act s .take [] s .endPass
  | take {id rest} (h : s.work.state.active = id :: rest) :
    Act s .take []
      { s with work := { s.work with state := { s.work.state with active := rest } } } (.pop id)
  | drained {id} (h : ∀ c, s.work.context? id = some c → c.pending = []) :
    Act s (.pop id) [] s (.release id)
  | pop {id c k rest} (hc : s.work.context? id = some c) (hp : c.pending = k :: rest) :
    Act s (.pop id) [] { s with work := s.work.modify id (·.popped) } (.derive id k)
  | lost {id k} (h : s.work.context? id = none) : Act s (.derive id k) [] s (.pop id)
  | derive {id k c} (hc : s.work.context? id = some c) :
    Act s (.derive id k) []
      { s with work := s.work.modify id fun _ =>
          (c.derive s.work.state.ontology (s.work.layout id) k).1 }
      (.act (some (id, k))
        ((c.derive s.work.state.ontology (s.work.layout id) k).2.map (Agenda.ofEffect id)))
  | applied {id k} : Act s (.act (some (id, k)) []) [] s (.pop id)
  | asked : Act s (.act none []) [] s .poll
  | perform {hand a rest s' more} (h : a.Does s s' more) :
    Act s (.act hand (a :: rest)) [] s' (.act hand (more ++ rest))
  | release {id} :
    Act s (.release id) [] { s with work := s.work.setActive id false } (.recheck id)
  | leave {id} (h : s.work.hasPending id = false) : Act s (.recheck id) [] s .poll
  | goBack {id} (h : s.work.hasPending id = true) : Act s (.recheck id) [] s (.retake id)
  | outrun {id} (h : s.work.isActive id = true) : Act s (.retake id) [] s .poll
  | retake {id} (h : s.work.isActive id = false) :
    Act s (.retake id) [] { s with work := s.work.setActive id true } (.pop id)
  -- The end of a pass.
  | loadStarted :
    Act s .loadStarted [] s (.raiseInterrupt s.desk.counters.workersStarted none)
  | seeInterrupt {v seen} :
    Act s (.raiseInterrupt v seen) [] s (.raiseInterrupt v (some s.desk.counters.lastInterrupt))
  | keepInterrupt {v x} (h : v ≤ x) : Act s (.raiseInterrupt v (some x)) [] s .endPass
  | raiseInterrupt {v} (h : s.desk.counters.lastInterrupt < v) :
    Act s (.raiseInterrupt v (some s.desk.counters.lastInterrupt)) []
      (s.mapCounters ({ · with lastInterrupt := v })) .endPass
  | endPass : Act s .endPass [] s.endPass (.loadInterrupt (s.desk.counters.workersFinished + 1))
  | loadInterrupt {f} :
    Act s (.loadInterrupt f) [] s (.compareInterrupt f s.desk.counters.lastInterrupt)
  | noneSince {f i} (h : s.desk.counters.workersStarted ≤ i) :
    Act s (.compareInterrupt f i) [] s (.loadContexts false)
  | startedSince {f i} (h : i < s.desk.counters.workersStarted) :
    Act s (.compareInterrupt f i) [] s (.loadCreated f)
  | loadCreated {f} :
    Act s (.loadCreated f) [] s (.loadSubmitted f s.desk.counters.contextsCreated)
  | loadSubmitted {f c} :
    Act s (.loadSubmitted f c) [] s (.comparePasses f c s.desk.counters.jobsSubmitted)
  | othersInside {f c j} (h : f < s.desk.counters.workersStarted) :
    Act s (.comparePasses f c j) [] s (.loadContexts false)
  | noneInside {f c j} (h : s.desk.counters.workersStarted ≤ f) :
    Act s (.comparePasses f c j) [] s (.raiseJobs c j none)
  | seeJobs {c v seen} :
    Act s (.raiseJobs c v seen) [] s (.raiseJobs c v (some s.desk.counters.jobsProcessed))
  | keepJobs {c v x} (h : v ≤ x) :
    Act s (.raiseJobs c v (some x)) [] s (.raiseContexts c none)
  | raiseJobs {c v} (h : s.desk.counters.jobsProcessed < v) :
    Act s (.raiseJobs c v (some s.desk.counters.jobsProcessed)) []
      (s.mapCounters ({ · with jobsProcessed := v })) (.raiseContexts c none)
  | seeContexts {v seen} :
    Act s (.raiseContexts v seen) [] s (.raiseContexts v (some s.desk.counters.contextsProcessed))
  | keepContexts {v x} (h : v ≤ x) :
    Act s (.raiseContexts v (some x)) [] s (.loadContexts false)
  | raiseContexts {v} (h : s.desk.counters.contextsProcessed < v) :
    Act s (.raiseContexts v (some s.desk.counters.contextsProcessed)) []
      (s.mapCounters ({ · with contextsProcessed := v })) (.loadContexts true)
  -- Marking complete contexts.
  | loadContexts {b} :
    Act s (.loadContexts b) [] s (.compareContexts b s.desk.counters.contextsFinished)
  | allMarked {b} :
    Act s (.compareContexts b s.desk.counters.contextsProcessed) [] s (.loadJobs b)
  | someUnmarked {b f} (h : f ≠ s.desk.counters.contextsProcessed) :
    Act s (.compareContexts b f) [] s (.claimContext b f)
  | claimContext {b} :
    Act s (.claimContext b s.desk.counters.contextsFinished) [] s.countContextFinished
      (.takeUnsaturated b)
  | missContext {b f} (h : s.desk.counters.contextsFinished ≠ f) :
    Act s (.claimContext b f) [] s (.loadContexts b)
  | noneUnsaturated {b} (h : s.work.state.unsaturated = []) (e : Event) :
    Act s (.takeUnsaturated b) [] (s.report e) (.loadContexts b)
  | takeUnsaturated {b id rest} (h : s.work.state.unsaturated = id :: rest) :
    Act s (.takeUnsaturated b) []
      { s with work := { s.work with state := { s.work.state with unsaturated := rest } } }
      (.mark b id)
  | mark {b id} :
    Act s (.mark b id) [] { s with work := s.work.markSaturated id } (.loadContexts b)
  -- Completing jobs.
  | loadJobs {b} : Act s (.loadJobs b) [] s (.compareJobs b s.desk.counters.jobsFinished)
  | allCompleted {b} :
    Act s (.compareJobs b s.desk.counters.jobsProcessed) [] s (.loadWaiting b)
  | someLeft {b f} (h : f ≠ s.desk.counters.jobsProcessed) :
    Act s (.compareJobs b f) [] s (.claimJob b f)
  | claimJob {b} :
    Act s (.claimJob b s.desk.counters.jobsFinished) [] s.countJobFinished (.takeInProgress b)
  | missJob {b f} (h : s.desk.counters.jobsFinished ≠ f) :
    Act s (.claimJob b f) [] s (.loadJobs b)
  | noneInProgress {b} (h : s.desk.inProgress = []) (e : Event) :
    Act s (.takeInProgress b) [] (s.report e) (.loadWaiting b)
  | takeInProgress {b job rest} (h : s.desk.inProgress = job :: rest) :
    Act s (.takeInProgress b) [] { s with desk := { s.desk with inProgress := rest } }
      (.locateOutput b job)
  | noOutput {b job} (h : s.work.state.find? (s.rootOf job) = none) (e : Event) :
    Act s (.locateOutput b job) [] (s.report e) (.loadJobs b)
  | locateOutput {b job output} (h : s.work.state.find? (s.rootOf job) = some output) :
    Act s (.locateOutput b job) [.counted job] s (.giveOutput b job output)
  | giveOutput {b job output j} (hj : s.job? job = some j) (ho : j.output = none) :
    Act s (.giveOutput b job output) [.given job output]
      { s with jobs := s.jobs.setIfInBounds job.index { j with output := some output } }
      (.notify b job)
  | refuse {b job output} (h : ∀ j, s.job? job = some j → j.output ≠ none) (es : List Event) :
    Act s (.giveOutput b job output) [] (s.reportAll es) (.loadJobs b)
  | notify {b job} (env : σ) (e : Event) :
    Act s (.notify b job) (s.notices job) { s.report e with env } (.loadJobs b)
  -- The loop over the jobs.
  | free {pc pc'} (hpc : pc.isFree = true) (hpc' : pc'.isFree = true) (waiting : Bool) (env : σ) :
    Act s pc [] { s with desk := { s.desk with waiting }, env } pc'
  | stopped (env : σ) : Act s .pollJobs [.stopped] { s with env } .returned
  | noJob (h : s.desk.toDo = []) : Act s .takeJob [] s .returned
  | takeJob {job rest} (h : s.desk.toDo = job :: rest) :
    Act s .takeJob [] { s with desk := { s.desk with toDo := rest } } (.locateJob job)
  | unknown {job} (h : s.work.state.find? (s.rootOf job) = none) :
    Act s (.locateJob job) [] s (.startJob job)
  | known {job id} (h : s.work.state.find? (s.rootOf job) = some id) :
    Act s (.locateJob job) [] s (.checkSaturated job id)
  | doneBefore {job id c} (hc : s.work.context? id = some c) (h : c.saturated = true) :
    Act s (.checkSaturated job id) [.counted job] s (.giveAtOnce job id)
  | notDone {job id} : Act s (.checkSaturated job id) [] s (.startJob job)
  | giveAtOnce {job output j} (hj : s.job? job = some j) (ho : j.output = none) :
    Act s (.giveAtOnce job output) [.given job output]
      { s with jobs := s.jobs.setIfInBounds job.index { j with output := some output } }
      (.notifyAtOnce job)
  | refuseAtOnce {job output} (h : ∀ j, s.job? job = some j → j.output ≠ none) (es : List Event) :
    Act s (.giveAtOnce job output) [] (s.reportAll es) .pollJobs
  | notifyAtOnce {job} (env : σ) :
    Act s (.notifyAtOnce job) (s.notices job) { s with env } .pollJobs
  | startJob {job} (e : Event) : Act s (.startJob job) [] (s.report e).startPass (.enterJob job)
  | enterJob {job} : Act s (.enterJob job) [] (s.pushInProgress job) (.countJob job)
  | countJob {job} :
    Act s (.countJob job) [] s.countSubmitted (.act none [.locate (s.rootOf job) []])

/-! ### Every step is one of these -/

section
variable {obs : JobObserver α σ} {s : Saturation α σ} {lock : Option Nat} {me : Nat} {m : Member}
  {mv : Move α σ}

theorem poll_eq (obs : JobObserver α σ) (s : Saturation α σ) :
    s.poll obs = ((obs.poll s.env).1, { s with env := (obs.poll s.env).2 }) := rfl

theorem does_perform (stats : RuleStatistics) (a : Action) :
    a.Does s (Agenda.perform s stats a).1 (Agenda.perform s stats a).2.2 := by
  cases a with
  | locate root ks =>
    cases hf : s.work.state.find? root with
    | some id => simpa [Agenda.perform, hf] using Action.Does.found hf
    | none =>
      simp only [Agenda.perform, hf]
      exact Action.Does.opened hf
  | enlist id => exact .enlist
  | countCreated => exact .countCreated
  | push id k => exact .push
  | activate id =>
    cases ha : s.work.isActive id with
    | true => simpa [Agenda.perform, ha] using Action.Does.outrun ha
    | false => simpa [Agenda.perform, ha] using Action.Does.activate ha
  | enqueue id => exact .enqueue
  | countDecomposition => exact .countDecomposition
  | countRule kind => exact .countRule
  | reportRefuted root => exact .reportRefuted _

theorem act_of_stepPass (h : m.stepPass obs s lock = some mv) :
    Act s m.pc (m.pc.deeds obs s) mv.shared mv.member.pc.woken := by
  obtain ⟨pc, rules, jobs⟩ := m
  cases pc with
  | startPass =>
    cases h
    exact .startPass
  | poll =>
    simp only [Member.stepPass, poll_eq, PC.deeds] at h ⊢
    split_ifs with hp
    · rw [hp] at h
      cases h
      exact .interrupted _
    · rw [Bool.eq_false_of_not_eq_true hp] at h
      cases h
      exact .polled _
  | take =>
    simp only [Member.stepPass, Workspace.takeActive?] at h
    cases ha : s.work.state.active <;> rw [ha] at h <;> cases h
    · exact .noneActive ha
    · exact .take ha
  | pop id =>
    simp only [Member.stepPass, Workspace.pop?] at h
    cases hc : s.work.context? id with
    | none =>
      rw [hc] at h
      cases h
      exact .drained fun c h => by cases hc.symm.trans h
    | some c =>
      cases hp : c.pending with
      | nil =>
        simp only [hc, Option.bind_some, hp, List.head?_nil] at h
        cases h
        refine .drained fun c' h => ?_
        cases hc.symm.trans h
        exact hp
      | cons k rest =>
        simp only [hc, Option.bind_some, hp, List.head?_cons] at h
        cases h
        exact .pop hc hp
  | derive id k =>
    simp only [Member.stepPass] at h
    cases hc : s.work.context? id <;> rw [hc] at h <;> cases h
    · exact .lost hc
    · exact .derive hc
  | act hand agenda =>
    cases agenda with
    | nil =>
      cases hand <;> cases h
      · exact .asked
      · exact .applied
    | cons a rest =>
      simp only [Member.stepPass] at h
      cases h
      exact .perform (does_perform rules a)
  | release id =>
    cases h
    exact .release
  | recheck id =>
    simp only [Member.stepPass] at h
    cases hp : s.work.hasPending id <;> rw [hp] at h <;> cases h
    · exact .leave hp
    · exact .goBack hp
  | retake id =>
    simp only [Member.stepPass] at h
    cases ha : s.work.isActive id <;> rw [ha] at h <;> cases h
    · exact .retake ha
    · exact .outrun ha
  | _ => cases h

theorem act_of_stepLeave (h : m.stepLeave s lock = some mv) :
    Act s m.pc (m.pc.deeds obs s) mv.shared mv.member.pc.woken := by
  obtain ⟨pc, rules, jobs⟩ := m
  cases pc with
  | loadStarted =>
    cases h
    exact .loadStarted
  | raiseInterrupt v seen =>
    cases seen with
    | none =>
      cases h
      exact .seeInterrupt
    | some x =>
      simp only [Member.stepLeave, Member.tryRaise] at h
      split_ifs at h with hx hs <;> cases h
      · exact .keepInterrupt hx
      · subst hs
        exact .raiseInterrupt (Nat.lt_of_not_le hx)
      · exact .seeInterrupt
  | endPass =>
    cases h
    exact .endPass
  | loadInterrupt f =>
    cases h
    exact .loadInterrupt
  | compareInterrupt f i =>
    simp only [Member.stepLeave] at h
    split_ifs at h with hi <;> cases h
    · exact .noneSince hi
    · exact .startedSince (Nat.lt_of_not_le hi)
  | loadCreated f =>
    cases h
    exact .loadCreated
  | loadSubmitted f c =>
    cases h
    exact .loadSubmitted
  | comparePasses f c j =>
    simp only [Member.stepLeave] at h
    split_ifs at h with hf <;> cases h
    · exact .othersInside hf
    · exact .noneInside (Nat.le_of_not_lt hf)
  | raiseJobs c v seen =>
    cases seen with
    | none =>
      cases h
      exact .seeJobs
    | some x =>
      simp only [Member.stepLeave, Member.tryRaise] at h
      split_ifs at h with hx hs <;> cases h
      · exact .keepJobs hx
      · subst hs
        exact .raiseJobs (Nat.lt_of_not_le hx)
      · exact .seeJobs
  | raiseContexts v seen =>
    cases seen with
    | none =>
      cases h
      exact .seeContexts
    | some x =>
      simp only [Member.stepLeave, Member.tryRaise] at h
      split_ifs at h with hx hs <;> cases h
      · exact .keepContexts hx
      · subst hs
        exact .raiseContexts (Nat.lt_of_not_le hx)
      · exact .seeContexts
  | _ => cases h

theorem giveOutput_eq (job : JobId) (output : ContextId) :
    (∃ j, s.job? job = some j ∧ j.output = none ∧ s.giveOutput job output =
      (true, { s with jobs := s.jobs.setIfInBounds job.index { j with output := some output } })) ∨
    (∀ j, s.job? job = some j → j.output ≠ none) ∧
      ∃ es, s.giveOutput job output = (false, s.reportAll es) := by
  simp only [Saturation.giveOutput]
  cases hj : s.job? job with
  | none => exact Or.inr ⟨(fun j h => by cases h), [], by simp [Saturation.reportAll]⟩
  | some j =>
    cases ho : j.output with
    | none => exact Or.inl ⟨j, rfl, ho, by simp [Job.setOutput, ho]⟩
    | some id =>
      refine Or.inr ⟨?_, [.outputAlreadySet j.root], ?_⟩
      · intro j' h
        cases h
        simp [ho]
      · simp [Job.setOutput, ho, JobError.event, Saturation.report, Saturation.reportAll,
          Workspace.report]

theorem notify_eq (obs : JobObserver α σ) (s : Saturation α σ) (job : JobId) :
    ∃ env, s.notify obs job = { s with env } := by
  unfold Saturation.notify
  split
  · split
    · exact ⟨_, rfl⟩
    · exact ⟨s.env, rfl⟩
  · exact ⟨s.env, rfl⟩

theorem act_of_stepFinish (h : m.stepFinish obs s lock = some mv) :
    Act s m.pc (m.pc.deeds obs s) mv.shared mv.member.pc.woken := by
  obtain ⟨pc, rules, jobs⟩ := m
  cases pc with
  | loadContexts b =>
    cases h
    exact .loadContexts
  | compareContexts b f =>
    simp only [Member.stepFinish] at h
    split_ifs at h with hf <;> cases h
    · subst hf
      exact .allMarked
    · exact .someUnmarked hf
  | claimContext b f =>
    simp only [Member.stepFinish] at h
    split_ifs at h with hf <;> cases h
    · subst hf
      exact .claimContext
    · exact .missContext hf
  | takeUnsaturated b =>
    simp only [Member.stepFinish] at h
    cases hu : s.work.state.unsaturated <;> rw [hu] at h <;> cases h
    · exact .noneUnsaturated hu _
    · exact .takeUnsaturated hu
  | mark b id =>
    cases h
    exact .mark
  | loadJobs b =>
    cases h
    exact .loadJobs
  | compareJobs b f =>
    simp only [Member.stepFinish] at h
    split_ifs at h with hf <;> cases h
    · subst hf
      exact .allCompleted
    · exact .someLeft hf
  | claimJob b f =>
    simp only [Member.stepFinish] at h
    split_ifs at h with hf <;> cases h
    · subst hf
      exact .claimJob
    · exact .missJob hf
  | takeInProgress b =>
    simp only [Member.stepFinish, Saturation.popInProgress?] at h
    cases hp : s.desk.inProgress <;> rw [hp] at h <;> cases h
    · exact .noneInProgress hp _
    · exact .takeInProgress hp
  | locateOutput b job =>
    simp only [Member.stepFinish] at h
    simp only [PC.deeds]
    cases hf : s.work.state.find? (s.rootOf job) <;> rw [hf] at h <;> cases h
    · exact .noOutput hf _
    · exact .locateOutput hf
  | giveOutput b job output =>
    simp only [Member.stepFinish, PC.deeds] at h ⊢
    rcases giveOutput_eq (s := s) job output with ⟨j, hj, ho, he⟩ | ⟨hj, es, he⟩ <;>
      rw [he] at h ⊢ <;> cases h
    · exact .giveOutput hj ho
    · exact .refuse hj es
  | notify b job =>
    obtain ⟨env, he⟩ := notify_eq obs (s.report (.saturationFinished (s.labelOf job))) job
    simp only [Member.stepFinish] at h
    rw [he] at h
    cases h
    exact .notify env _
  | _ => cases h

theorem act_of_stepPark (h : m.stepPark obs s lock me = some mv) :
    Act s m.pc (m.pc.deeds obs s) mv.shared mv.member.pc.woken := by
  obtain ⟨pc, rules, jobs⟩ := m
  cases pc with
  | loadWaiting b =>
    simp only [Member.stepPark] at h
    split_ifs at h <;> cases h <;> exact .free rfl rfl _ _
  | wakeLock =>
    cases lock <;> cases h
    exact .free rfl rfl _ _
  | parkLock processed =>
    cases lock <;> cases h
    exact .free rfl rfl _ _
  | awake =>
    cases lock <;> cases h
    exact .free rfl rfl _ _
  | parkCompare processed =>
    simp only [Member.stepPark] at h
    split_ifs at h <;> cases h <;> exact .free rfl rfl _ _
  | parkPoll =>
    simp only [Member.stepPark, poll_eq] at h
    cases hp : (obs.poll s.env).1 <;> rw [hp] at h <;> cases h <;> exact .free rfl rfl _ _
  | wakeClear | wakeAll | parkFlag | parkClear | parkWakeAll | parkUnlock =>
    cases h
    exact .free rfl rfl _ _
  | _ => cases h

theorem act_of_stepJobs (h : m.stepJobs obs s lock = some mv) :
    Act s m.pc (m.pc.deeds obs s) mv.shared mv.member.pc.woken := by
  obtain ⟨pc, rules, jobs⟩ := m
  cases pc with
  | pollJobs =>
    simp only [Member.stepJobs, poll_eq, PC.deeds] at h ⊢
    split_ifs with hp
    · rw [hp] at h
      cases h
      exact .stopped _
    · rw [Bool.eq_false_of_not_eq_true hp] at h
      cases h
      exact .free rfl rfl _ _
  | loadProcessed =>
    cases h
    exact .free rfl rfl _ _
  | compareThreshold processed =>
    simp only [Member.stepJobs] at h
    split_ifs at h <;> cases h <;> exact .free rfl rfl _ _
  | takeJob =>
    simp only [Member.stepJobs, Saturation.popToDo?] at h
    cases ht : s.desk.toDo <;> rw [ht] at h <;> cases h
    · exact .noJob ht
    · exact .takeJob ht
  | locateJob job =>
    simp only [Member.stepJobs] at h
    cases hf : s.work.state.find? (s.rootOf job) <;> rw [hf] at h <;> cases h
    · exact .unknown hf
    · exact .known hf
  | checkSaturated job id =>
    simp only [Member.stepJobs, PC.deeds] at h ⊢
    cases hc : s.work.context? id with
    | none =>
      rw [hc] at h
      cases h
      exact .notDone
    | some c =>
      simp only [hc, Option.map_some, Option.getD_some] at h ⊢
      split_ifs at h ⊢ with hs <;> cases h
      · exact .doneBefore hc hs
      · exact .notDone
  | giveAtOnce job output =>
    simp only [Member.stepJobs, PC.deeds] at h ⊢
    rcases giveOutput_eq (s := s) job output with ⟨j, hj, ho, he⟩ | ⟨hj, es, he⟩ <;>
      rw [he] at h ⊢ <;> cases h
    · exact .giveAtOnce hj ho
    · exact .refuseAtOnce hj es
  | notifyAtOnce job =>
    obtain ⟨env, he⟩ := notify_eq obs s job
    simp only [Member.stepJobs] at h
    rw [he] at h
    cases h
    exact .notifyAtOnce env
  | startJob job =>
    cases h
    exact .startJob _
  | enterJob job =>
    cases h
    exact .enterJob
  | countJob job =>
    cases h
    exact .countJob
  | _ => cases h

theorem act_of_step (h : m.step obs s lock me = some mv) :
    Act s m.pc (m.pc.deeds obs s) mv.shared mv.member.pc.woken := by
  rcases (Option.orElse_eq_some _ _ _).mp h with h | ⟨_, h⟩
  · exact act_of_stepPass h
  rcases (Option.orElse_eq_some _ _ _).mp h with h | ⟨_, h⟩
  · exact act_of_stepLeave h
  rcases (Option.orElse_eq_some _ _ _).mp h with h | ⟨_, h⟩
  · exact act_of_stepFinish h
  rcases (Option.orElse_eq_some _ _ _).mp h with h | ⟨_, h⟩
  · exact act_of_stepPark h
  · exact act_of_stepJobs h

end

/-! ### A crew seen as places -/

/-- What a turn does to the shared data and to the places where the workers are. -/
inductive Shift (s : Saturation α σ) :
    Multiset PC → List Deed → Saturation α σ → Multiset PC → Prop
  | act {pc ds s' pc' rest} (h : Act s pc ds s' pc') :
    Shift s (pc ::ₘ rest) ds s' (pc' ::ₘ rest)
  | submit {ps job} (hj : job.index < s.jobs.size) :
    Shift s ps [.submitted job] (s.pushToDo job) ps
  | join {ps} : Shift s ps [] s (.returned ::ₘ ps)
  | make {ps} (root : NodeId) (payload : α) :
    Shift s ps [] { s with jobs := s.jobs.push (.new root payload) } ps
  | surroundings {ps} (waiting : Bool) (env : σ) :
    Shift s ps [] { s with desk := { s.desk with waiting }, env } ps

/-- A worker that is asleep does nothing. -/
theorem awake_of_act {s s' : Saturation α σ} {pc pc' : PC} {ds : List Deed}
    (h : Act s pc ds s' pc') : pc.woken = pc := by
  cases pc with
  | asleep =>
    cases h with
    | free hpc => cases hpc
  | _ => rfl

namespace Crew

variable {obs : JobObserver α σ} {c c' c₀ : Crew α σ} {ds : List Deed} {i : Nat} {m : Member}

/-- The places of the program where the workers are. -/
def places (c : Crew α σ) : Multiset PC := ↑(c.members.toList.map fun m => m.pc.woken)

theorem mem_places (h : m ∈ c.members) : m.pc.woken ∈ c.places :=
  Multiset.mem_coe.mpr (List.mem_map_of_mem (Array.mem_toList_iff.mpr h))

/-- A worker can be told from the others. -/
theorem places_setIfInBounds (hm : c.members[i]? = some m) : ∃ rest : Multiset PC,
    c.places = m.pc.woken ::ₘ rest ∧ ∀ (s : Saturation α σ) lock m',
      places ⟨s, lock, c.members.setIfInBounds i m'⟩ = m'.pc.woken ::ₘ rest := by
  obtain ⟨hi, rfl⟩ := Array.getElem?_eq_some_iff.mp hm
  have hi' : i < c.members.toList.length := by simpa using hi
  refine ⟨↑((c.members.toList.eraseIdx i).map fun m => m.pc.woken), ?_, ?_⟩
  · rw [Multiset.cons_coe, places, Multiset.coe_eq_coe]
    simpa using ((List.getElem_cons_eraseIdx_perm hi').map fun m => m.pc.woken).symm
  · intro s lock m'
    rw [Multiset.cons_coe, places, Multiset.coe_eq_coe, Array.toList_setIfInBounds]
    exact (List.set_perm_cons_eraseIdx hi' m').map fun m => m.pc.woken

/-- To be woken makes no difference. -/
theorem places_wakeAll (s : Saturation α σ) (lock : Option Nat) (members : Array Member) :
    places ⟨s, lock, wakeAll members⟩ = places ⟨s, lock, members⟩ := by
  simp only [places, wakeAll, Array.toList_map, List.map_map]
  congr 1
  refine List.map_congr_left fun m _ => ?_
  simp only [Function.comp_apply]
  split
  · rename_i h
    rw [h]
    rfl
  · rfl

theorem shift_of_turn (h : Turn obs c ds c') : Shift c.shared c.places ds c'.shared c'.places := by
  cases h with
  | @step i m c' hm h =>
    obtain ⟨rest, hrest, hset⟩ := places_setIfInBounds hm
    simp only [Crew.step, hm] at h
    cases hs : m.step obs c.shared c.lock i with
    | none => rw [hs] at h; cases h
    | some mv =>
      rw [hs] at h
      cases h
      have hact := act_of_step hs
      have hawake : m.pc.woken = m.pc := awake_of_act hact
      have hplaces : places ⟨mv.shared, mv.lock, if mv.wakes then
          wakeAll (c.members.setIfInBounds i mv.member) else
            c.members.setIfInBounds i mv.member⟩ = mv.member.pc.woken ::ₘ rest := by
        split
        · rw [places_wakeAll, hset]
        · rw [hset]
      rw [hrest, hplaces, hawake]
      exact .act hact
  | @call i m hm hr =>
    obtain ⟨rest, hrest, hset⟩ := places_setIfInBounds hm
    rw [hrest, hset, hr]
    exact .act .call
  | @submit i m job hm hr hj =>
    obtain ⟨rest, hrest, hset⟩ := places_setIfInBounds hm
    rw [hset, ← hrest]
    exact .submit hj
  | join =>
    have : places { c with members := c.members.push { Member.new with pc := .returned } } =
        .returned ::ₘ c.places := by
      rw [places, places, Array.toList_push, List.map_append, Multiset.cons_coe,
        Multiset.coe_eq_coe]
      exact List.perm_append_singleton _ _
    rw [this]
    exact .join
  | make root payload => exact .make root payload
  | surroundings env => exact .surroundings _ env
  | alert => exact .surroundings false _
  | wake =>
    rw [show places { c with members := wakeAll c.members } = c.places from places_wakeAll _ _ _]
    exact .surroundings _ _

/-- What holds at first and is kept by every shift holds all the time. -/
theorem Course.invariant {P : List Deed → Saturation α σ → Multiset PC → Prop}
    (h : Course obs c₀ ds c) (h₀ : P [] c₀.shared c₀.places)
    (hs : ∀ ds s ps ds' s' ps', P ds s ps → Shift s ps ds' s' ps' → P (ds' ++ ds) s' ps') :
    P ds c.shared c.places := by
  induction h with
  | start => exact h₀
  | turn _ ht ih => exact hs _ _ _ _ _ _ ih (shift_of_turn ht)

theorem places_new (s : Saturation α σ) (n : Nat) :
    (Crew.new s n).places = .replicate n .startPass := by
  simp [places, Crew.new, Member.new, PC.woken, Multiset.coe_replicate]

end Crew

end Subsumption
