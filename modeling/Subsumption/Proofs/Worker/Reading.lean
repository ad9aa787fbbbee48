import Subsumption.Proofs.Worker.Resubmitting

/-! One worker under surroundings where a poll of the flag does nothing but read it. As notice is
given only of finished jobs, the flag is the same throughout a pass, and a pass that has been begun
for a job is not stopped. So everything is finished whenever the worker comes back to its loop. -/
namespace Subsumption

variable {α σ : Type}

/-! ### Contexts at rest -/

namespace Workspace

variable {w v : Workspace} {k : Nat} {id : ContextId} {o : Ontology} {root : NodeId}

/-- Nothing is pending or queued, no token is taken, and every context is marked saturated. -/
structure Still (w : Workspace) : Prop extends AtRest w where
  coherent : w.Coherent
  active : w.state.active = []
  free : ∀ n c, w.contextOf? n = some c → c.active = false
  unsaturated : w.state.unsaturated = []

theorem Still.tidy (h : w.Still) : Tidy [] w := by
  have hnone : ∀ id, id ∉ [] ++ w.state.active := by
    rw [h.active]
    exact fun _ => List.not_mem_nil
  have hcontext {n id c} (hst : w.Stands n id c) : w.contextOf? n = some c :=
    (contextOf?_eq hst.1).trans hst.2
  refine ⟨h.coherent, ?_, ?_, ?_, fun id hid => absurd hid (hnone id)⟩
  · rw [h.active]
    exact List.nodup_nil
  · intro n id c hst
    refine iff_of_false ?_ (hnone id)
    rw [h.free n c (hcontext hst)]
    exact Bool.false_ne_true
  · exact fun n id c hst hp => absurd (h.quiet n c (hcontext hst)) hp

theorem Tidy.still (h : Tidy [] w) (hl : w.Listed) (ha : w.state.active = [])
    (hu : w.state.unsaturated = []) : w.Still := by
  have hcomplete : w.Complete := ⟨h.quiet ha, hu⟩
  refine ⟨hcomplete.atRest hl, h.coherent, ha, ?_, hu⟩
  intro n c hc
  obtain ⟨id, hid, hc⟩ := Option.bind_eq_some_iff.mp hc
  refine Bool.eq_false_iff.mpr fun hactive => ?_
  have hmem := (h.token n id c ⟨hid, hc⟩).mp hactive
  rw [ha] at hmem
  cases hmem

theorem still_new (hw : w.state = State.new o) : w.Still :=
  (tidy_new hw).still (listed_new hw) (by rw [hw]; rfl) (by rw [hw]; rfl)

theorem Still.listed (h : w.Still) : w.Listed := fun n _ c hid hc =>
  Or.inl (h.saturated n c ((contextOf?_eq hid).trans hc))

/-! ### Contexts and those that wait to be marked -/

/-- All contexts but `k` wait to be marked. -/
def AllBut (k : Nat) (w : Workspace) : Prop := w.state.size = w.state.unsaturated.length + k

theorem lasting_allBut (k : Nat) : Lasting (AllBut k) := by
  refine ⟨?_, ?_, fun _ _ h => h⟩
  · intro w n id c _ h
    have hreceives : Receives w (w.produce id c) id [c] := receives_produce
    unfold AllBut State.size
    rw [hreceives.contexts, hreceives.unsaturated]
    exact h
  · intro w n _ h
    unfold AllBut State.size at h ⊢
    simp only [insertContext, enlist, List.length_append, List.length_singleton, h]
    omega

end Workspace

namespace RuleRun

open Workspace

variable {obs : RuleObserver σ} {timed b : Bool} {hand : Option ContextId} {r r' : RuleRun σ}
  {k : Nat}

/-- A pass marks no context. -/
theorem Passes.allBut (h : Passes obs timed hand r b r') (ht : Tidy hand.toList r.work)
    (hk : AllBut k r.work) : AllBut k r'.work := by
  induction h with
  | @process r id c work b r' hpop _ ih =>
    obtain ⟨root, hroot⟩ := ht.known id (List.mem_append_left _ (List.mem_singleton_self id))
    refine ih (Workshop.tidy_process ht obs timed r.stats r.env hroot hpop) ?_
    obtain ⟨d, rest, _, rfl, _, hv, hstate, hd, _⟩ := popped ht.coherent hroot hpop
    have hroot' : work.state.find? d.root = some id := by rw [hstate, hroot]
    have hwork : AllBut k work := by
      unfold AllBut
      rw [hstate]
      exact hk
    exact (lasting_allBut k).apply obs timed ⟨work, r.stats, r.env⟩ hv hroot' hd hwork
  | @layDown r id b r' hpop _ ih =>
    have hdown := ht.layDown (List.mem_singleton_self id) hpop
    rw [show (some id).toList.erase id = [] by simp] at hdown
    exact ih hdown hk
  | stopped | drained => exact hk
  | take _ htake _ ih =>
    refine ih (ht.take htake) ?_
    obtain ⟨rest, _, rfl⟩ := active_of_take htake
    exact hk

/-- Where no context is queued, a pass polls the flag and ends. -/
theorem process_of_idle (obs : RuleObserver σ) (timed : Bool) (ha : r.work.state.active = []) :
    r.process obs timed = ((obs.poll r.env).1, { r with env := (obs.poll r.env).2 }) := by
  have hpasses : Passes obs timed none r (obs.poll r.env).1
      { r with env := (obs.poll r.env).2 } := by
    cases hpoll : obs.poll r.env with
    | mk b e =>
      cases b with
      | true => exact .stopped hpoll
      | false => exact .drained hpoll (by simp [takeActive?, ha])
  obtain ⟨hb, hr⟩ := (passes_process obs timed r).unique hpasses
  exact Prod.ext hb hr

end RuleRun

/-! ### A flag that is only read -/

/-- A poll leaves everything as it is. -/
def JobObserver.Reads (obs : JobObserver α σ) : Prop := ∀ e, (obs.poll e).2 = e

/-- The flag as a poll finds it. -/
def JobObserver.flag (obs : JobObserver α σ) (e : σ) : Bool := (obs.poll e).1

theorem JobObserver.Reads.recording {obs : JobObserver α σ} (h : obs.Reads) :
    obs.recording.Reads := fun _ => Prod.ext (h _) rfl

namespace Worker

open JobObserver Workspace

section
variable {obs : JobObserver α σ} {w : Worker α σ} {b : Bool} {r : RuleRun (Counters × σ)}

theorem polled_eq (hobs : obs.Reads) (w : Worker α σ) : w.polled obs = w := by
  simp only [polled, Saturation.poll, hobs w.shared.env]

/-- A pass ends as the flag is, and leaves the surroundings as they are. -/
theorem env_of_passes (hobs : obs.Reads)
    (hp : RuleRun.Passes (ruleObserver obs) w.shared.desk.timed none w.ruleRun b r) :
    obs.flag w.shared.env = b ∧ r.env.2 = w.shared.env := by
  obtain ⟨x, hx, hpoll⟩ := hp.env (P := fun x : Counters × σ => x.2 = w.shared.env)
    (fun _ _ h => h) (fun x h => (hobs x.2).trans h) rfl
  rw [← hx]
  exact ⟨congrArg (·.1) hpoll, (congrArg (·.2.2) hpoll).symm.trans (hobs x.2)⟩

/-- Where everything is finished, a call begins with a pass that does nothing. If the flag is set,
the pass counts as interrupted. -/
theorem runRules_of_level (hobs : obs.Reads) (hw : w.shared.desk.Balanced 0) (h : w.Level) :
    ∃ i ≤ w.shared.desk.counters.workersStarted + 1, w.runRules obs =
      w.mapShared (·.mapCounters fun c => { c with
        workersStarted := c.workersStarted + 1
        workersFinished := c.workersFinished + 1
        lastInterrupt := i }) := by
  obtain ⟨v, hv⟩ : ∃ v, v = w.mapShared (·.startPass) := ⟨_, rfl⟩
  have hbalanced : v.shared.desk.Balanced 1 := hv ▸ Balanced.startPass hw
  have hactive : v.ruleRun.work.state.active = [] := by
    rw [hv]
    exact h.active
  have hpoll : (ruleObserver obs).poll v.ruleRun.env =
      (obs.flag v.shared.env, v.ruleRun.env) := Prod.ext rfl (Prod.ext rfl (hobs v.shared.env))
  have hrun : w.runRules obs = v.leaveRules obs (obs.flag v.shared.env) := by
    have hprocess := RuleRun.process_of_idle (ruleObserver obs) v.shared.desk.timed hactive
    rw [hpoll] at hprocess
    rw [runRules, ← hv, hprocess]
    rfl
  rw [hrun]
  cases obs.flag v.shared.env with
  | true =>
    refine ⟨_, Nat.le_refl _, ?_⟩
    rw [leaveRules_stopped hbalanced, hv]
    rfl
  | false =>
    have hlevel : (v.mapShared (·.endPass)).Level := by
      rw [hv]
      refine ⟨?_, h.inProgress, h.active⟩
      exact congrArg (fun c : Counters => { c with
        workersStarted := c.workersStarted + 1
        workersFinished := c.workersFinished + 1 }) h.counters
    refine ⟨w.shared.desk.counters.lastInterrupt, Nat.le_succ_of_le hw.interrupt, ?_⟩
    rw [leaveRules_ended hbalanced, finishAll_of_level hlevel, hv]
    rfl

end

/-! ### A job -/

/-- The worker when the pass for a job that it has taken has come to its end. -/
def handed (obs : JobObserver α σ) (w : Worker α σ) (id : JobId) : Worker α σ :=
  (((w.mapShared (·.startPass)).handIn obs id).passed obs).mapShared (·.endPass)

section
variable {obs : JobObserver α σ} {w : Worker α σ} {id : JobId} {l k : Nat}

theorem desk_handed (obs : JobObserver α σ) (w : Worker α σ) (id : JobId) :
    ∃ n, (w.handed obs id).shared.desk = { w.shared.desk with
      inProgress := w.shared.desk.inProgress ++ [id]
      counters := { w.shared.desk.counters with
        contextsCreated := n
        jobsSubmitted := w.shared.desk.counters.jobsSubmitted + 1
        workersStarted := w.shared.desk.counters.workersStarted + 1
        workersFinished := w.shared.desk.counters.workersFinished + 1 } } := by
  obtain ⟨v, hv⟩ : ∃ v, v = (w.mapShared (·.startPass)).handIn obs id := ⟨_, rfl⟩
  have hsubmit := (opened_handIn obs (w.mapShared (·.startPass)) id).1.others
  have hpass := (opened_passed obs v).others
  refine ⟨(v.passed obs).shared.desk.counters.contextsCreated, ?_⟩
  have hdesk : (w.handed obs id).shared.desk = { v.shared.desk with counters :=
      { (v.passed obs).shared.desk.counters with workersFinished :=
        (v.passed obs).shared.desk.counters.workersFinished + 1 } } := by
    rw [hv]
    rfl
  have hcounters : v.shared.desk.counters = _ :=
    (congrArg (·.shared.desk.counters) hv).trans hsubmit
  rw [hdesk, hpass, hcounters, hv]
  rfl

theorem balanced_handed (hw : w.shared.desk.Balanced 0) :
    (w.handed obs id).shared.desk.Balanced 0 :=
  Balanced.endPass ((opened_passed obs _).balanced rfl
    (balanced_handIn obs (Balanced.startPass hw) id))

theorem InOrder.handed (h : InOrder l w) (obs : JobObserver α σ) (id : JobId) :
    InOrder l (w.handed obs id) ∧ Keeps w.shared.work (w.handed obs id).shared.work := by
  obtain ⟨hsubmitted, hkeeps⟩ := h.startPass.handIn obs id
  obtain ⟨hpassed, hkeeps'⟩ := hsubmitted.passed obs
  exact ⟨hpassed.endPass, hkeeps.trans hkeeps'⟩

/-- There is a context for the root of the job. -/
theorem located_handed (h : InOrder l w) (obs : JobObserver α σ) (id : JobId) :
    ∃ out, (w.handed obs id).shared.work.state.find? (w.shared.rootOf id) = some out := by
  obtain ⟨out, hout⟩ := located_handIn h.startPass.coherent obs id
  exact ⟨out, ((h.startPass.handIn obs id).1.passed obs).2.find? _ _ hout⟩

/-- The new contexts wait to be marked. -/
theorem allBut_handed (ht : Tidy [] w.shared.work) (hk : AllBut k w.shared.work)
    (obs : JobObserver α σ) (id : JobId) : AllBut k (w.handed obs id).shared.work := by
  obtain ⟨v, hv⟩ : ∃ v, v = (w.mapShared (·.startPass)).announced id := ⟨_, rfl⟩
  have htidy : Tidy [] v.ruleRun.work := hv ▸ (lasting_tidy []).report _ _ ht
  have hkept : AllBut k v.ruleRun.work := hv ▸ hk
  have hp := RuleRun.passes_process (ruleObserver obs) v.shared.desk.timed
    (v.ruleRun.submit (ruleObserver obs) (w.shared.rootOf id)).2
  rw [hv] at hp htidy hkept
  exact hp.allBut ((lasting_tidy []).obtain _ _ htidy _) ((lasting_allBut k).obtain _ _ hkept _)

/-- If the flag is clear when a job is handed to the rule engine, the pass is not stopped. -/
theorem runJob_of_clear (hobs : obs.Reads) (hw : w.shared.desk.Balanced 0)
    (hclear : obs.flag w.shared.env = false) (id : JobId) :
    w.runJob obs id = (w.handed obs id).finishAll obs ∧
      (w.handed obs id).shared.env = w.shared.env ∧
      (w.handed obs id).shared.work.state.active = [] := by
  obtain ⟨v, hv⟩ : ∃ v, v = (w.mapShared (·.startPass)).handIn obs id := ⟨_, rfl⟩
  have henv : v.shared.env = w.shared.env := by
    rw [hv]
    exact (opened_handIn obs (w.mapShared (·.startPass)) id).2
  have hp := RuleRun.passes_process (ruleObserver obs) v.shared.desk.timed v.ruleRun
  obtain ⟨hflag, hsame⟩ := env_of_passes hobs hp
  rw [henv, hclear] at hflag
  have hbalanced : (v.passed obs).shared.desk.Balanced 1 :=
    (opened_passed obs v).balanced rfl (hv ▸ balanced_handIn obs (Balanced.startPass hw) id)
  have hrun : w.runJob obs id = (v.passed obs).leaveRules obs false := by
    rw [hflag, hv]
    rfl
  refine ⟨?_, ?_, ?_⟩
  · rw [hrun, leaveRules_ended hbalanced, hv]
    rfl
  · rw [← henv, ← hsame, hv]
    rfl
  · have hdrains := hp.drains hflag.symm
    rw [hv] at hdrains
    exact hdrains

end

end Worker

end Subsumption
