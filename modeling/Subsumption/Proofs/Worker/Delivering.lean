import Mathlib.Data.List.Perm.Basic
import Subsumption.Proofs.Worker.Counting

/-! What becomes of the jobs of one worker, whatever the flag does. Each is in the queue or in
progress, or it has got its output and notice of it has been given, once. -/
namespace Subsumption

variable {α σ : Type}

/-- A job has got its output and notice of it, with the context `c`, has been given. -/
def Saturation.delivered (obs : JobObserver α σ) (s : Saturation α σ) (id : JobId) (j : Job α)
    (out : ContextId) (c : Context) : Saturation α σ :=
  { s with
    jobs := s.jobs.setIfInBounds id.index { j with output := some out }
    env := obs.finished { j with output := some out } c s.env }

namespace Worker

open Workspace

section
variable {obs : JobObserver α σ} {s : Saturation α σ} {w : Worker α σ} {id x : JobId} {j : Job α}
  {out : ContextId} {c : Context} {rest : List JobId} {n : Nat}

/-! ### One job -/

theorem giveOutput_eq (hj : s.job? id = some j) (ho : j.output = none) (out : ContextId) :
    s.giveOutput id out =
      (true, { s with jobs := s.jobs.setIfInBounds id.index { j with output := some out } }) := by
  simp only [Saturation.giveOutput, hj, Job.setOutput, ho]

/-- Notice is given of a job that has just got its output. -/
theorem notify_eq (hj : s.job? id = some j) (hc : s.work.context? out = some c) :
    ({ s with jobs := s.jobs.setIfInBounds id.index { j with output := some out } } :
      Saturation α σ).notify obs id = s.delivered obs id j out c := by
  simp only [Saturation.notify, job?_giveOutput hj, if_true, Option.bind_some, hc]
  rfl

variable (obs) in
theorem completeAtOnce_eq (hj : w.shared.job? id = some j) (ho : j.output = none)
    (hc : w.shared.work.context? out = some c) :
    (w.completeAtOnce obs id out).shared = w.shared.delivered obs id j out c := by
  unfold completeAtOnce
  dsimp only
  rw [giveOutput_eq hj ho]
  exact notify_eq hj hc

variable (obs) in
theorem complete_eq (hj : w.shared.job? id = some j) (ho : j.output = none)
    (hs : w.shared.work.Stands j.root out c) : ∃ e, (w.complete obs id).shared =
      (w.shared.report e).delivered obs id j out c := by
  have hroot : w.shared.rootOf id = j.root := by simp [Saturation.rootOf, hj]
  unfold complete
  rw [hroot, hs.1]
  dsimp only
  rw [giveOutput_eq hj ho]
  exact ⟨_, notify_eq (s := w.shared.report _) hj hs.2⟩

/-- All contexts that have been counted are marked. -/
def marked (w : Worker α σ) : Worker α σ :=
  w.declare.finishContexts
    (w.declare.shared.desk.counters.contextsProcessed
      - w.declare.shared.desk.counters.contextsFinished)

theorem jobs_finishContexts (n : Nat) (w : Worker α σ) :
    (w.finishContexts n).shared.jobs = w.shared.jobs ∧
      (w.finishContexts n).shared.env = w.shared.env := by
  induction n generalizing w with
  | zero => exact ⟨rfl, rfl⟩
  | succ n ih => exact ih _

theorem finishAll_eq (hw : w.shared.desk.Balanced n) :
    w.finishAll obs = finishJobs obs w.shared.desk.inProgress.length w.marked := by
  have hprogress := hw.progress
  have hlength : w.shared.desk.counters.jobsSubmitted - w.shared.desk.counters.jobsFinished
      = w.shared.desk.inProgress.length := by omega
  unfold finishAll
  dsimp only
  rw [desk_declare hw]
  dsimp only
  rw [hlength, marked, desk_declare hw]

theorem desk_marked (hw : w.shared.desk.Balanced n) :
    w.marked.shared.desk.inProgress = w.shared.desk.inProgress ∧
      w.marked.shared.desk.toDo = w.shared.desk.toDo ∧
      w.marked.shared.desk.counters.lastInterrupt = w.shared.desk.counters.lastInterrupt := by
  rw [marked, desk_finishContexts, desk_declare hw]
  exact ⟨rfl, rfl, rfl⟩

theorem saturated_of_saturated? (hc : w.shared.work.Coherent) {root : NodeId}
    (h : w.saturated? root = some out) :
    ∃ c, w.shared.work.Stands root out c ∧ c.saturated = true := by
  unfold saturated? at h
  split at h
  · rename_i x hx
    split at h <;> cases h
    rename_i hs
    obtain ⟨c, hcontext, _⟩ := hc.rooted _ _ hx
    rw [hcontext] at hs
    exact ⟨c, ⟨hx, hcontext⟩, hs⟩
  · cases h

end

end Worker

/-! ### How far the jobs have come -/

namespace Saturation

open Workspace Worker

/-- Notices of the jobs `done`, in this order and one of each. Each job has got its output, the
context of its root, and that context is the one that notice is given with; it is saturated if
`marked`. -/
structure Delivers (s : Saturation α σ) (done : List JobId) (marked : Prop) (new : Notices α) :
    Prop where
  jobs : new.map (fun p => some p.1) = done.map s.job?
  outputs : ∀ p ∈ new, ∃ out, p.1.output = some out ∧ s.work.state.find? p.1.root = some out
  contexts : ∀ p ∈ new, p.2.root = p.1.root ∧ (marked → p.2.saturated = true)

/-- The jobs of which no notice has been given: those in progress, and then those in the queue. -/
def undone (s : Saturation α σ) : List JobId := s.desk.inProgress ++ s.desk.toDo

/-- How far the jobs `ids` have come, of which the first notice has been given after `before`. They
are undone, without output, or delivered; those in progress have contexts for their roots. They keep
their order as long as no pass is stopped. -/
structure Progresses (ids : List JobId) (before : Notices α) (marked : Prop)
    (s : Saturation α (σ × Notices α)) : Prop where
  undone : ∀ id ∈ s.undone, ∃ j, s.job? id = some j ∧ j.output = none
  located : ∀ id ∈ s.desk.inProgress, ∃ out, s.work.state.find? (s.rootOf id) = some out
  notices : ∃ done new, s.env.2 = before ++ new ∧ s.Delivers done marked new ∧
    (done ++ s.undone).Perm ids ∧
    (s.desk.counters.lastInterrupt = 0 → done ++ s.undone = ids)

section
variable {s t : Saturation α σ} {done : List JobId} {marked : Prop} {new : Notices α}

theorem Delivers.of_kept (h : s.Delivers done marked new)
    (hjobs : ∀ x ∈ done, t.job? x = s.job? x)
    (hfind : ∀ n out, s.work.state.find? n = some out → t.work.state.find? n = some out) :
    t.Delivers done marked new := by
  refine ⟨?_, fun p hp => (h.outputs p hp).imp fun out ho => ⟨ho.1, hfind _ _ ho.2⟩, h.contexts⟩
  rw [h.jobs]
  exact List.map_congr_left fun x hx => (hjobs x hx).symm

/-- One more job is delivered. -/
theorem Delivers.snoc {id : JobId} {j : Job α} {out : ContextId} {c : Context}
    (h : s.Delivers done marked new) (hj : s.job? id = some j) (ho : j.output = some out)
    (hfind : s.work.state.find? j.root = some out) (hc : c.root = j.root)
    (hm : marked → c.saturated = true) :
    s.Delivers (done ++ [id]) marked (new ++ [(j, c)]) := by
  refine ⟨?_, ?_, ?_⟩
  · rw [List.map_append, List.map_append, h.jobs, List.map_singleton, List.map_singleton, hj]
  · intro p hp
    rcases List.mem_append.mp hp with hp | hp
    · exact h.outputs p hp
    · cases List.mem_singleton.mp hp
      exact ⟨out, ho, hfind⟩
  · intro p hp
    rcases List.mem_append.mp hp with hp | hp
    · exact h.contexts p hp
    · cases List.mem_singleton.mp hp
      exact ⟨hc, hm⟩

theorem job?_delivered (obs : JobObserver α σ) {id : JobId} {j : Job α} {out : ContextId}
    {c : Context} (hjobs : t.jobs = s.jobs) (hj : s.job? id = some j) (x : JobId) :
    (t.delivered obs id j out c).job? x =
      if x = id then some { j with output := some out } else s.job? x := by
  have hsame : ∀ x, t.job? x = s.job? x := fun x => by rw [job?, job?, hjobs]
  rw [← hsame]
  exact job?_giveOutput ((hsame id).trans hj)

/-- Another job gets its output, when there may be more contexts. -/
theorem Delivers.deliver (obs : JobObserver α σ) {id : JobId} {j : Job α} {out : ContextId}
    {c : Context} (h : s.Delivers done marked new) (hjobs : t.jobs = s.jobs)
    (hw : t.work.Coherent)
    (hfind : ∀ n out, s.work.state.find? n = some out → t.work.state.find? n = some out)
    (hj : s.job? id = some j) (hst : t.work.Stands j.root out c)
    (hm : marked → c.saturated = true) (hid : id ∉ done) :
    (t.delivered obs id j out c).Delivers (done ++ [id]) marked
      (new ++ [({ j with output := some out }, c)]) := by
  have hjob : ∀ x, (t.delivered obs id j out c).job? x =
      if x = id then some { j with output := some out } else s.job? x :=
    job?_delivered obs hjobs hj
  have hroot : c.root = j.root :=
    (hw.find?_of_contextOf? ((contextOf?_eq hst.1).trans hst.2)).2
  refine Delivers.snoc (h.of_kept (fun x hx => ?_) hfind) ((hjob id).trans (if_pos rfl)) rfl hst.1
    hroot hm
  exact (hjob x).trans (if_neg (ne_of_mem_of_not_mem hx hid))

end

section
variable {s t : Saturation α (σ × Notices α)} {ids : List JobId} {before : Notices α}
  {marked : Prop} {id : JobId} {j : Job α} {out : ContextId} {c : Context}

/-- What leaves the jobs and their order alone, and gives no notice. -/
theorem Progresses.of_same (h : s.Progresses ids before marked) (hjobs : t.jobs = s.jobs)
    (henv : t.env.2 = s.env.2) (hundone : t.undone = s.undone)
    (hprogress : ∀ id ∈ t.desk.inProgress, id ∈ s.desk.inProgress ∨
      ∃ out, t.work.state.find? (s.rootOf id) = some out)
    (hfind : ∀ n out, s.work.state.find? n = some out → t.work.state.find? n = some out)
    (hi : t.desk.counters.lastInterrupt = 0 → s.desk.counters.lastInterrupt = 0) :
    t.Progresses ids before marked := by
  have hjob : ∀ x, t.job? x = s.job? x := fun x => by rw [job?, job?, hjobs]
  have hroot : ∀ x, t.rootOf x = s.rootOf x := fun x => by rw [rootOf, rootOf, hjob]
  obtain ⟨done, new, hnew, hdelivers, hperm, horder⟩ := h.notices
  refine ⟨?_, ?_, done, new, henv.trans hnew, hdelivers.of_kept (fun x _ => hjob x) hfind,
    hundone ▸ hperm, fun hzero => hundone ▸ horder (hi hzero)⟩
  · intro id hid
    rw [hjob]
    exact h.undone id (hundone ▸ hid)
  · intro id hid
    rw [hroot]
    rcases hprogress id hid with hid | hout
    · exact (h.located id hid).imp fun out ho => hfind _ _ ho
    · exact hout

/-- What leaves the contexts alone, too. -/
theorem Progresses.of_eq (h : s.Progresses ids before marked) (hwork : t.work = s.work)
    (hjobs : t.jobs = s.jobs) (henv : t.env.2 = s.env.2)
    (hprogress : t.desk.inProgress = s.desk.inProgress) (htodo : t.desk.toDo = s.desk.toDo)
    (hi : t.desk.counters.lastInterrupt = 0 → s.desk.counters.lastInterrupt = 0) :
    t.Progresses ids before marked := by
  refine h.of_same hjobs henv ?_ (fun _ hid => Or.inl (hprogress ▸ hid)) (fun _ _ hf => ?_) hi
  · rw [Saturation.undone, Saturation.undone, hprogress, htodo]
  · rw [hwork]
    exact hf

/-- A job is taken from those that are undone, gets its output and notice of it. -/
theorem Progresses.deliver (obs : JobObserver α σ) (h : s.Progresses ids before marked)
    (hd : ids.Nodup) (hjobs : t.jobs = s.jobs) (henv : t.env.2 = s.env.2)
    (hw : t.work.Coherent)
    (hfind : ∀ n out, s.work.state.find? n = some out → t.work.state.find? n = some out)
    (hj : s.job? id = some j) (hst : t.work.Stands j.root out c)
    (hm : marked → c.saturated = true)
    (hprogress : ∀ x ∈ t.desk.inProgress, x ∈ s.desk.inProgress)
    (hperm : (id :: t.undone).Perm s.undone)
    (hi : t.desk.counters.lastInterrupt = 0 →
      s.desk.counters.lastInterrupt = 0 ∧ id :: t.undone = s.undone) :
    (t.delivered obs.recording id j out c).Progresses ids before marked := by
  obtain ⟨done, new, hnew, hdelivers, hall, horder⟩ := h.notices
  obtain ⟨hundone, hdone⟩ : id ∉ t.undone ∧ id ∉ done := by
    have hnodup := hall.nodup_iff.mpr hd
    refine ⟨(List.nodup_cons.mp (hperm.nodup_iff.mpr hnodup.of_append_right)).1, fun hid => ?_⟩
    exact List.disjoint_of_nodup_append hnodup hid (hperm.subset List.mem_cons_self)
  have hothers : ∀ x ≠ id, (t.delivered obs.recording id j out c).job? x = s.job? x := fun x hx =>
    (job?_delivered obs.recording hjobs hj x).trans (if_neg hx)
  refine ⟨?_, ?_, done ++ [id], new ++ [({ j with output := some out }, c)], ?_, ?_, ?_, ?_⟩
  · intro x hx
    rw [hothers x (ne_of_mem_of_not_mem hx hundone)]
    exact h.undone x (hperm.subset (List.mem_cons_of_mem _ hx))
  · intro x hx
    have hne : x ≠ id := ne_of_mem_of_not_mem (List.mem_append_left _ hx) hundone
    rw [rootOf, hothers x hne]
    exact (h.located x (hprogress x hx)).imp fun out ho => hfind _ _ ho
  · rw [← List.append_assoc, ← hnew, ← henv]
    rfl
  · exact hdelivers.deliver obs.recording hjobs hw hfind hj hst hm hdone
  · rw [List.append_assoc]
    exact (hperm.append_left done).trans hall
  · intro hzero
    obtain ⟨hzero, hsame⟩ := hi hzero
    rw [List.append_assoc]
    exact (congrArg (done ++ ·) hsame).trans (horder hzero)

end

end Saturation

/-! ### Passes -/

namespace Worker

open Workspace

/-- The contexts are in order, and of those that wait to be marked, `l` have not been counted. -/
structure InOrder (l : Nat) (w : Worker α σ) : Prop where
  coherent : w.shared.work.Coherent
  queued : w.shared.work.Queued
  listed : w.shared.work.Listed
  uncounted : w.Uncounted l

theorem InOrder.startPass {w : Worker α σ} {l : Nat} (h : InOrder l w) :
    InOrder l (w.mapShared (·.startPass)) :=
  ⟨h.coherent, h.queued, h.listed, h.uncounted⟩

theorem InOrder.endPass {w : Worker α σ} {l : Nat} (h : InOrder l w) :
    InOrder l (w.mapShared (·.endPass)) :=
  ⟨h.coherent, h.queued, h.listed, h.uncounted⟩

/-- Between two passes. If the last one has not been stopped, nothing is in progress and no context
waits. -/
structure Between (l : Nat) (w : Worker α σ) : Prop extends InOrder l w where
  started : 0 < w.shared.desk.counters.workersStarted
  level : ¬ w.shared.desk.counters.Stopped → w.Level

section
variable {obs : JobObserver α σ} {w v : Worker α σ} {l n : Nat}

/-- What happens to the contexts, whatever a worker does. -/
theorem kept_keeps (obs : JobObserver α σ) (w₀ : Workspace) : Kept obs fun s =>
    (Keeps w₀ s.work ∧ s.work.Queued) ∧ ∀ _ : JobId, True := by
  refine kept_of_work (Q := fun v => Keeps w₀ v ∧ v.Queued) (N := fun _ => True) ?_ ?_ ?_ ?_
  · rintro τ o timed r ⟨hk, hq⟩
    exact ⟨hk.trans (keeps_runs hk.coherent (runs_pass hk.coherent .start hq).1),
      (runs_pass hk.coherent .start hq).2⟩
  · rintro τ o r root _ ⟨hk, hq⟩
    exact ⟨hk.trans ((posts_obtain o r hk.coherent root).1.keeps hk.coherent),
      queued_submit hk.coherent hq⟩
  · rintro w ⟨hk, hq⟩
    have hm := keeps_mark hk.coherent
    refine ⟨hk.trans hm, ?_⟩
    have hactive : w.markNext.2.state.active = w.state.active := by
      unfold markNext
      split
      · rfl
      · rw [state_markSaturated]
    intro id hid
    rw [hactive] at hid
    exact (hq id hid).imp fun n hn => hm.find? n id hn
  · rintro w e ⟨hk, hq⟩
    exact ⟨hk.trans ⟨hk.coherent.report e, rfl, fun _ _ h => h, fun h => h⟩, hq⟩

/-- A pass, before its end. -/
def passed (obs : JobObserver α σ) (w : Worker α σ) : Worker α σ :=
  w.withRules (w.ruleRun.process (ruleObserver obs) w.shared.desk.timed).2

theorem opened_passed (obs : JobObserver α σ) (w : Worker α σ) :
    Opened w.shared.desk.counters (w.passed obs).shared.desk.counters :=
  (opened_passes (RuleRun.passes_process _ _ _)).1

theorem InOrder.keeps (h : InOrder l w) : (Keeps w.shared.work w.shared.work ∧
    w.shared.work.Queued) ∧ ∀ _ : JobId, True :=
  ⟨⟨.refl h.coherent, h.queued⟩, fun _ => trivial⟩

theorem InOrder.passed (h : InOrder l w) (obs : JobObserver α σ) : InOrder l (w.passed obs) ∧
    Keeps w.shared.work (w.passed obs).shared.work := by
  have hp := RuleRun.passes_process (ruleObserver obs) w.shared.desk.timed w.ruleRun
  have hcounts : RuleRun.Counts w.shared.desk.counters.contextsFinished l w.ruleRun := h.uncounted
  obtain ⟨⟨hkeeps, hqueued⟩, _⟩ := (kept_keeps obs w.shared.work).pass w h.keeps
  exact ⟨⟨hkeeps.coherent, hqueued, hkeeps.listed h.listed,
    uncounted_withRules rfl (hcounts.passes hp) (opened_passed obs w)⟩, hkeeps⟩

theorem InOrder.handIn (h : InOrder l w) (obs : JobObserver α σ) (id : JobId) :
    InOrder l (w.handIn obs id) ∧ Keeps w.shared.work (w.handIn obs id).shared.work := by
  obtain ⟨⟨hkeeps, hqueued⟩, _⟩ := (kept_keeps obs w.shared.work).handIn (w := w) h.keeps id
  exact ⟨⟨hkeeps.coherent, hqueued, hkeeps.listed h.listed, uncounted_handIn h.uncounted id⟩,
    hkeeps⟩

/-- There is a context for the root of a job that has been handed in. -/
theorem located_handIn (hw : w.shared.work.Coherent) (obs : JobObserver α σ) (id : JobId) :
    ∃ out, (w.handIn obs id).shared.work.state.find? (w.shared.rootOf id) = some out :=
  ⟨_, (posts_obtain (ruleObserver obs) (w.announced id).ruleRun (hw.report _)
    (w.shared.rootOf id)).2⟩

theorem InOrder.finishAll (h : InOrder l w) (hb : w.shared.desk.Balanced n) :
    InOrder l (w.finishAll obs) := by
  obtain ⟨⟨hkeeps, hqueued⟩, _⟩ :=
    (kept_keeps obs w.shared.work).toDurable.finishAll (w := w) h.keeps
  exact ⟨hkeeps.coherent, hqueued, hkeeps.listed h.listed, uncounted_finishAll h.uncounted hb⟩

theorem keeps_marked (obs : JobObserver α σ) (h : InOrder l w) :
    Keeps w.shared.work w.marked.shared.work := by
  have hkept := (kept_keeps obs w.shared.work).toDurable
  exact (hkept.finishContexts (w := w.declare) (hkept.desk _ _ (hkept.desk _ _ h.keeps)) _).1.1

theorem InOrder.unsaturated (h : InOrder l w) (hl : w.Level) :
    w.shared.work.state.unsaturated.length = l := by
  have hcreated : w.shared.desk.counters.contextsCreated =
      w.shared.desk.counters.contextsFinished :=
    congrArg Counters.contextsFinished hl.counters
  have huncounted := h.uncounted
  unfold Uncounted at huncounted
  omega

theorem saturated_of_listed {w : Workspace} (h : w.Listed) (hu : w.state.unsaturated = [])
    {n : NodeId} {c : Context} (hc : w.contextOf? n = some c) : c.saturated = true := by
  obtain ⟨id, hid, hc⟩ := Option.bind_eq_some_iff.mp hc
  refine (h n id c hid hc).resolve_right ?_
  rw [hu]
  exact List.not_mem_nil

/-- When all contexts that have been counted are marked, those that have not are left. -/
theorem unsaturated_marked (obs : JobObserver α σ) (h : InOrder l w)
    (hb : w.shared.desk.Balanced n) (ha : w.shared.work.state.active = []) :
    w.marked.shared.work.state.unsaturated.length = l := by
  have hstate : (w.finishAll obs).shared.work.state = w.marked.shared.work.state := by
    rw [finishAll_eq hb]
    exact (steady_state _).finishJobs rfl _
  rw [← hstate]
  exact (h.finishAll hb).unsaturated (level_finishAll hb ha obs)

end

section
variable {obs : JobObserver α σ} {w : Worker α (σ × Notices α)} {ids : List JobId}
  {before : Notices α} {marked : Prop} {l n : Nat} {id : JobId} {rest : List JobId}

/-- A pass gives no notice of jobs. -/
theorem env_passed (w : Worker α (σ × Notices α)) :
    (w.passed obs.recording).shared.env.2 = w.shared.env.2 := by
  obtain ⟨x, hx, hpoll⟩ := (RuleRun.passes_process (ruleObserver obs.recording)
    w.shared.desk.timed w.ruleRun).env (P := fun x : Counters × (σ × Notices α) =>
    x.2.2 = w.shared.env.2) (fun _ _ h => h) (fun _ h => h) rfl
  have hsame := congrArg (·.2.2.2) hpoll
  exact hsame.symm.trans hx

theorem progresses_passed (obs : JobObserver α σ) (h : w.shared.Progresses ids before marked)
    (hw : InOrder l w) :
    (w.passed obs.recording).shared.Progresses ids before marked := by
  exact h.of_same rfl (env_passed w) rfl (fun _ hid => Or.inl hid)
    (hw.passed obs.recording).2.find? fun hzero =>
    (opened_passed obs.recording w).lastInterrupt.symm.trans hzero

theorem progresses_marked (obs : JobObserver α σ) (h : w.shared.Progresses ids before marked)
    (hw : InOrder l w) (hb : w.shared.desk.Balanced n) :
    w.marked.shared.Progresses ids before marked := by
  obtain ⟨hprogress, htodo, hinterrupt⟩ := desk_marked hb
  obtain ⟨hjobs, henv⟩ := jobs_finishContexts (w.declare.shared.desk.counters.contextsProcessed
    - w.declare.shared.desk.counters.contextsFinished) w.declare
  refine h.of_same hjobs (congrArg (·.2) henv) ?_ ?_ (keeps_marked obs.recording hw).find? ?_
  · rw [Saturation.undone, hprogress, htodo]
    rfl
  · rw [hprogress]
    exact fun _ hid => Or.inl hid
  · rw [hinterrupt]
    exact fun hzero => hzero

/-- The first job in progress is delivered. -/
theorem progresses_complete (obs : JobObserver α σ) (hd : ids.Nodup) (hw : w.shared.work.Coherent)
    (hm : marked → ∀ n c, w.shared.work.contextOf? n = some c → c.saturated = true)
    (h : w.shared.Progresses ids before marked) (hq : w.shared.desk.inProgress = id :: rest) :
    let w' := (w.finishing rest).complete obs.recording id
    w'.shared.Progresses ids before marked ∧ ∃ e, w'.shared.work = w.shared.work.report e := by
  have hundone : w.shared.undone = id :: (w.finishing rest).shared.undone := by
    rw [Saturation.undone, hq]
    rfl
  obtain ⟨j, hj, ho⟩ := h.undone id (hundone ▸ List.mem_cons_self)
  obtain ⟨out, hout⟩ := h.located id (hq ▸ List.mem_cons_self)
  have hroot : w.shared.rootOf id = j.root := by simp [Saturation.rootOf, hj]
  rw [hroot] at hout
  obtain ⟨c, hcontext, _⟩ := hw.rooted j.root out hout
  have hst : (w.finishing rest).shared.work.Stands j.root out c := ⟨hout, hcontext⟩
  obtain ⟨e, he⟩ := complete_eq (w := w.finishing rest) obs.recording hj ho hst
  dsimp only
  rw [he]
  refine ⟨h.deliver (t := (w.finishing rest).shared.report e) obs hd rfl rfl (hw.report e)
    (fun _ _ hf => hf) hj hst ?_ ?_ ?_ ?_, e, rfl⟩
  · exact fun hmarked => hm hmarked j.root c ((contextOf?_eq hout).trans hcontext)
  · rw [hq]
    exact fun x hx => List.mem_cons_of_mem _ hx
  · rw [hundone]
    exact .refl _
  · rw [hundone]
    exact fun hzero => ⟨hzero, rfl⟩

/-- All jobs in progress are delivered. -/
theorem progresses_finishJobs (hd : ids.Nodup) (hw : w.shared.work.Coherent)
    (hm : marked → ∀ n c, w.shared.work.contextOf? n = some c → c.saturated = true)
    (h : w.shared.Progresses ids before marked) :
    (finishJobs obs.recording w.shared.desk.inProgress.length w).shared.Progresses ids before
      marked := by
  induction hq : w.shared.desk.inProgress generalizing w with
  | nil => exact h
  | cons id rest ih =>
    obtain ⟨hdelivered, e, hwork⟩ := progresses_complete obs hd hw hm h hq
    rw [List.length_cons, finishJobs_cons hq]
    refine ih ?_ ?_ hdelivered ?_
    · rw [hwork]
      exact hw.report e
    · rw [hwork]
      exact hm
    · rw [desk_complete]
      rfl

/-- A pass comes to its end or is stopped. -/
theorem leave_between (obs : JobObserver α σ) (hb : w.shared.desk.Balanced 1)
    (hw : InOrder l w) (h : w.shared.Progresses ids before (l = 0)) (hd : ids.Nodup) :
    let b := (w.ruleRun.process (ruleObserver obs.recording) w.shared.desk.timed).1
    let w' := (w.passed obs.recording).leaveRules obs.recording b
    w'.shared.desk.Balanced 0 ∧ Between l w' ∧ w'.shared.Progresses ids before (l = 0) := by
  have hp := RuleRun.passes_process (ruleObserver obs.recording) w.shared.desk.timed w.ruleRun
  have hbalanced : (w.passed obs.recording).shared.desk.Balanced 1 :=
    (opened_passed obs.recording w).balanced rfl hb
  have hpassed := (hw.passed obs.recording).1
  have hprogresses := progresses_passed obs h hw
  have hstarted : 0 < (w.passed obs.recording).shared.desk.counters.workersStarted := by
    rw [hbalanced.passes]
    exact Nat.succ_pos _
  cases hset : (w.ruleRun.process (ruleObserver obs.recording) w.shared.desk.timed).1 with
  | true =>
    dsimp only
    rw [leaveRules_stopped hbalanced]
    refine ⟨⟨hbalanced.passes, Nat.le_refl _, hbalanced.contexts, hbalanced.created, hbalanced.jobs,
      hbalanced.progress, hbalanced.waiting⟩, ⟨⟨hpassed.coherent, hpassed.queued, hpassed.listed,
      hpassed.uncounted⟩, hstarted, fun hgo => absurd (Nat.le_refl _) hgo⟩, ?_⟩
    exact hprogresses.of_eq rfl rfl rfl rfl rfl fun hzero => absurd hzero (Nat.ne_of_gt hstarted)
  | false =>
    rw [hset] at hp
    have hended := Balanced.endPass hbalanced
    have hordered := hpassed.endPass
    have hdrained : (w.passed obs.recording).shared.work.state.active = [] := hp.drains rfl
    have hlevel := level_finishAll hended hdrained obs.recording
    dsimp only
    rw [leaveRules_ended hbalanced]
    refine ⟨balanced_finishAll hended, ⟨hordered.finishAll hended, ?_, fun _ => hlevel⟩, ?_⟩
    · rw [desk_finishAll hended _]
      exact hstarted
    · rw [finishAll_eq hended, ← (desk_marked hended).1]
      have hkeeps := keeps_marked obs.recording hordered
      refine progresses_finishJobs hd hkeeps.coherent ?_
        (progresses_marked obs ?_ hordered hended)
      · rintro rfl n c hc
        exact saturated_of_listed (hkeeps.listed hordered.listed) (List.length_eq_zero_iff.mp
          (unsaturated_marked obs.recording hordered hended hdrained)) hc
      · exact hprogresses.of_eq rfl rfl rfl rfl rfl fun hz => hz

/-- A job is taken from the queue and handed in. -/
theorem progresses_handIn (obs : JobObserver α σ) (h : w.shared.Progresses ids before marked)
    (hw : InOrder l w) (hq : w.shared.desk.toDo = id :: rest) :
    (((w.leaving rest).mapShared (·.startPass)).handIn obs.recording id).shared.Progresses ids
      before marked := by
  have hordered : InOrder l ((w.leaving rest).mapShared (·.startPass)) :=
    ⟨hw.coherent, hw.queued, hw.listed, hw.uncounted⟩
  have hkeeps := (hordered.handIn obs.recording id).2
  have hlocated := located_handIn hordered.coherent obs.recording id
  obtain ⟨hopened, henv⟩ :=
    opened_handIn obs.recording ((w.leaving rest).mapShared (·.startPass)) id
  obtain ⟨v, hv⟩ :
    ∃ v, v = ((w.leaving rest).mapShared (·.startPass)).handIn obs.recording id := ⟨_, rfl⟩
  have hprogress : v.shared.desk.inProgress = w.shared.desk.inProgress ++ [id] := by rw [hv]; rfl
  have htodo : v.shared.desk.toDo = rest := by rw [hv]; rfl
  have hjobs : v.shared.jobs = w.shared.jobs := by rw [hv]; rfl
  rw [← hv] at hkeeps hlocated hopened henv ⊢
  refine h.of_same hjobs (congrArg (·.2) henv) ?_ ?_ hkeeps.find? ?_
  · rw [Saturation.undone, hprogress, htodo, List.append_assoc, Saturation.undone, hq]
    rfl
  · intro x hx
    rcases List.mem_append.mp (hprogress ▸ hx) with hx | hx
    · exact Or.inl hx
    · cases List.mem_singleton.mp hx
      exact Or.inr hlocated
  · exact fun hzero => hopened.lastInterrupt.symm.trans hzero

theorem Between.of_same {v : Worker α (σ × Notices α)} (h : Between l w)
    (hwork : v.shared.work = w.shared.work)
    (hprogress : v.shared.desk.inProgress = w.shared.desk.inProgress)
    (hcounters : v.shared.desk.counters = w.shared.desk.counters) : Between l v := by
  refine ⟨⟨hwork ▸ h.coherent, hwork ▸ h.queued, hwork ▸ h.listed, ?_⟩, hcounters ▸ h.started, ?_⟩
  · unfold Uncounted
    rw [hwork, hcounters]
    exact h.uncounted
  · rw [hcounters]
    intro hlt
    have hlevel := h.level hlt
    exact ⟨hcounters ▸ hlevel.counters, hprogress ▸ hlevel.inProgress, hwork ▸ hlevel.active⟩

/-- A job is taken from the queue and attended to. -/
theorem attend_between (hb : w.shared.desk.Balanced 0) (hw : Between l w)
    (h : w.shared.Progresses ids before (l = 0)) (hd : ids.Nodup)
    (hq : w.shared.desk.toDo = id :: rest) :
    let w' := (w.leaving rest).attend obs.recording id
    w'.shared.desk.Balanced 0 ∧ Between l w' ∧ w'.shared.Progresses ids before (l = 0) := by
  have hleft : (w.leaving rest).shared.desk.Balanced 0 :=
    ⟨hb.passes, hb.interrupt, hb.contexts, hb.created, hb.jobs, hb.progress, hb.waiting⟩
  unfold attend
  cases hs : (w.leaving rest).saturated? ((w.leaving rest).shared.rootOf id) with
  | some out =>
    have hundone : w.shared.undone = w.shared.desk.inProgress ++ id :: rest := by
      rw [Saturation.undone, hq]
    obtain ⟨j, hj, ho⟩ := h.undone id
      (hundone ▸ List.mem_append_right _ List.mem_cons_self)
    obtain ⟨c, hst, hsaturated⟩ := saturated_of_saturated? (w := w.leaving rest) hw.coherent hs
    have hroot : (w.leaving rest).shared.rootOf id = j.root := by
      have hsame : w.shared.rootOf id = j.root := by simp [Saturation.rootOf, hj]
      exact hsame
    rw [hroot] at hst
    have heq := completeAtOnce_eq (w := w.leaving rest) obs.recording hj ho hst.2
    dsimp only
    refine ⟨?_, hw.of_same (congrArg (·.work) heq) ?_ ?_, ?_⟩
    · rw [desk_completeAtOnce]
      exact hleft
    · rw [desk_completeAtOnce]
      rfl
    · rw [desk_completeAtOnce]
      rfl
    · rw [heq]
      refine h.deliver obs hd rfl rfl hw.coherent (fun _ _ hf => hf) hj hst (fun _ => hsaturated)
        (fun _ hx => hx) ?_ fun hzero => ⟨hzero, ?_⟩
      · rw [hundone]
        exact List.perm_middle.symm
      · -- No pass has been stopped, so that the job does not overtake others.
        have hlevel := hw.level (Nat.not_le.mpr (lt_of_eq_of_lt hzero hw.started))
        rw [hundone, hlevel.inProgress]
        exact congrArg (id :: ·) (congrArg (· ++ rest) hlevel.inProgress)
  | none =>
    have hordered : InOrder l ((w.leaving rest).mapShared (·.startPass)) :=
      ⟨hw.coherent, hw.queued, hw.listed, hw.uncounted⟩
    have hleave := leave_between obs
      (balanced_handIn obs.recording (Balanced.startPass hleft) id)
      (hordered.handIn obs.recording id).1 (progresses_handIn obs h hw.toInOrder hq) hd
    exact hleave

/-! ### Calls -/

theorem Between.polled (h : Between l w) (obs : JobObserver α σ) :
    Between l (w.polled obs.recording) :=
  h.of_same rfl rfl rfl

theorem Between.park (h : Between l w) (obs : JobObserver α σ) :
    Between l (w.park obs.recording).2 :=
  h.of_same rfl rfl rfl

/-- The worker goes round its loop, with any answers of the polls. It only comes to wait for others
if its last pass has been stopped. -/
theorem Rounds.between {fuel : Nat} {o : Outcome} {v : Worker α (σ × Notices α)}
    (hr : Rounds obs.recording fuel w o v) (hd : ids.Nodup)
    (hb : w.full = false → w.shared.desk.Balanced 0) (hw : Between l w)
    (h : w.shared.Progresses ids before (l = 0)) :
    Between l v ∧ v.shared.Progresses ids before (l = 0) ∧
      (o = .blocked → v.shared.desk.counters.Stopped) := by
  have hpolled {u : Worker α (σ × Notices α)} (h : u.shared.Progresses ids before (l = 0)) :
      (u.polled obs.recording).shared.Progresses ids before (l = 0) :=
    h.of_eq rfl rfl rfl rfl rfl fun hzero => hzero
  have hpark {u : Worker α (σ × Notices α)} (h : u.shared.Progresses ids before (l = 0)) :
      (u.park obs.recording).2.shared.Progresses ids before (l = 0) :=
    h.of_eq rfl rfl rfl rfl rfl fun hzero => hzero
  induction hr with
  | unfinished => exact ⟨hw, h, fun ho => by cases ho⟩
  | flagged | done => exact ⟨hw.polled obs, hpolled h, fun ho => by cases ho⟩
  | parked _ hfull _ _ ih =>
    -- The worker is marked as waiting, but takes no job while it is full.
    refine ih (fun hroom => ?_) ((hw.polled obs).park obs) (hpark (hpolled h))
    cases hfull.symm.trans hroom
  | blocked _ hfull =>
    refine ⟨(hw.polled obs).park obs, hpark (hpolled h), fun _ => ?_⟩
    by_contra hgo
    cases hfull.symm.trans ((hw.polled obs).level hgo).not_full
  | @job _ w _ _ _ _ _ hroom hq _ ih =>
    obtain ⟨hbalanced, hbetween, hprogresses⟩ := attend_between (w := w.polled obs.recording)
      (hb hroom) (hw.polled obs) (hpolled h) hd hq
    exact ih (fun _ => hbalanced) hbetween hprogresses

/-- A call of the worker. -/
theorem processWithin_between (obs : JobObserver α σ) (rounds : Nat)
    (hb : w.shared.desk.Balanced 0) (hw : InOrder l w)
    (h : w.shared.Progresses ids before (l = 0)) (hd : ids.Nodup) :
    let p := w.processWithin obs.recording rounds
    Between l p.2 ∧ p.2.shared.Progresses ids before (l = 0) ∧
      (p.1 = .blocked → p.2.shared.desk.counters.Stopped) := by
  have hprogresses : (w.mapShared (·.startPass)).shared.Progresses ids before (l = 0) :=
    h.of_eq rfl rfl rfl rfl rfl fun hzero => hzero
  obtain ⟨hbalanced, hbetween, hleft⟩ :=
    leave_between obs (Balanced.startPass hb) hw.startPass hprogresses hd
  exact (rounds_loop obs.recording rounds _).between hd (fun _ => hbalanced) hbetween hleft

end

end Worker

end Subsumption
