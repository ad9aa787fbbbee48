import Subsumption.Proofs.Worker.Serving

/-! What calls of one worker keep, whatever the flag does. -/
namespace Subsumption.Worker

open JobObserver

variable {α σ : Type} {obs : JobObserver α σ} {P : Saturation α σ → Prop} {w : Worker α σ}

/-- What all that a worker does keeps. -/
structure Kept (obs : JobObserver α σ) (P : Saturation α σ → Prop) : Prop
    extends Durable obs P where
  poll : ∀ s, P s → P (s.poll obs).2
  pass : ∀ w : Worker α σ, P w.shared →
    P (w.withRules (w.ruleRun.process (ruleObserver obs) w.shared.desk.timed).2).shared
  submit : ∀ (w : Worker α σ) (id : JobId), P w.shared →
    P (w.withRules (w.ruleRun.submit (ruleObserver obs) (w.shared.rootOf id)).2).shared

theorem Steady.updateProcessed (hP : Steady obs P) (h : P w.shared) (n : Nat) :
    P (w.updateProcessed n).2.shared := by
  unfold Worker.updateProcessed
  dsimp only
  split
  · exact h
  · split
    · exact h
    · exact hP.desk _ _ (hP.desk _ _ h)

theorem Durable.leaveRules (hP : Durable obs P) (h : P w.shared) (b : Bool) :
    P (w.leaveRules obs b).shared := by
  have hfinish : ∀ (v : Worker α σ) (n m k : Nat), P v.shared → P (Worker.finishJobs obs k
      (((v.mapShared (·.endPass)).updateProcessed n).2.finishContexts m)).shared := by
    intro v n m k hv
    have hended : P (v.mapShared (·.endPass)).shared := hP.desk _ _ hv
    exact hP.finishJobs (hP.finishContexts (hP.updateProcessed hended n) m) k
  have hwake : ∀ (v : Worker α σ) (b : Bool), P v.shared →
      P (if b = true then v.mapShared (·.setWaiting false) else v).shared := by
    intro v b hv
    split
    · exact hP.desk _ _ hv
    · exact hv
  cases b with
  | true => exact hwake _ _ (hfinish _ _ _ _ (hP.desk _ _ h))
  | false => exact hwake _ _ (hfinish _ _ _ _ h)

theorem Kept.runRules (hP : Kept obs P) (h : P w.shared) : P (w.runRules obs).shared :=
  hP.leaveRules (hP.pass (w.mapShared (·.startPass)) (hP.desk _ _ h)) _

theorem Kept.handIn (hP : Kept obs P) (h : P w.shared) (id : JobId) :
    P (w.handIn obs id).shared :=
  hP.submit (w.announced id) id (hP.desk _ _ (hP.desk _ _ (hP.report _ _ h)))

theorem Kept.runJob (hP : Kept obs P) (h : P w.shared) (id : JobId) :
    P (w.runJob obs id).shared :=
  hP.leaveRules (hP.pass _ (hP.handIn (w := w.mapShared (·.startPass)) (hP.desk _ _ h) id)) _

theorem Kept.park (hP : Kept obs P) (h : P w.shared) : P (w.park obs).2.shared :=
  hP.poll _ (hP.desk _ _ h)

theorem Kept.attend (hP : Kept obs P) (h : P w.shared) (id : JobId) :
    P (w.attend obs id).shared := by
  unfold Worker.attend
  split
  · exact hP.completeAtOnce h id _
  · exact hP.runJob h id

theorem Kept.rounds {n : Nat} {o : Outcome} {v : Worker α σ} (hP : Kept obs P)
    (hr : Rounds obs n w o v) (h : P w.shared) : P v.shared := by
  induction hr with
  | unfinished => exact h
  | flagged | done => exact hP.poll _ h
  | parked _ _ _ _ ih => exact ih (hP.park (hP.poll _ h))
  | blocked => exact hP.park (hP.poll _ h)
  | @job _ w _ _ id rest _ _ _ _ ih =>
    have htaken : P ((w.polled obs).leaving rest).shared :=
      hP.desk (w.polled obs).shared _ (hP.poll _ h)
    exact ih (hP.attend htaken id)

/-- A call keeps it, however it ends. -/
theorem Kept.process (hP : Kept obs P) (h : P w.shared) : P (w.process obs).2.shared :=
  hP.rounds (rounds_loop obs _ _) (hP.runRules h)

/-- A run of one worker keeps it. -/
theorem Kept.run {s : Saturation α σ} (hP : Kept obs P) (h : P s) : P (s.run obs).2.2 :=
  hP.report _ _ (hP.poll _ (hP.desk _ _ (hP.process (w := new (s.runStarted 1)) (hP.report _ _ h))))

/-! ### What is kept of the contexts -/

theorem job?_giveOutput {s : Saturation α σ} {id x : JobId} {j : Job α} {c : ContextId}
    (hj : s.job? id = some j) :
    ({ s with jobs := s.jobs.setIfInBounds id.index { j with output := some c } } :
      Saturation α σ).job? x = if x = id then some { j with output := some c } else s.job? x := by
  have hlt : id.index < s.jobs.size := (Array.getElem?_eq_some_iff.mp hj).1
  simp only [Saturation.job?, Array.getElem?_setIfInBounds]
  by_cases hx : x = id
  · simp [hx, hlt]
  · have hne : id.index ≠ x.index := fun he => hx (by cases id; cases x; exact congrArg _ he.symm)
    simp [hx, hne]

theorem rootOf_giveOutput {s : Saturation α σ} {id : JobId} {j : Job α} {c : ContextId}
    (hj : s.job? id = some j) (x : JobId) :
    ({ s with jobs := s.jobs.setIfInBounds id.index { j with output := some c } } :
      Saturation α σ).rootOf x = s.rootOf x := by
  simp only [Saturation.rootOf, job?_giveOutput hj]
  by_cases hx : x = id
  · simp [hx, hj]
  · rw [if_neg hx]

/-- What passes, submissions of certain roots, marks and reports keep of the contexts is kept by a
worker whose jobs ask for such roots. -/
theorem kept_of_work {Q : Workspace → Prop} {N : NodeId → Prop}
    (hpass : ∀ {τ : Type} (o : RuleObserver τ) (timed : Bool) (r : RuleRun τ), Q r.work →
      Q (r.process o timed).2.work)
    (hsubmit : ∀ {τ : Type} (o : RuleObserver τ) (r : RuleRun τ) (root : NodeId), N root →
      Q r.work → Q (r.submit o root).2.work)
    (hmark : ∀ w, Q w → Q w.markNext.2) (hreport : ∀ w e, Q w → Q (w.report e)) :
    Kept obs fun s => Q s.work ∧ ∀ id, N (s.rootOf id) where
  desk _ _ h := h
  mark s h := ⟨hmark _ h.1, h.2⟩
  report s e h := ⟨hreport _ _ h.1, h.2⟩
  output s id j c hj _ h := ⟨h.1, fun x => by rw [rootOf_giveOutput hj]; exact h.2 x⟩
  finished _ _ _ h := h
  poll _ h := h
  pass w h := ⟨hpass _ _ w.ruleRun h.1, h.2⟩
  submit w id h := ⟨hsubmit _ w.ruleRun _ (h.2 id) h.1, h.2⟩

end Subsumption.Worker
