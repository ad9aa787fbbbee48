import Subsumption.Proofs.Worker.Reading

/-! The jobs that one worker takes, under surroundings where a poll of the flag does nothing but
read it. It takes them in their order and has done one, with all contexts at rest again, before it
takes the next. -/
namespace Subsumption

variable {α σ : Type}

/-! ### What is taken -/

/-- The counts after some jobs have been taken, of which those that are marked had a context. -/
def JobStatistics.taking (s : JobStatistics) (taken : List (JobId × Bool)) : JobStatistics :=
  { s with
    alreadyDone := s.alreadyDone + taken.countP (·.2)
    processed := s.processed + taken.countP (!·.2) }

theorem JobStatistics.taking_append (s : JobStatistics) (l l' : List (JobId × Bool)) :
    (s.taking l).taking l' = s.taking (l ++ l') := by
  simp only [taking, List.countP_append, Nat.add_assoc]

/-- Whether there is a context for the root of a job. -/
def Saturation.located (s : Saturation α σ) (id : JobId) : Bool :=
  (s.work.state.find? (s.rootOf id)).isSome

namespace Worker

/-- The jobs that the worker takes in so many rounds of its loop, each marked if there is a context
for its root when it is taken. -/
def takings (obs : JobObserver α σ) : Nat → Worker α σ → List (JobId × Bool)
  | 0, _ => []
  | n + 1, w =>
    if (w.shared.poll obs).1 then []
    else
      let w := w.polled obs
      if w.full then
        if (w.park obs).1 then takings obs n (w.park obs).2 else []
      else
        match w.shared.desk.toDo with
        | [] => []
        | id :: rest => (id, w.shared.located id) :: takings obs n ((w.leaving rest).attend obs id)

/-- The jobs that the worker takes in a call. -/
def taken (obs : JobObserver α σ) (w : Worker α σ) : List (JobId × Bool) :=
  takings obs ((w.runRules obs).shared.desk.toDo.length + 2) (w.runRules obs)

/-- From `w` to `v` the worker has taken jobs, the first ones in the queue, and nobody else has
changed the queue or the sums. -/
structure Takes (w : Worker α σ) (taken : List (JobId × Bool)) (v : Worker α σ) : Prop where
  queue : w.shared.desk.toDo = taken.map Prod.fst ++ v.shared.desk.toDo
  jobs : v.jobs = w.jobs.taking taken
  totals : v.shared.desk.jobTotals = w.shared.desk.jobTotals

theorem Takes.refl (w : Worker α σ) : w.Takes [] w := ⟨rfl, rfl, rfl⟩

theorem Takes.trans {w v u : Worker α σ} {l l' : List (JobId × Bool)} (h : w.Takes l v)
    (h' : v.Takes l' u) : w.Takes (l ++ l') u := by
  refine ⟨?_, ?_, h'.totals.trans h.totals⟩
  · rw [h.queue, h'.queue, List.map_append, List.append_assoc]
  · rw [h'.jobs, h.jobs, JobStatistics.taking_append]

end Worker

/-! ### One job at a time -/

namespace Saturation

open Workspace

/-- Since `s₀`, just the jobs `done` have got an output, and notice of them has been given in this
order, each time with a saturated context. -/
structure Notified (s₀ : Saturation α (σ × Notices α)) (done : List JobId)
    (s : Saturation α (σ × Notices α)) : Prop where
  others : ∀ x ∉ done, s.job? x = s₀.job? x
  notices : ∃ new, s.env.2 = s₀.env.2 ++ new ∧ s.Delivers done True new

/-- Since `s₀`, the jobs `done` have been done, and all that has been counted is finished. The
contexts counted are those that are there in addition. -/
structure Regular (s₀ : Saturation α (σ × Notices α)) (done : List JobId)
    (s : Saturation α (σ × Notices α)) : Prop extends Notified s₀ done s where
  balanced : s.desk.Balanced 0
  settled : s.desk.counters.settled = s.desk.counters
  inProgress : s.desk.inProgress = []
  still : s.work.Still
  size : s.work.state.size = s₀.work.state.size + s.desk.counters.contextsCreated

section
variable {s₀ s t : Saturation α (σ × Notices α)} {done : List JobId} {id : JobId} {j : Job α}
  {out : ContextId} {c : Context}

/-- Nothing has happened to the jobs, and no notice has been given. -/
theorem Notified.of_kept (h : Notified s₀ done s)
    (hfind : ∀ n out, s.work.state.find? n = some out → t.work.state.find? n = some out)
    (hjobs : t.jobs = s.jobs) (henv : t.env.2 = s.env.2) : Notified s₀ done t := by
  have hjob : ∀ x, t.job? x = s.job? x := fun x => by rw [job?, job?, hjobs]
  obtain ⟨new, hnew, hdelivers⟩ := h.notices
  refine ⟨fun x hx => (hjob x).trans (h.others x hx), new, henv.trans hnew, ?_⟩
  exact hdelivers.of_kept (fun x _ => hjob x) hfind

theorem Notified.deliver (obs : JobObserver α σ) (h : Notified s₀ done s) (hjobs : t.jobs = s.jobs)
    (henv : t.env = s.env) (hk : Keeps s.work t.work) (hj : s.job? id = some j)
    (hst : t.work.Stands j.root out c) (hc : c.saturated = true) (hid : id ∉ done) :
    Notified s₀ (done ++ [id]) (t.delivered obs.recording id j out c) := by
  obtain ⟨new, hnew, hdelivers⟩ := h.notices
  refine ⟨fun x hx => ?_, new ++ [({ j with output := some out }, c)], ?_,
    hdelivers.deliver obs.recording hjobs hk.coherent hk.find? hj hst (fun _ => hc) hid⟩
  · rw [List.mem_append, List.mem_singleton, not_or] at hx
    rw [job?_delivered obs.recording hjobs hj, if_neg hx.2, h.others x hx.1]
  · rw [← List.append_assoc, ← hnew, ← henv]
    rfl

/-- The queue, the sums and the flag may be others. -/
theorem Regular.of_same (h : Regular s₀ done s) (hwork : t.work = s.work) (hjobs : t.jobs = s.jobs)
    (henv : t.env.2 = s.env.2) (hcounters : t.desk.counters = s.desk.counters)
    (hprogress : t.desk.inProgress = s.desk.inProgress)
    (hwaiting : t.desk.waiting = s.desk.waiting) : Regular s₀ done t := by
  obtain ⟨hpasses, hinterrupt, hcontexts, hcreated, hfinished, hlength, hawake⟩ := h.balanced
  refine ⟨h.toNotified.of_kept (by rw [hwork]; exact fun _ _ hf => hf) hjobs henv, ?_, ?_,
    hprogress.trans h.inProgress, hwork ▸ h.still, ?_⟩
  · rw [← hcounters] at hpasses hinterrupt hcontexts hcreated hfinished hlength
    rw [← hprogress] at hlength
    exact ⟨hpasses, hinterrupt, hcontexts, hcreated, hfinished, hlength, hwaiting.trans hawake⟩
  · rw [hcounters]
    exact h.settled
  · rw [hwork, hcounters]
    exact h.size

theorem Regular.level {w : Worker α (σ × Notices α)} (h : Regular s₀ done w.shared) : w.Level :=
  ⟨h.settled, h.inProgress, h.still.active⟩

/-- All contexts that have been counted are finished. -/
theorem Regular.finished (h : Regular s₀ done s) :
    s.desk.counters.contextsCreated = s.desk.counters.contextsFinished :=
  congrArg Counters.contextsFinished h.settled

theorem Regular.inOrder {w : Worker α (σ × Notices α)} (h : Regular s₀ done w.shared) :
    Worker.InOrder 0 w := by
  refine ⟨h.still.coherent, h.still.tidy.known, h.still.listed, ?_⟩
  unfold Worker.Uncounted
  rw [h.still.unsaturated, h.finished, List.length_nil, Nat.zero_add, Nat.add_zero]

end

end Saturation

namespace Worker

open JobObserver Workspace Saturation

section
variable {obs : JobObserver α σ} {w : Worker α σ} {id : JobId} {j : Job α}

/-- No finishing opens a context. -/
theorem durable_size (obs : JobObserver α σ) (n : Nat) :
    Durable obs fun s => s.work.state.size = n := by
  refine ⟨⟨fun _ _ h => h, fun _ _ h => h, fun _ _ _ _ _ _ h => h, fun _ _ _ h => h⟩, ?_⟩
  intro s h
  simp only [Saturation.markNext, Workspace.markNext]
  split
  · exact h
  · rw [Workspace.state_markSaturated]
    exact h

theorem kept_tidy (obs : JobObserver α σ) :
    Kept obs fun s => Tidy [] s.work ∧ ∀ _ : JobId, True :=
  kept_of_work (Q := Tidy []) (N := fun _ => True)
    (fun o timed r ht => (RuleRun.passes_process o timed r).tidy ht)
    (fun o r root _ ht => Workshop.tidy_submit ht o r.stats r.env root)
    (fun _ ht => ht.mark) ((lasting_tidy []).report)

theorem tidy_handed (ht : Tidy [] w.shared.work) (obs : JobObserver α σ) (id : JobId) :
    Tidy [] (w.handed obs id).shared.work := by
  have hkept := kept_tidy obs
  exact (hkept.pass _ (hkept.handIn (w := w.mapShared (·.startPass)) ⟨ht, fun _ => trivial⟩ id)).1

/-- When all contexts are at rest, a root has a saturated context if it has one. -/
theorem saturated?_of_still (h : w.shared.work.Still) (root : NodeId) :
    w.saturated? root = w.shared.work.state.find? root := by
  unfold saturated?
  cases hfind : w.shared.work.state.find? root with
  | none => rfl
  | some out =>
    obtain ⟨c, hc, _⟩ := h.coherent.rooted root out hfind
    have hsaturated := h.saturated root c ((contextOf?_eq hfind).trans hc)
    simp only [hc, Option.map_some, Option.getD_some, hsaturated, if_true]

theorem statistics_finishContexts (n : Nat) (w : Worker α σ) :
    (w.finishContexts n).jobs = w.jobs := by
  induction n generalizing w with
  | zero => rfl
  | succ n ih => exact ih _

theorem statistics_complete {out : ContextId}
    (h : w.shared.work.state.find? (w.shared.rootOf id) = some out) :
    (w.complete obs id).jobs = { w.jobs with processed := w.jobs.processed + 1 } := by
  unfold complete
  rw [h]
  dsimp only
  split <;> rfl

/-- When the only job in progress is finished, it is delivered with a saturated context, if all
contexts have been counted. -/
theorem finishAll_delivers (obs : JobObserver α σ) (hb : w.shared.desk.Balanced 0)
    (hw : InOrder 0 w) (ha : w.shared.work.state.active = [])
    (hq : w.shared.desk.inProgress = [id]) (hj : w.shared.job? id = some j)
    (ho : j.output = none) {out : ContextId}
    (hout : w.shared.work.state.find? j.root = some out) :
    (w.finishAll obs).jobs = { w.jobs with processed := w.jobs.processed + 1 } ∧
    ∃ (t : Saturation α σ) (c : Context), (w.finishAll obs).shared = t.delivered obs id j out c ∧
      t.jobs = w.shared.jobs ∧ t.env = w.shared.env ∧ Keeps w.shared.work t.work ∧
      t.work.Stands j.root out c ∧ c.saturated = true := by
  obtain ⟨v, hv⟩ : ∃ v, v = w.marked.finishing [] := ⟨_, rfl⟩
  have hkeeps : Keeps w.shared.work v.shared.work := hv ▸ keeps_marked obs hw
  obtain ⟨hjobs, henv⟩ : v.shared.jobs = w.shared.jobs ∧ v.shared.env = w.shared.env :=
    hv ▸ jobs_finishContexts _ w.declare
  have hstatistics : v.jobs = w.jobs := hv ▸ statistics_finishContexts _ w.declare
  have hfinish : w.finishAll obs = v.complete obs id := by
    rw [finishAll_eq hb, hq, List.length_singleton,
      finishJobs_cons ((desk_marked hb).1.trans hq), hv]
    rfl
  have hjv : v.shared.job? id = some j := by rw [Saturation.job?, hjobs]; exact hj
  have hroot : v.shared.rootOf id = j.root := by simp [Saturation.rootOf, hjv]
  have hfind := hkeeps.find? _ _ hout
  obtain ⟨c, hcontext, _⟩ := hkeeps.coherent.rooted j.root out hfind
  have hst : v.shared.work.Stands j.root out c := ⟨hfind, hcontext⟩
  have hunsaturated : v.shared.work.state.unsaturated = [] := by
    rw [hv]
    exact List.length_eq_zero_iff.mp (unsaturated_marked obs hw hb ha)
  have hsaturated : c.saturated = true := saturated_of_listed (hkeeps.listed hw.listed)
    hunsaturated ((contextOf?_eq hfind).trans hcontext)
  obtain ⟨e, he⟩ := complete_eq obs hjv ho hst
  rw [hfinish]
  refine ⟨?_, v.shared.report e, c, he, hjobs, henv, ?_, hst, hsaturated⟩
  · rw [statistics_complete (hroot ▸ hfind), hstatistics]
  · exact hkeeps.trans ⟨hkeeps.coherent.report e, rfl, fun _ _ h => h, fun h => h⟩

end

section
variable {obs : JobObserver α σ} {w v : Worker α (σ × Notices α)} {id : JobId} {j : Job α}
  {s₀ : Saturation α (σ × Notices α)} {done rest : List JobId}

/-- A job whose root has a context is done at once. -/
theorem regular_completeAtOnce (obs : JobObserver α σ) (h : s₀.Regular done w.shared)
    (hj : w.shared.job? id = some j) (ho : j.output = none) (hid : id ∉ done) {out : ContextId}
    (hout : w.shared.work.state.find? j.root = some out) :
    s₀.Regular (done ++ [id]) (w.completeAtOnce obs.recording id out).shared := by
  obtain ⟨c, hcontext, _⟩ := h.still.coherent.rooted j.root out hout
  have hsaturated := h.still.saturated j.root c ((contextOf?_eq hout).trans hcontext)
  have hdelivered := completeAtOnce_eq obs.recording hj ho hcontext
  have hdesk := desk_completeAtOnce obs.recording w id out
  rw [hdelivered]
  refine ⟨h.deliver obs rfl rfl (.refl h.still.coherent) hj ⟨hout, hcontext⟩ hsaturated hid,
    h.balanced, h.settled, h.inProgress, h.still, h.size⟩

/-- The contexts that a pass has opened have been counted. -/
theorem size_handed (h : s₀.Regular done w.shared) (obs : JobObserver α (σ × Notices α))
    (id : JobId) : (w.handed obs id).shared.work.state.size =
      s₀.work.state.size + (w.handed obs id).shared.desk.counters.contextsCreated := by
  have hbefore : AllBut w.shared.work.state.size w.shared.work := by
    unfold AllBut
    rw [h.still.unsaturated]
    exact (Nat.zero_add _).symm
  have hopened := allBut_handed h.still.tidy hbefore obs id
  have huncounted := (h.inOrder.handed obs id).1.uncounted
  obtain ⟨n, hdesk⟩ := desk_handed obs w id
  have hfinished := h.finished
  have hsize := h.size
  -- What waits to be marked is new, and is just what has been counted and not finished.
  unfold AllBut at hopened
  unfold Uncounted at huncounted
  rw [hdesk] at huncounted ⊢
  dsimp only at huncounted ⊢
  omega

/-- When a pass has come to its end, the only job in progress is done, and all is finished. -/
theorem regular_finishAll (obs : JobObserver α σ) (hn : Notified s₀ done v.shared)
    (hb : v.shared.desk.Balanced 0) (hv : InOrder 0 v) (ht : Tidy [] v.shared.work)
    (ha : v.shared.work.state.active = [])
    (hsize : v.shared.work.state.size =
      s₀.work.state.size + v.shared.desk.counters.contextsCreated)
    (hq : v.shared.desk.inProgress = [id]) (hj : v.shared.job? id = some j)
    (ho : j.output = none) (hid : id ∉ done) {out : ContextId}
    (hout : v.shared.work.state.find? j.root = some out) :
    s₀.Regular (done ++ [id]) (v.finishAll obs.recording).shared ∧
      (v.finishAll obs.recording).jobs = { v.jobs with processed := v.jobs.processed + 1 } := by
  obtain ⟨hcounted, t, c, hdelivered, hjobs, henv, hkeeps, hst, hsaturated⟩ :=
    finishAll_delivers obs.recording hb hv ha hq hj ho hout
  have hlevel := level_finishAll hb ha obs.recording
  have hordered : InOrder 0 (v.finishAll obs.recording) := hv.finishAll hb
  have htidy := ((kept_tidy obs.recording).toDurable.finishAll ⟨ht, fun _ => trivial⟩).1
  have hunsaturated := List.length_eq_zero_iff.mp (hordered.unsaturated hlevel)
  refine ⟨⟨?_, balanced_finishAll hb, hlevel.counters, hlevel.inProgress,
    htidy.still hordered.listed hlevel.active hunsaturated, ?_⟩, hcounted⟩
  · rw [hdelivered]
    exact hn.deliver obs hjobs henv hkeeps hj hst hsaturated hid
  · rw [(durable_size obs.recording v.shared.work.state.size).finishAll (w := v) rfl,
      desk_finishAll hb]
    exact hsize

/-- A job whose root has no context is done by a pass. -/
theorem regular_runJob (hobs : obs.Reads) (h : s₀.Regular done w.shared)
    (hclear : obs.flag w.shared.env.1 = false) (hj : w.shared.job? id = some j)
    (ho : j.output = none) (hid : id ∉ done) :
    s₀.Regular (done ++ [id]) (w.runJob obs.recording id).shared ∧
      (w.runJob obs.recording id).jobs = { w.jobs with processed := w.jobs.processed + 1 } ∧
      ∃ n, (w.runJob obs.recording id).shared.desk =
        { w.shared.desk with counters := n } := by
  obtain ⟨hrun, henv, hactive⟩ := runJob_of_clear hobs.recording h.balanced hclear id
  obtain ⟨hordered, hkeeps⟩ := h.inOrder.handed obs.recording id
  obtain ⟨out, hout⟩ := located_handed h.inOrder obs.recording id
  obtain ⟨n, hdesk⟩ := desk_handed obs.recording w id
  have hbalanced : (w.handed obs.recording id).shared.desk.Balanced 0 :=
    balanced_handed h.balanced
  have hnotified : Notified s₀ done (w.handed obs.recording id).shared :=
    h.toNotified.of_kept hkeeps.find? rfl (congrArg (·.2) henv)
  have hprogress : (w.handed obs.recording id).shared.desk.inProgress = [id] := by
    rw [hdesk, h.inProgress]
    rfl
  have hroot : w.shared.rootOf id = j.root := by simp [Saturation.rootOf, hj]
  obtain ⟨hregular, hcounted⟩ := regular_finishAll obs hnotified hbalanced hordered
    (tidy_handed h.still.tidy obs.recording id) hactive (size_handed h obs.recording id) hprogress
    hj ho hid (hroot ▸ hout)
  rw [hrun]
  refine ⟨hregular, hcounted, (w.handed obs.recording id).shared.desk.counters.settled, ?_⟩
  rw [desk_finishAll hbalanced, hdesk, ← h.inProgress]

/-- A job that has been taken is done before the next one. It counts as done already if its root
has a context, and as processed otherwise. -/
theorem regular_attend (hobs : obs.Reads) (h : s₀.Regular done w.shared)
    (hclear : obs.flag w.shared.env.1 = false) (hq : w.shared.desk.toDo = id :: rest)
    (hj : s₀.job? id = some j) (ho : j.output = none) (hid : id ∉ done) :
    s₀.Regular (done ++ [id]) ((w.leaving rest).attend obs.recording id).shared ∧
      w.Takes [(id, w.shared.located id)] ((w.leaving rest).attend obs.recording id) := by
  obtain ⟨v, hv⟩ : ∃ v, v = w.leaving rest := ⟨_, rfl⟩
  have hregular : s₀.Regular done v.shared := by
    rw [hv]
    exact h.of_same rfl rfl rfl rfl rfl rfl
  have hqueue : w.shared.desk.toDo = id :: v.shared.desk.toDo := by rw [hv, hq]; rfl
  have htotals : v.shared.desk.jobTotals = w.shared.desk.jobTotals := by rw [hv]; rfl
  have hstatistics : v.jobs = w.jobs := by rw [hv]; rfl
  have hlocated : w.shared.located id = v.shared.located id := by rw [hv]; rfl
  have hclear' : obs.flag v.shared.env.1 = false := by rw [hv]; exact hclear
  have hjv : v.shared.job? id = some j := (hregular.others id hid).trans hj
  have hroot : v.shared.rootOf id = j.root := by simp [Saturation.rootOf, hjv]
  rw [← hv, hlocated, Saturation.located, hroot]
  unfold attend
  rw [saturated?_of_still hregular.still, hroot]
  cases hout : v.shared.work.state.find? j.root with
  | some out =>
    have hdesk := desk_completeAtOnce obs.recording v id out
    refine ⟨regular_completeAtOnce obs hregular hjv ho hid hout, ?_, ?_, ?_⟩
    · rw [hdesk, hqueue]
      rfl
    · rw [← hstatistics]
      unfold completeAtOnce
      dsimp only
      split <;> rfl
    · rw [hdesk, htotals]
  | none =>
    obtain ⟨hdone, hcounted, n, hdesk⟩ := regular_runJob hobs hregular hclear' hjv ho hid
    refine ⟨hdone, ?_, ?_, ?_⟩
    · rw [hdesk, hqueue]
      rfl
    · rw [hcounted, hstatistics]
      rfl
    · rw [hdesk, ← htotals]

/-! ### A call -/

/-- The worker goes round its loop until it finds the flag set or no job. -/
theorem regular_rounds {n : Nat} {o : Outcome} (hobs : obs.Reads)
    (hr : Rounds obs.recording n w o v) (h : s₀.Regular done w.shared)
    (hd : (done ++ w.shared.desk.toDo).Nodup)
    (hnew : ∀ id ∈ w.shared.desk.toDo, ∃ j, s₀.job? id = some j ∧ j.output = none)
    (hn : w.shared.desk.toDo.length + 2 ≤ n) :
    let taken := takings obs.recording n w
    o = .returned ∧ s₀.Regular (done ++ taken.map Prod.fst) v.shared ∧ w.Takes taken v ∧
      (obs.flag v.shared.env.1 = false → v.shared.desk.toDo = []) := by
  have hpolled (w : Worker α (σ × Notices α)) := polled_eq hobs.recording w
  induction hr generalizing done with
  | unfinished => omega
  | flagged hset =>
    simp only [takings, hset, if_true, List.map_nil, List.append_nil, hpolled]
    refine ⟨trivial, h, .refl _, fun hclear => ?_⟩
    cases hset.symm.trans hclear
  | parked _ hfull | blocked _ hfull =>
    rw [hpolled, h.level.not_full] at hfull
    cases hfull
  | done hclear hroom hq =>
    rw [hpolled] at hroom hq
    simp only [takings, hclear, hpolled, hroom, hq, Bool.false_eq_true, if_false, List.map_nil,
      List.append_nil]
    exact ⟨trivial, h, .refl _, fun _ => trivial⟩
  | @job n w o v id rest hclear hroom hq _ ih =>
    rw [hpolled] at hroom hq ih
    simp only [takings, hclear, hpolled, hroom, hq, Bool.false_eq_true, if_false]
    rw [hq] at hd hnew hn
    obtain ⟨j, hj, ho⟩ := hnew id List.mem_cons_self
    have hid : id ∉ done := fun hid =>
      List.disjoint_of_nodup_append hd hid List.mem_cons_self
    obtain ⟨hregular, htakes⟩ := regular_attend hobs h hclear hq hj ho hid
    have hrest : ((w.leaving rest).attend obs.recording id).shared.desk.toDo = rest := by
      have hqueue := htakes.queue
      rw [hq] at hqueue
      exact (List.cons.inj hqueue).2.symm
    rw [hrest] at ih
    have hd' : (done ++ [id] ++ rest).Nodup := by rwa [List.append_assoc]
    obtain ⟨hreturned, hdone, htakes', hend⟩ := ih hregular hd'
      (fun x hx => hnew x (List.mem_cons_of_mem _ hx)) (by rw [List.length_cons] at hn; omega)
    rw [List.append_assoc] at hdone
    exact ⟨hreturned, hdone, htakes.trans htakes', hend⟩

/-- A call returns, and everything is finished again. The jobs that it has taken are done; if the
flag is clear, these are all. -/
theorem regular_process (hobs : obs.Reads) (h : s₀.Regular done w.shared)
    (hd : (done ++ w.shared.desk.toDo).Nodup)
    (hnew : ∀ id ∈ w.shared.desk.toDo, ∃ j, s₀.job? id = some j ∧ j.output = none) :
    let taken := w.taken obs.recording
    let p := w.process obs.recording
    p.1 = .returned ∧ s₀.Regular (done ++ taken.map Prod.fst) p.2.shared ∧ w.Takes taken p.2 ∧
      (obs.flag p.2.shared.env.1 = false → p.2.shared.desk.toDo = []) := by
  obtain ⟨i, hi, hrun⟩ := runRules_of_level hobs.recording h.balanced h.level
  obtain ⟨v, hv⟩ : ∃ v, v = w.runRules obs.recording := ⟨_, rfl⟩
  rw [← hv] at hrun
  have hregular : s₀.Regular done v.shared := by
    have hbalanced := h.balanced
    rw [hrun]
    refine ⟨h.toNotified.of_kept (fun _ _ hf => hf) rfl rfl, ⟨congrArg (· + 1) hbalanced.passes, hi,
      hbalanced.contexts, hbalanced.created, hbalanced.jobs, hbalanced.progress,
      hbalanced.waiting⟩, ?_, h.inProgress, h.still, h.size⟩
    exact congrArg (fun c : Counters => { c with
      workersStarted := c.workersStarted + 1
      workersFinished := c.workersFinished + 1
      lastInterrupt := i }) h.settled
  have hqueue : v.shared.desk.toDo = w.shared.desk.toDo := by rw [hrun]; rfl
  have htaken : w.taken obs.recording =
      takings obs.recording (v.shared.desk.toDo.length + 2) v := by
    rw [hv]
    rfl
  have hprocess : w.process obs.recording =
      loop obs.recording (v.shared.desk.toDo.length + 2) v := by
    rw [hv]
    rfl
  have hrounds := rounds_loop obs.recording (v.shared.desk.toDo.length + 2) v
  rw [← hqueue] at hd hnew
  obtain ⟨hreturned, hdone, htakes, hend⟩ :=
    regular_rounds hobs hrounds hregular hd hnew (Nat.le_refl _)
  have hfirst : w.Takes [] v := by
    rw [hrun]
    exact ⟨rfl, rfl, rfl⟩
  dsimp only
  rw [htaken, hprocess]
  exact ⟨hreturned, hdone, hfirst.trans htakes, hend⟩

end

end Worker

end Subsumption
