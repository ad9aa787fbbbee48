import Subsumption.Proofs.Worker.Taking

/-! Several engines of one factory that are used one at a time, each with counts of its own. Jobs
are submitted through any of them, and any of them is called to work; a call goes on where the last
one has stopped, whichever engine that was. -/
namespace Subsumption

variable {α σ : Type}

/-- An engine with what it counted itself. -/
structure JobEngine where
  rules : RuleStatistics
  jobs : JobStatistics

/-- The engines that share a dispatcher. -/
structure JobFactory (α σ : Type) where
  shared : Saturation α σ
  engines : List JobEngine

namespace JobFactory

open JobObserver Workspace Saturation

def new (s : Saturation α σ) : JobFactory α σ := ⟨s, []⟩

/-- An engine at work. -/
def worker (f : JobFactory α σ) (e : JobEngine) : Worker α σ := ⟨f.shared, e.rules, e.jobs⟩

/-- The factory after one of its engines has been at work. -/
def put (before after : List JobEngine) (w : Worker α σ) : JobFactory α σ :=
  ⟨w.shared, before ++ ⟨w.rules, w.jobs⟩ :: after⟩

/-- A count of all engines, the finished ones included. -/
def total (count : JobStatistics → Nat) (f : JobFactory α σ) : Nat :=
  count f.shared.desk.jobTotals + (f.engines.map (count ·.jobs)).sum

/-- The factory when the surroundings have changed between two calls. -/
def surrounded (e : σ) (f : JobFactory α (σ × Notices α)) : JobFactory α (σ × Notices α) :=
  { f with shared := { f.shared with env := (e, f.shared.env.2) } }

/-- What a factory comes to when its engines are used one at a time, with the jobs that have been
submitted and those that have been taken, each marked if its root had a context then. The flag may
be set and cleared between any two calls, and whenever notice of a job is given. -/
inductive Used (obs : JobObserver α σ) (f₀ : JobFactory α (σ × Notices α)) :
    List JobId → List (JobId × Bool) → JobFactory α (σ × Notices α) → Prop
  | start : Used obs f₀ [] [] f₀
  | engine {ids taken f} (h : Used obs f₀ ids taken f) :
    Used obs f₀ ids taken { f with engines := f.engines ++ [⟨.zero, .zero⟩] }
  | submit {ids taken f before e after} (h : Used obs f₀ ids taken f)
    (hf : f.engines = before ++ e :: after) (id : JobId) :
    Used obs f₀ (ids ++ [id]) taken (put before after ((f.worker e).submit id))
  | call {ids taken f before e after} (h : Used obs f₀ ids taken f)
    (hf : f.engines = before ++ e :: after) :
    Used obs f₀ ids (taken ++ (f.worker e).taken obs.recording)
      (put before after ((f.worker e).process obs.recording).2)
  | surroundings {ids taken f} (h : Used obs f₀ ids taken f) (e : σ) :
    Used obs f₀ ids taken (f.surrounded e)
  | finish {ids taken f before e after} (h : Used obs f₀ ids taken f)
    (hf : f.engines = before ++ e :: after) :
    Used obs f₀ ids taken ⟨(f.worker e).finish, before ++ after⟩

/-- Between two calls: the jobs taken are done, the others wait in the queue, and all engines
together have counted just this. -/
structure Accounts (s₀ : Saturation α (σ × Notices α)) (ids : List JobId)
    (taken : List (JobId × Bool)) (f : JobFactory α (σ × Notices α)) : Prop where
  regular : s₀.Regular (taken.map Prod.fst) f.shared
  queue : taken.map Prod.fst ++ f.shared.desk.toDo = ids
  submitted : f.total (·.submitted) = ids.length
  alreadyDone : f.total (·.alreadyDone) = taken.countP (·.2)
  processed : f.total (·.processed) = taken.countP (!·.2)
  parkings : f.total (·.parkings) = 0

section
variable {obs : JobObserver α σ} {s₀ : Saturation α (σ × Notices α)} {threshold : Nat}
  {timed : Bool} {f : JobFactory α (σ × Notices α)} {ids : List JobId}
  {taken : List (JobId × Bool)} {before after : List JobEngine} {e : JobEngine}
  {w : Worker α (σ × Notices α)}

theorem total_of_engines (count : JobStatistics → Nat) (hf : f.engines = before ++ e :: after) :
    f.total count = count e.jobs + (count f.shared.desk.jobTotals +
      ((before ++ after).map (count ·.jobs)).sum) := by
  simp only [total, hf, List.map_append, List.map_cons, List.sum_append, List.sum_cons]
  omega

theorem total_put (count : JobStatistics → Nat) (before after : List JobEngine)
    (ht : w.shared.desk.jobTotals = f.shared.desk.jobTotals) :
    (put before after w).total count = count w.jobs + (count f.shared.desk.jobTotals +
      ((before ++ after).map (count ·.jobs)).sum) := by
  rw [← ht]
  exact total_of_engines (f := put before after w) (e := ⟨w.rules, w.jobs⟩) count rfl

theorem accounts_new (hdesk : s₀.desk = .new threshold timed) (hstill : s₀.work.Still) :
    Accounts s₀ [] [] (new s₀) := by
  have hcounters : s₀.desk.counters = .zero := congrArg Dispatcher.counters hdesk
  have htotals : s₀.desk.jobTotals = .zero := congrArg Dispatcher.jobTotals hdesk
  have hnone : ∀ p ∈ ([] : Notices α), False := fun _ hp => List.not_mem_nil hp
  have hbalanced : s₀.desk.Balanced 0 := by
    rw [hdesk]
    exact ⟨rfl, Nat.le_refl _, rfl, Nat.le_refl _, rfl, rfl, rfl⟩
  have htotal {count : JobStatistics → Nat} : (new s₀).total count = count .zero := by
    rw [total, ← htotals]
    rfl
  refine ⟨⟨⟨fun _ _ => rfl, [], (List.append_nil _).symm, rfl, ?_, ?_⟩, hbalanced, ?_,
    congrArg Dispatcher.inProgress hdesk, hstill, ?_⟩, congrArg Dispatcher.toDo hdesk, htotal,
    htotal, htotal, htotal⟩
  · exact fun p hp => (hnone p hp).elim
  · exact fun p hp => (hnone p hp).elim
  · change s₀.desk.counters.settled = s₀.desk.counters
    rw [hcounters]
    rfl
  · change s₀.work.state.size = s₀.work.state.size + s₀.desk.counters.contextsCreated
    rw [hcounters]
    rfl

theorem Accounts.engine (h : Accounts s₀ ids taken f) :
    Accounts s₀ ids taken { f with engines := f.engines ++ [⟨.zero, .zero⟩] } := by
  have htotal {count : JobStatistics → Nat} (hzero : count .zero = 0) :
      ({ f with engines := f.engines ++ [⟨.zero, .zero⟩] } : JobFactory α _).total count =
        f.total count := by
    simp [total, hzero]
  exact ⟨h.regular, h.queue, (htotal rfl).trans h.submitted, (htotal rfl).trans h.alreadyDone,
    (htotal rfl).trans h.processed, (htotal rfl).trans h.parkings⟩

theorem Accounts.submit (h : Accounts s₀ ids taken f) (hf : f.engines = before ++ e :: after)
    (id : JobId) :
    Accounts s₀ (ids ++ [id]) taken (put before after ((f.worker e).submit id)) := by
  have hbefore (count : JobStatistics → Nat) := total_of_engines count hf
  have hafter (count : JobStatistics → Nat) :=
    total_put (f := f) (w := (f.worker e).submit id) count before after rfl
  refine ⟨h.regular.of_same rfl rfl rfl rfl rfl rfl, ?_, ?_, ?_, ?_, ?_⟩
  · rw [← h.queue, List.append_assoc]
    rfl
  · rw [List.length_append, List.length_singleton, ← h.submitted, hbefore, hafter]
    exact Nat.add_right_comm _ _ _
  · rw [← h.alreadyDone, hbefore, hafter]
    rfl
  · rw [← h.processed, hbefore, hafter]
    rfl
  · rw [← h.parkings, hbefore, hafter]
    rfl

/-- A call takes some jobs, and its engine counts them. -/
theorem Accounts.take (h : Accounts s₀ ids taken f) (hf : f.engines = before ++ e :: after)
    {more : List (JobId × Bool)} (ht : (f.worker e).Takes more w)
    (hregular : s₀.Regular ((taken ++ more).map Prod.fst) w.shared) :
    Accounts s₀ ids (taken ++ more) (put before after w) := by
  have hbefore (count : JobStatistics → Nat) := total_of_engines count hf
  have hafter (count : JobStatistics → Nat) := total_put count before after ht.totals
  rw [ht.jobs] at hafter
  refine ⟨hregular, ?_, ?_, ?_, ?_, ?_⟩
  · rw [List.map_append, List.append_assoc, ← h.queue]
    exact congrArg _ ht.queue.symm
  · rw [← h.submitted, hbefore, hafter]
    rfl
  · rw [List.countP_append, ← h.alreadyDone, hbefore, hafter]
    exact Nat.add_right_comm _ _ _
  · rw [List.countP_append, ← h.processed, hbefore, hafter]
    exact Nat.add_right_comm _ _ _
  · rw [← h.parkings, hbefore, hafter]
    rfl

theorem Accounts.finish (h : Accounts s₀ ids taken f) (hf : f.engines = before ++ e :: after) :
    Accounts s₀ ids taken ⟨(f.worker e).finish, before ++ after⟩ := by
  have htotal {count : JobStatistics → Nat} (hadd : ∀ s t, count (s.add t) = count s + count t) :
      (⟨(f.worker e).finish, before ++ after⟩ : JobFactory α _).total count = f.total count := by
    rw [total_of_engines count hf]
    change count (f.shared.desk.jobTotals.add e.jobs) + _ = _
    rw [hadd, Nat.add_left_comm, Nat.add_assoc]
  exact ⟨h.regular.of_same rfl rfl rfl rfl rfl rfl, h.queue,
    (htotal fun _ _ => rfl).trans h.submitted, (htotal fun _ _ => rfl).trans h.alreadyDone,
    (htotal fun _ _ => rfl).trans h.processed, (htotal fun _ _ => rfl).trans h.parkings⟩

/-- Whatever is called next. -/
theorem Accounts.call (hobs : obs.Reads) (h : Accounts s₀ ids taken f) (hd : ids.Nodup)
    (hnew : ∀ id ∈ ids, ∃ j, s₀.job? id = some j ∧ j.output = none)
    (hf : f.engines = before ++ e :: after) :
    let p := (f.worker e).process obs.recording
    p.1 = .returned ∧
      Accounts s₀ ids (taken ++ (f.worker e).taken obs.recording) (put before after p.2) ∧
      (obs.flag p.2.shared.env.1 = false → p.2.shared.desk.toDo = []) := by
  have hqueued : ∀ id ∈ f.shared.desk.toDo, id ∈ ids := fun id hid =>
    h.queue ▸ List.mem_append_right _ hid
  obtain ⟨hreturned, hregular, htakes, hend⟩ :=
    Worker.regular_process (w := f.worker e) hobs h.regular (h.queue ▸ hd)
      fun id hid => hnew id (hqueued id hid)
  rw [← List.map_append] at hregular
  exact ⟨hreturned, h.take hf htakes hregular, hend⟩

theorem Used.accounts (hobs : obs.Reads) (hdesk : s₀.desk = .new threshold timed)
    (hstill : s₀.work.Still) (h : Used obs (new s₀) ids taken f) (hd : ids.Nodup)
    (hnew : ∀ id ∈ ids, ∃ j, s₀.job? id = some j ∧ j.output = none) :
    Accounts s₀ ids taken f := by
  induction h with
  | start => exact accounts_new hdesk hstill
  | engine _ ih => exact (ih hd hnew).engine
  | submit _ hf id ih =>
    refine (ih hd.of_append_left fun x hx => hnew x ?_).submit hf id
    exact List.mem_append_left _ hx
  | call _ hf ih => exact ((ih hd hnew).call hobs hd hnew hf).2.1
  | surroundings _ e ih =>
    have hbefore := ih hd hnew
    exact ⟨hbefore.regular.of_same rfl rfl rfl rfl rfl rfl, hbefore.queue, hbefore.submitted,
      hbefore.alreadyDone, hbefore.processed, hbefore.parkings⟩
  | finish _ hf ih => exact (ih hd hnew).finish hf

/-- One thread uses the engines of a new factory over contexts at rest. Different jobs without
output have been submitted and calls have been made, of any engines, with any threshold; polls only
read the flag, but it may change between calls and whenever notice of a job is given. Then a call of
any engine returns. All contexts counted as created are processed and finished, and they are those
that there are in addition; all jobs handed to the rule engine are processed and finished, and all
passes have ended. The contexts are at rest again, and nobody has ever waited. Notice has been given
of the first jobs that were submitted, in this order, or of all if the flag is clear, with saturated
contexts of their roots. A job counts as done already if its root had a context when it was taken,
and as processed otherwise, and the counts of all engines and the jobs that are left make up the
jobs submitted. -/
theorem jobs_done_in_order (hobs : obs.Reads) (hdesk : s₀.desk = .new threshold timed)
    (hstill : s₀.work.Still) (h : Used obs (new s₀) ids taken f) (hd : ids.Nodup)
    (hnew : ∀ id ∈ ids, ∃ j, s₀.job? id = some j ∧ j.output = none)
    (hf : f.engines = before ++ e :: after) :
    let p := (f.worker e).process obs.recording
    let g := put before after p.2
    let all := taken ++ (f.worker e).taken obs.recording
    let c := g.shared.desk.counters
    p.1 = .returned ∧
    (c.contextsCreated = c.contextsProcessed ∧ c.contextsProcessed = c.contextsFinished ∧
      g.shared.work.state.size = s₀.work.state.size + c.contextsCreated) ∧
    (c.jobsSubmitted = c.jobsProcessed ∧ c.jobsProcessed = c.jobsFinished) ∧
    c.workersStarted = c.workersFinished ∧
    g.shared.work.Still ∧ g.total (·.parkings) = 0 ∧
    (∃ new, g.shared.env.2 = s₀.env.2 ++ new ∧
      g.shared.Delivers (all.map Prod.fst) True new) ∧
    all.map Prod.fst ++ g.shared.desk.toDo = ids ∧
    (obs.flag g.shared.env.1 = false → all.map Prod.fst = ids) ∧
    g.total (·.alreadyDone) = all.countP (·.2) ∧ g.total (·.processed) = all.countP (!·.2) ∧
    g.total (·.submitted) =
      g.total (·.alreadyDone) + g.total (·.processed) + g.shared.desk.toDo.length := by
  obtain ⟨hreturned, haccounts, hend⟩ :=
    (h.accounts hobs hdesk hstill hd hnew).call hobs hd hnew hf
  intro p g all c
  have hbalanced : g.shared.desk.Balanced 0 := haccounts.regular.balanced
  have hsettled : c.settled = c := haccounts.regular.settled
  have hqueue : all.map Prod.fst ++ g.shared.desk.toDo = ids := haccounts.queue
  refine ⟨hreturned, ⟨congrArg Counters.contextsProcessed hsettled, hbalanced.contexts.symm,
    haccounts.regular.size⟩, ⟨congrArg Counters.jobsProcessed hsettled, hbalanced.jobs.symm⟩,
    hbalanced.passes, haccounts.regular.still, haccounts.parkings, haccounts.regular.notices,
    hqueue, fun hclear => ?_, haccounts.alreadyDone, haccounts.processed, ?_⟩
  · rw [show g.shared.desk.toDo = [] from hend hclear, List.append_nil] at hqueue
    exact hqueue
  · have hsubmitted : g.total (·.submitted) = ids.length := haccounts.submitted
    have halready : g.total (·.alreadyDone) = all.countP (·.2) := haccounts.alreadyDone
    have hprocessed : g.total (·.processed) = all.countP (!·.2) := haccounts.processed
    have hall := List.length_eq_countP_add_countP (fun p : JobId × Bool => p.2) (l := all)
    simp only [Bool.not_eq_true, Bool.decide_eq_false] at hall
    rw [hsubmitted, halready, hprocessed, ← hqueue, List.length_append, List.length_map]
    omega

end

/-- The flag is a value that is set whenever notice of a job is given. -/
def halting : JobObserver Unit Bool := ⟨fun b => (b, b), fun _ _ _ => true⟩

/-- Jobs for A and B over A ⊑ ∃r.B and B ⊑ owl:Nothing, and two engines without counts. -/
def staffed : JobFactory Unit (Bool × Notices Unit) :=
  { new (queued false 0 []) with engines := [⟨.zero, .zero⟩, ⟨.zero, .zero⟩] }

/-- The job for A is submitted through the first engine. -/
def firstSubmitted : JobFactory Unit (Bool × Notices Unit) :=
  put [] [⟨.zero, .zero⟩] ((staffed.worker ⟨.zero, .zero⟩).submit ⟨0⟩)

/-- The job for B is submitted through the second engine. -/
def bothSubmitted : JobFactory Unit (Bool × Notices Unit) :=
  put [⟨.zero, ⟨1, 0, 0, 0⟩⟩] [] ((firstSubmitted.worker ⟨.zero, .zero⟩).submit ⟨1⟩)

/-- The first engine is called, and stopped by the notice of the job for A. -/
def firstCall : Worker Unit (Bool × Notices Unit) :=
  ((bothSubmitted.worker ⟨.zero, ⟨1, 0, 0, 0⟩⟩).process halting.recording).2

/-- The flag is cleared. -/
def cleared : JobFactory Unit (Bool × Notices Unit) :=
  (put [] [⟨.zero, ⟨1, 0, 0, 0⟩⟩] firstCall).surrounded false

theorem used_cleared : Used halting (new (queued false 0 [])) [⟨0⟩, ⟨1⟩]
    ((bothSubmitted.worker ⟨.zero, ⟨1, 0, 0, 0⟩⟩).taken halting.recording) cleared := by
  have hone : staffed.engines = [] ++ ⟨.zero, .zero⟩ :: [⟨.zero, .zero⟩] := rfl
  have htwo : firstSubmitted.engines = [⟨.zero, ⟨1, 0, 0, 0⟩⟩] ++ ⟨.zero, .zero⟩ :: [] := rfl
  have hboth : bothSubmitted.engines =
      [] ++ ⟨.zero, ⟨1, 0, 0, 0⟩⟩ :: [⟨.zero, ⟨1, 0, 0, 0⟩⟩] := rfl
  exact (((Used.start.engine.engine.submit hone ⟨0⟩).submit htwo ⟨1⟩).call hboth).surroundings false

/-- The second engine takes the job for B, whose context is there as the filler of ∃r.B. -/
theorem jobs_done_in_order_emptyFiller :
    firstCall.shared.env.1 = true ∧ cleared.shared.desk.toDo = [⟨1⟩] ∧
    let p := (cleared.worker ⟨.zero, ⟨1, 0, 0, 0⟩⟩).process halting.recording
    let g := put [⟨firstCall.rules, firstCall.jobs⟩] [] p.2
    p.1 = .returned ∧ g.shared.desk.counters.contextsCreated = 2 ∧
      g.shared.work.state.size = 0 + g.shared.desk.counters.contextsCreated ∧
      g.shared.desk.toDo = [] ∧ g.shared.work.Still ∧ g.total (·.parkings) = 0 ∧
      (∃ new, g.shared.env.2 = [] ++ new ∧ g.shared.Delivers [⟨0⟩, ⟨1⟩] True new) ∧
      g.total (·.alreadyDone) = 1 ∧ g.total (·.processed) = 1 ∧ g.total (·.submitted) = 2 := by
  have hreads : halting.Reads := fun _ => rfl
  have hstill : (queued false 0 []).work.Still := still_new rfl
  have hengines : cleared.engines =
      [⟨firstCall.rules, firstCall.jobs⟩] ++ ⟨.zero, ⟨1, 0, 0, 0⟩⟩ :: [] := rfl
  obtain ⟨hreturned, ⟨_, _, hsize⟩, _, _, hrest, hparkings, hnotices, _, _, halready, hprocessed,
      hsubmitted⟩ :=
    jobs_done_in_order hreads rfl hstill used_cleared (by decide) (by decide +kernel) hengines
  have hall : (bothSubmitted.worker ⟨.zero, ⟨1, 0, 0, 0⟩⟩).taken halting.recording ++
      (cleared.worker ⟨.zero, ⟨1, 0, 0, 0⟩⟩).taken halting.recording =
        [(⟨0⟩, false), (⟨1⟩, true)] := by
    decide +kernel
  have hleft : ((cleared.worker ⟨.zero, ⟨1, 0, 0, 0⟩⟩).process
      halting.recording).2.shared.desk.toDo = [] := by
    decide +kernel
  rw [hall] at hnotices halready hprocessed
  rw [halready, hprocessed] at hsubmitted
  exact ⟨by decide +kernel, by decide +kernel, hreturned, by decide +kernel, hsize, hleft, hrest,
    hparkings, hnotices, halready, hprocessed, hsubmitted.trans (by rw [put, hleft]; rfl)⟩

end JobFactory

end Subsumption
