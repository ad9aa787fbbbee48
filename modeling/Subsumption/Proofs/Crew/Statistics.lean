import Subsumption.Proofs.Crew.Accounts

/-! What the workers count of jobs agrees with the record. -/
namespace Subsumption

variable {α σ : Type} {obs : JobObserver α σ} {s s' : Saturation α σ} {lock : Option Nat}
  {me i : Nat} {m m' : Member} {mv : Move α σ} {pc pc' : PC} {ps ps' : Multiset PC}
  {c c' : Crew α σ} {ds ds' : List Deed}

/-- The submissions that a worker has counted as done before or as processed. -/
def JobStatistics.done (j : JobStatistics) : Nat := j.alreadyDone + j.processed

/-- Whether the worker may count a job next. -/
def PC.isCounting : PC → Bool
  | .locateOutput _ _ | .checkSaturated _ _ => true
  | _ => false

theorem counts_deeds (hpc : pc.isCounting = false) : counts (pc.deeds obs s) = [] := by
  cases pc with
  | locateOutput | checkSaturated => cases hpc
  | notify | notifyAtOnce => exact counts_notices
  | poll | pollJobs | giveOutput | giveAtOnce =>
    simp only [PC.deeds]
    split <;> rfl
  | _ => rfl

/-- A worker goes on, having counted `n` jobs. -/
structure Member.Tallies (m : Member) (n : Nat) (m' : Member) : Prop where
  submitted : m'.jobs.submitted = m.jobs.submitted
  done : m'.jobs.done = m.jobs.done + n

theorem tallies_goto {s₁ : Saturation α σ} (h : m.goto lock s₁ pc = some mv) :
    m.Tallies 0 mv.member := by
  cases h
  exact ⟨rfl, rfl⟩

theorem tallies_stepPass (h : m.stepPass obs s lock = some mv) : m.Tallies 0 mv.member := by
  unfold Member.stepPass at h
  dsimp only at h
  split at h <;> (repeat' split at h) <;>
    first | exact tallies_goto h | (cases h; done) | (cases h; exact ⟨rfl, rfl⟩)

theorem tallies_stepLeave (h : m.stepLeave s lock = some mv) : m.Tallies 0 mv.member := by
  unfold Member.stepLeave at h
  dsimp only at h
  split at h <;> (repeat' split at h) <;>
    first | exact tallies_goto h | cases h

theorem tallies_stepPark (h : m.stepPark obs s lock me = some mv) : m.Tallies 0 mv.member := by
  unfold Member.stepPark at h
  dsimp only at h
  split at h <;> (repeat' split at h) <;>
    first | exact tallies_goto h | (cases h; done) | (cases h; exact ⟨rfl, rfl⟩)

theorem tallies_stepFinish (h : m.stepFinish obs s lock = some mv)
    (hpc : m.pc.isCounting = false) : m.Tallies 0 mv.member := by
  unfold Member.stepFinish at h
  dsimp only at h
  split at h
  case h_10 heq =>
    rw [heq] at hpc
    cases hpc
  all_goals (repeat' split at h) <;> first | exact tallies_goto h | cases h

theorem tallies_stepJobs (h : m.stepJobs obs s lock = some mv)
    (hpc : m.pc.isCounting = false) : m.Tallies 0 mv.member := by
  unfold Member.stepJobs at h
  dsimp only at h
  split at h
  case h_6 heq =>
    rw [heq] at hpc
    cases hpc
  all_goals (repeat' split at h) <;> first | exact tallies_goto h | cases h

/-- A worker counts a job when the record says so, and only then. -/
theorem tallies_step (h : m.step obs s lock me = some mv) :
    m.Tallies (counts (m.pc.deeds obs s)).length mv.member := by
  cases hpc : m.pc.isCounting with
  | false =>
    rw [counts_deeds hpc]
    rcases (Option.orElse_eq_some _ _ _).mp h with h | ⟨_, h⟩
    · exact tallies_stepPass h
    rcases (Option.orElse_eq_some _ _ _).mp h with h | ⟨_, h⟩
    · exact tallies_stepLeave h
    rcases (Option.orElse_eq_some _ _ _).mp h with h | ⟨_, h⟩
    · exact tallies_stepFinish h hpc
    rcases (Option.orElse_eq_some _ _ _).mp h with h | ⟨_, h⟩
    · exact tallies_stepPark h
    · exact tallies_stepJobs h hpc
  | true =>
    obtain ⟨pc, rules, jobs⟩ := m
    cases pc with
    | locateOutput b job =>
      have h : Member.stepFinish obs s lock ⟨.locateOutput b job, rules, jobs⟩ = some mv := by
        simpa [Member.step, Member.stepPass, Member.stepLeave, Member.stepPark,
          Member.stepJobs] using h
      simp only [Member.stepFinish] at h
      simp only [PC.deeds]
      cases hf : s.work.state.find? (s.rootOf job) <;> rw [hf] at h
      · exact tallies_goto h
      · cases h
        exact ⟨rfl, (Nat.add_assoc _ _ _).symm⟩
    | checkSaturated job id =>
      have h : Member.stepJobs obs s lock ⟨.checkSaturated job id, rules, jobs⟩ = some mv := h
      simp only [Member.stepJobs] at h
      simp only [PC.deeds]
      split_ifs at h ⊢
      · cases h
        exact ⟨rfl, Nat.add_right_comm _ _ _⟩
      · exact tallies_goto h
    | _ => cases hpc

/-! ### All workers together -/

namespace Crew

/-- The sum of a count over all workers. -/
def sum (f : JobStatistics → Nat) (c : Crew α σ) : Nat :=
  (c.members.toList.map fun m => f m.jobs).sum

theorem sum_setIfInBounds (f : JobStatistics → Nat) (hm : c.members[i]? = some m) (m' : Member)
    (s : Saturation α σ) (lock : Option Nat) :
    sum f ⟨s, lock, c.members.setIfInBounds i m'⟩ + f m.jobs = sum f c + f m'.jobs := by
  obtain ⟨hi, rfl⟩ := Array.getElem?_eq_some_iff.mp hm
  have hi' : i < c.members.toList.length := by simpa using hi
  have hset := ((List.set_perm_cons_eraseIdx hi' m').map fun m => f m.jobs).sum_eq
  have hget := ((List.getElem_cons_eraseIdx_perm hi').map fun m => f m.jobs).sum_eq
  simp only [sum, Array.toList_setIfInBounds, List.map_cons, List.sum_cons,
    Array.getElem_toList] at hset hget ⊢
  omega

theorem sum_wakeAll (f : JobStatistics → Nat) (s : Saturation α σ) (lock : Option Nat)
    (members : Array Member) : sum f ⟨s, lock, wakeAll members⟩ = sum f ⟨s, lock, members⟩ := by
  simp only [sum, wakeAll, Array.toList_map, List.map_map]
  congr 1
  refine List.map_congr_left fun m _ => ?_
  simp only [Function.comp_apply]
  split <;> rfl

/-- The workers together have counted `sub` submissions and `n` jobs as done. -/
def Tallied (ds : List Deed) (c : Crew α σ) : Prop :=
  c.sum (·.submitted) = (submissions ds).length ∧ c.sum (·.done) = (counts ds).length

theorem submissions_deeds (pc : PC) : submissions (pc.deeds obs s) = [] := by
  cases pc with
  | notify | notifyAtOnce => exact submissions_notices
  | poll | pollJobs | giveOutput | giveAtOnce | locateOutput | checkSaturated =>
    simp only [PC.deeds]
    split <;> rfl
  | _ => rfl

theorem tallied_turn (ht : c.Tallied ds) (h : Turn obs c ds' c') : c'.Tallied (ds' ++ ds) := by
  obtain ⟨hsub, hdone⟩ := ht
  cases h with
  | @step i m c' hm h =>
    simp only [Crew.step, hm] at h
    cases hs : m.step obs c.shared c.lock i with
    | none => rw [hs] at h; cases h
    | some mv =>
      rw [hs] at h
      cases h
      have hsum : ∀ f, sum f ⟨mv.shared, mv.lock, if mv.wakes then
          wakeAll (c.members.setIfInBounds i mv.member) else
            c.members.setIfInBounds i mv.member⟩ + f m.jobs = sum f c + f mv.member.jobs := by
        intro f
        split
        · rw [sum_wakeAll, sum_setIfInBounds f hm]
        · rw [sum_setIfInBounds f hm]
      obtain ⟨hsub', hdone'⟩ := tallies_step hs
      have hsums := hsum (·.submitted)
      have hsumd := hsum (·.done)
      rw [Tallied, submissions_append, counts_append, submissions_deeds, List.nil_append,
        List.length_append]
      omega
  | @call i m hm hr =>
    have hsums := sum_setIfInBounds (·.submitted) hm { m with pc := .startPass } c.shared c.lock
    have hsumd := sum_setIfInBounds (·.done) hm { m with pc := .startPass } c.shared c.lock
    exact ⟨(Nat.add_right_cancel hsums).trans hsub, (Nat.add_right_cancel hsumd).trans hdone⟩
  | @submit i m job hm hr hj =>
    have hsums := sum_setIfInBounds (·.submitted) hm
      { m with jobs := { m.jobs with submitted := m.jobs.submitted + 1 } }
      (c.shared.pushToDo job) c.lock
    have hsumd := sum_setIfInBounds (·.done) hm
      { m with jobs := { m.jobs with submitted := m.jobs.submitted + 1 } }
      (c.shared.pushToDo job) c.lock
    refine ⟨?_, (Nat.add_right_cancel hsumd).trans hdone⟩
    simp only [submissions_append, submissions_cons, Deed.submissions, submissions_nil,
      List.length_append, List.length_singleton, List.length_nil]
    dsimp only at hsums
    omega
  | join =>
    constructor
    · simpa [sum, Member.new, JobStatistics.zero] using hsub
    · simpa [sum, Member.new, JobStatistics.zero, JobStatistics.done] using hdone
  | make | surroundings | alert => exact ⟨hsub, hdone⟩
  | wake => exact ⟨(sum_wakeAll _ _ _ _).trans hsub, (sum_wakeAll _ _ _ _).trans hdone⟩

theorem Course.tallied {s : Saturation α σ} {workers : Nat}
    (h : Course obs (.new s workers) ds c) : c.Tallied ds := by
  induction h with
  | start =>
    constructor <;> simp [sum, Crew.new, Member.new, JobStatistics.zero, JobStatistics.done]
  | turn _ ht ih => exact tallied_turn ih ht

/-! ### The report -/

theorem jobTotals_act (h : Act s pc ds s' pc') : s'.desk.jobTotals = s.desk.jobTotals := by
  cases h with
  | perform h => rcases desk_of_does h with h | h <;> simp [h]
  | _ => rfl

theorem jobTotals_shift (h : Shift s ps ds s' ps') : s'.desk.jobTotals = s.desk.jobTotals := by
  cases h with
  | act h => exact jobTotals_act h
  | _ => rfl

theorem jobTotals_foldl (members : List Member) (s : Saturation α σ) :
    (members.foldl (fun s m => s.collect m.rules m.jobs) s).desk.jobTotals.submitted =
        s.desk.jobTotals.submitted + (members.map (·.jobs.submitted)).sum ∧
      (members.foldl (fun s m => s.collect m.rules m.jobs) s).desk.jobTotals.done =
        s.desk.jobTotals.done + (members.map (·.jobs.done)).sum := by
  induction members generalizing s with
  | nil => exact ⟨rfl, rfl⟩
  | cons m members ih =>
    obtain ⟨hsub, hdone⟩ := ih (s.collect m.rules m.jobs)
    rw [List.foldl_cons, hsub, hdone, List.map_cons, List.sum_cons, List.map_cons, List.sum_cons]
    simp only [Saturation.collect, JobStatistics.add, JobStatistics.done]
    omega

/-- The report of a crew says how many submissions there were and how many of them are done. -/
theorem Course.jobTotals {workers : Nat} (hs : s.Fresh) (h : Course obs (.new s workers) ds c) :
    c.disband.desk.jobTotals.submitted = (submissions ds).length ∧
      c.disband.desk.jobTotals.done = (counts ds).length := by
  obtain ⟨threshold, timed, hd⟩ := hs.desk
  have hzero : c.shared.desk.jobTotals = .zero :=
    h.invariant (P := fun _ s _ => s.desk.jobTotals = .zero) (by rw [Crew.new, hd]; rfl)
      fun _ _ _ _ _ _ ih h => (jobTotals_shift h).trans ih
  obtain ⟨hsub, hdone⟩ := h.tallied
  obtain ⟨hsub', hdone'⟩ := jobTotals_foldl c.members.toList c.shared
  rw [disband, ← Array.foldl_toList, hsub', hdone', hzero, ← hsub, ← hdone]
  exact ⟨Nat.zero_add _, Nat.zero_add _⟩

end Crew

end Subsumption
