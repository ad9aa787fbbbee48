import Subsumption.Proofs.Crew.Completion

/-! Every submission is in one place: in the queue, in a worker's hands, in progress, or counted.
Jobs are completed in the order in which they were handed to the rule engine, and when they are,
their roots have contexts. -/
namespace Subsumption

variable {α σ : Type} {s s' : Saturation α σ} {ps ps' rest : Multiset PC} {pc pc' q : PC}
  {ds ds' : List Deed} {root : NodeId} {id output : ContextId} {job : JobId}

/-! ### Where jobs are -/

namespace Deed

def submissions : Deed → List JobId
  | .submitted job => [job]
  | _ => []

def counts : Deed → List JobId
  | .counted job => [job]
  | _ => []

end Deed

/-- The jobs submitted, once for each submission. -/
def submissions (ds : List Deed) : List JobId := ds.flatMap Deed.submissions

/-- The jobs counted as done before or as processed, once for each submission. -/
def counts (ds : List Deed) : List JobId := ds.flatMap Deed.counts

@[simp] theorem submissions_nil : submissions [] = [] := rfl

@[simp] theorem counts_nil : counts [] = [] := rfl

@[simp] theorem submissions_cons (d : Deed) (ds : List Deed) :
    submissions (d :: ds) = d.submissions ++ submissions ds := rfl

@[simp] theorem counts_cons (d : Deed) (ds : List Deed) :
    counts (d :: ds) = d.counts ++ counts ds := rfl

@[simp] theorem submissions_append (ds ds' : List Deed) :
    submissions (ds ++ ds') = submissions ds ++ submissions ds' := List.flatMap_append

@[simp] theorem counts_append (ds ds' : List Deed) : counts (ds ++ ds') = counts ds ++ counts ds' :=
  List.flatMap_append

@[simp] theorem submissions_notices : submissions (s.notices job) = [] := by
  unfold Saturation.notices
  split <;> rfl

@[simp] theorem counts_notices : counts (s.notices job) = [] := by
  unfold Saturation.notices
  split <;> rfl

namespace PC

/-- The job that the worker has in hand, not counted yet. -/
def hands : PC → List JobId
  | .locateJob job | .checkSaturated job _ | .startJob job | .enterJob job => [job]
  | .locateOutput _ job => [job]
  | _ => []

/-- The job in progress that the worker is going to count as submitted. -/
def entering : PC → Nat
  | .countJob _ => 1
  | _ => 0

/-- How many jobs in progress the worker has claimed and not yet taken. -/
def taking : PC → Nat
  | .takeInProgress _ => 1
  | _ => 0

/-- How many jobs the worker is going to declare processed. -/
def raisingJobs : PC → Option Nat
  | .raiseJobs _ v _ => some v
  | _ => none

theorem hands_free (h : pc.isFree = true) : pc.hands = [] := by
  cases pc <;> first | rfl | cases h

theorem entering_free (h : pc.isFree = true) : pc.entering = 0 := by
  cases pc <;> first | rfl | cases h

theorem taking_free (h : pc.isFree = true) : pc.taking = 0 := by
  cases pc <;> first | rfl | cases h

theorem raisingJobs_free (h : pc.isFree = true) : pc.raisingJobs = none := by
  cases pc <;> first | rfl | cases h

end PC

/-- The root of the job has a context. -/
def Saturation.Located (s : Saturation α σ) (job : JobId) : Prop :=
  ∃ id, s.work.state.find? (s.rootOf job) = some id

theorem job?_setOutput {j : Job α} (hj : s.job? job = some j) (x : JobId) :
    ({ s with jobs := s.jobs.setIfInBounds job.index { j with output := some output } } :
      Saturation α σ).job? x =
      if x = job then some { j with output := some output } else s.job? x := by
  obtain ⟨hlt, _⟩ := Array.getElem?_eq_some_iff.mp hj
  simp only [Saturation.job?]
  by_cases hx : x = job
  · simp [hx, hlt]
  · have hne : job.index ≠ x.index := fun h => hx (by cases x; cases job; exact congrArg _ h.symm)
    simp [hx, hne]

/-- The roots of jobs stay the same. -/
theorem rootOf_act (h : Act s pc ds s' pc') (job : JobId) : s'.rootOf job = s.rootOf job := by
  have hset : ∀ {x j output}, s.job? x = some j →
      ({ s with jobs := s.jobs.setIfInBounds x.index { j with output := some output } } :
        Saturation α σ).rootOf job = s.rootOf job := by
    intro x j output hj
    rw [Saturation.rootOf, Saturation.rootOf, job?_setOutput hj]
    split
    · rename_i he
      rw [he, hj]
      rfl
    · rfl
  cases h with
  | perform h => cases h <;> rfl
  | giveOutput hj | giveAtOnce hj => exact hset hj
  | _ => rfl

theorem rootOf_make (root : NodeId) (payload : α) (h : job.index < s.jobs.size) :
    ({ s with jobs := s.jobs.push (.new root payload) } : Saturation α σ).rootOf job =
      s.rootOf job := by
  simp [Saturation.rootOf, Saturation.job?, Array.getElem?_push_lt h, h]

theorem Saturation.Located.act (h : s.Located job) (hw : s.work.Coherent)
    (ha : Act s pc ds s' pc') : s'.Located job := by
  obtain ⟨id, hid⟩ := h
  exact ⟨id, rootOf_act ha job ▸ (grows_act hw ha).find? hw hid⟩

/-- A step hands jobs on. -/
theorem hands_act (h : Act s pc ds s' pc')
    (hl : ∀ b job, pc = .locateOutput b job → s.Located job) :
    submissions ds = [] ∧
      (s'.desk.toDo ++ pc'.hands ++ s'.desk.inProgress ++ counts ds).Perm
        (s.desk.toDo ++ pc.hands ++ s.desk.inProgress) := by
  cases h with
  | perform h =>
    rcases desk_of_does h with h | h <;> simp [h, PC.hands]
  | noOutput h =>
    obtain ⟨id, hid⟩ := hl _ _ rfl
    cases h.symm.trans hid
  | free h h' => simp [PC.hands_free h, PC.hands_free h']
  | takeInProgress h => simp [PC.hands, h]
  | takeJob h => simp [PC.hands, h]
  | locateOutput | doneBefore | enterJob =>
    simpa [PC.hands, Deed.submissions, Deed.counts] using
      List.Perm.append_left _ (List.perm_append_singleton _ _)
  | _ => simp [PC.hands, Deed.submissions, Deed.counts]

/-! ### Jobs in progress -/

/-- The worker is going to ask for the root of the job. -/
def PC.AsksFor (s : Saturation α σ) (job : JobId) (pc : PC) : Prop :=
  pc = .countJob job ∨ ∃ ks, .locate (s.rootOf job) ks ∈ pc.agenda

theorem inProgress_act (h : Act s pc ds s' pc') (hne : pc.taking = 0 ∨ s.desk.inProgress ≠ []) :
    s'.desk.inProgress.length + s'.desk.counters.jobsFinished + s.desk.counters.jobsSubmitted +
        pc.entering + pc.taking =
      s.desk.inProgress.length + s.desk.counters.jobsFinished + s'.desk.counters.jobsSubmitted +
        pc'.entering + pc'.taking := by
  cases h with
  | perform h => rcases desk_of_does h with h | h <;> simp [h, PC.entering, PC.taking]
  | noneInProgress h => simp [PC.taking, h] at hne
  | takeInProgress h => simp [h, PC.entering, PC.taking]; omega
  | free h h' =>
    simp [PC.entering_free h, PC.entering_free h', PC.taking_free h, PC.taking_free h']
  | _ => simp [PC.entering, PC.taking] <;> omega

/-- Whoever asks for a root gets it located. -/
theorem asks_act (hw : s.work.Coherent) (h : Act s pc ds s' pc') (ha : pc.AsksFor s job) :
    s'.Located job ∨ pc'.AsksFor s' job := by
  have hroot := rootOf_act h job
  rcases ha with rfl | ⟨ks, hks⟩
  · cases h with
    | countJob => exact Or.inr (Or.inr ⟨[], List.mem_singleton_self _⟩)
    | free h => cases h
  · cases h with
    | @perform hand a as s' more h =>
      rcases List.mem_cons.mp hks with rfl | hks
      · left
        cases h with
        | found h => exact ⟨_, h⟩
        | opened h =>
          exact ⟨_, ((Workspace.stands_insertContext hw h).mpr (Or.inr ⟨rfl, rfl, rfl⟩)).1⟩
      · right
        right
        exact ⟨ks, List.mem_append_right _ (hroot ▸ hks)⟩
    | free h => simp [h] at hks
    | _ => cases hks

/-- A job in progress was so before, or the worker is going to ask for its root. -/
theorem mem_inProgress_act (h : Act s pc ds s' pc') (hj : job ∈ s'.desk.inProgress) :
    job ∈ s.desk.inProgress ∨ pc' = .countJob job := by
  cases h with
  | perform h => rcases desk_of_does h with h | h <;> exact Or.inl (by simpa [h] using hj)
  | takeInProgress h => exact Or.inl (h ▸ List.mem_cons_of_mem _ hj)
  | enterJob =>
    rcases List.mem_append.mp hj with hj | hj
    · exact Or.inl hj
    · rw [List.mem_singleton.mp hj]
      exact Or.inr rfl
  | _ => exact Or.inl hj

theorem jobQueueing_act (h : Act s pc ds s' pc') (hs : pc.Sees s.desk.counters)
    (hne : pc.taking = 0 ∨ s.desk.inProgress ≠ []) : Finds s pc s' pc' ∨
      Queueing PC.taking PC.raisingJobs s.desk.inProgress s'.desk.inProgress
        s.desk.counters.jobsProcessed s'.desk.counters.jobsProcessed
        s.desk.counters.jobsFinished s'.desk.counters.jobsFinished pc pc' := by
  cases h with
  | perform h =>
    refine Or.inr (.other ?_ ?_ (by simp [PC.raisingJobs]) ?_) <;>
      rcases desk_of_does h with h | h <;> simp [h, PC.taking]
  | noneInProgress h => simp [PC.taking, h] at hne
  | takeInProgress h => exact Or.inr (.taken h rfl (by simp [PC.raisingJobs]) rfl rfl)
  | noneInside h => exact Or.inl (finds_act h hs)
  | free h h' =>
    exact Or.inr (.other (List.prefix_refl _) (by simp [PC.taking_free h, PC.taking_free h'])
      (by simp [PC.raisingJobs_free h']) (Or.inl rfl))
  | _ =>
    refine Or.inr (.other ?_ ?_ (by simp [PC.raisingJobs]) ?_) <;> simp [PC.taking, PC.raisingJobs]

/-- A job that the worker comes to be going to complete was first in progress. -/
theorem locateOutput_act {b : Bool} (h : Act s pc ds s' pc') (hpc : pc' = .locateOutput b job) :
    ∃ as, s.desk.inProgress = job :: as ∧ pc.taking ≠ 0 := by
  cases h with
  | takeInProgress h =>
    cases hpc
    exact ⟨_, h, Nat.one_ne_zero⟩
  | free _ h' => simp [hpc, PC.isFree] at h'
  | _ => cases hpc

/-! ### All of them together -/

structure Accounted (ds : List Deed) (s : Saturation α σ) (ps : Multiset PC) : Prop where
  places : (submissions ds : Multiset JobId) = (s.desk.toDo : Multiset JobId) +
    ps.bind (fun q => (q.hands : Multiset JobId)) + (s.desk.inProgress : Multiset JobId) +
      (counts ds : Multiset JobId)
  made : ∀ job ∈ submissions ds, job.index < s.jobs.size
  queued : s.desk.inProgress.length + s.desk.counters.jobsFinished =
    s.desk.counters.jobsSubmitted + total PC.entering ps + total PC.taking ps
  asked : ∀ job ∈ s.desk.inProgress, s.Located job ∨ ∃ q ∈ ps, q.AsksFor s job
  located : ∀ b job, .locateOutput b job ∈ ps → s.Located job
  ranking : ∃ j, Ranking PC.taking PC.raisingJobs s.Located s.desk.inProgress
    s.desk.counters.jobsProcessed s.desk.counters.jobsFinished j ps

/-- There is a job in progress for everyone who has claimed one. -/
theorem Accounted.inProgress_ne_nil (ha : Accounted ds s ps) (hk : s.desk.counters.Ordered)
    (hq : q ∈ ps) (ht : q.taking ≠ 0) : s.desk.inProgress ≠ [] := by
  have htaking : q.taking ≤ total PC.taking ps := le_total hq
  have := ha.queued
  have := hk.jobsProcessed
  have := hk.jobsFinished
  intro hnil
  simp only [hnil, List.length_nil] at *
  omega

theorem size_act (h : Act s pc ds s' pc') : s'.jobs.size = s.jobs.size := by
  cases h with
  | perform h => cases h <;> rfl
  | giveOutput | giveAtOnce => exact Array.size_setIfInBounds
  | _ => rfl

theorem PC.AsksFor.not_outside (h : q.AsksFor s job) : q.inPass = true := by
  rcases h with rfl | ⟨ks, h⟩
  · rfl
  · cases q <;> first | rfl | cases h

theorem raisingJobs_le {k : Counters} {v : Nat} (hs : q.Sees k) (hv : v ∈ q.raisingJobs) :
    v ≤ k.jobsSubmitted := by
  cases q <;> cases hv
  exact hs.2.1

/-- If no worker is inside, the roots of all jobs in progress have contexts. -/
theorem ranking_located (he : Seen s ps) (hout : ∀ q ∈ ps, q.inPass = false)
    (hqueued : s.desk.inProgress.length + s.desk.counters.jobsFinished =
      s.desk.counters.jobsSubmitted + total PC.entering ps + total PC.taking ps)
    (hasked : ∀ job ∈ s.desk.inProgress, s.Located job ∨ ∃ q ∈ ps, q.AsksFor s job) :
    Ranking PC.taking PC.raisingJobs s.Located s.desk.inProgress
      s.desk.counters.jobsProcessed s.desk.counters.jobsFinished s.desk.inProgress.length ps := by
  have hprocessed := he.ordered.jobsProcessed
  refine .all ?_ (by omega) ?_
  · intro job hj
    refine (hasked job hj).resolve_right ?_
    rintro ⟨q, hq, h⟩
    have := hout q hq
    rw [h.not_outside] at this
    cases this
  · intro q hq v hv
    have := raisingJobs_le (he.sees q hq) hv
    omega

theorem places_act (ha : Accounted ds s (pc ::ₘ rest)) (h : Act s pc ds' s' pc') :
    (submissions (ds' ++ ds) : Multiset JobId) = (s'.desk.toDo : Multiset JobId) +
      (pc' ::ₘ rest).bind (fun q => (q.hands : Multiset JobId)) +
        (s'.desk.inProgress : Multiset JobId) + (counts (ds' ++ ds) : Multiset JobId) := by
  obtain ⟨hsub, hperm⟩ := hands_act h fun b job hpc =>
    ha.located b job (hpc ▸ Multiset.mem_cons_self _ _)
  have hsame := Multiset.coe_eq_coe.mpr hperm
  have hplaces := ha.places
  simp only [← Multiset.coe_add] at hsame
  rw [Multiset.cons_bind] at hplaces ⊢
  rw [submissions_append, hsub, List.nil_append, hplaces, counts_append, ← Multiset.coe_add]
  generalize rest.bind (fun q => (q.hands : Multiset JobId)) = others
  calc _ = ((s.desk.toDo : Multiset JobId) + pc.hands + s.desk.inProgress) +
        (others + counts ds) := by ac_rfl
    _ = ((s'.desk.toDo : Multiset JobId) + pc'.hands + s'.desk.inProgress + counts ds') +
        (others + counts ds) := by rw [hsame]
    _ = _ := by ac_rfl

theorem accounted_act (ho : Orderly s (pc ::ₘ rest)) (ha : Accounted ds s (pc ::ₘ rest))
    (h : Act s pc ds' s' pc') : Accounted (ds' ++ ds) s' (pc' ::ₘ rest) := by
  have hself : pc ∈ pc ::ₘ rest := Multiset.mem_cons_self _ _
  have hw := ho.enrolled.coherent
  have hk := ho.enrolled.seen.ordered
  have htaking : pc.taking = 0 ∨ s.desk.inProgress ≠ [] :=
    (Classical.em _).imp_right (ha.inProgress_ne_nil hk hself)
  have hsub := (hands_act h fun b job hpc =>
    ha.located b job (hpc ▸ Multiset.mem_cons_self _ _)).1
  obtain ⟨j, hj⟩ := ha.ranking
  have hqueued' : s'.desk.inProgress.length + s'.desk.counters.jobsFinished =
      s'.desk.counters.jobsSubmitted + total PC.entering (pc' ::ₘ rest) +
        total PC.taking (pc' ::ₘ rest) := by
    have hqueued := ha.queued
    have := inProgress_act h htaking
    simp only [total_cons] at hqueued ⊢
    omega
  have hasked' : ∀ job ∈ s'.desk.inProgress,
      s'.Located job ∨ ∃ q ∈ pc' ::ₘ rest, q.AsksFor s' job := by
    intro job hjob
    rcases mem_inProgress_act h hjob with hjob | hpc
    · rcases ha.asked job hjob with hl | ⟨q, hq, hasks⟩
      · exact Or.inl (hl.act hw h)
      · rcases Multiset.mem_cons.mp hq with rfl | hq
        · exact (asks_act hw h hasks).imp_right fun h => ⟨_, Multiset.mem_cons_self _ _, h⟩
        · refine Or.inr ⟨q, Multiset.mem_cons_of_mem hq, ?_⟩
          rwa [PC.AsksFor, rootOf_act h]
    · exact Or.inr ⟨pc', Multiset.mem_cons_self _ _, Or.inl hpc⟩
  refine ⟨places_act ha h, ?_, hqueued', hasked', ?_, ?_⟩
  · rw [submissions_append, hsub, List.nil_append, size_act h]
    exact ha.made
  · intro b job hq
    rcases Multiset.mem_cons.mp hq with hpc | hq
    · obtain ⟨as, hp, hc⟩ := locateOutput_act h hpc.symm
      rw [hp] at hj
      exact (hj.ready hk.jobsFinished hself hc).act hw h
    · exact (ha.located b job (Multiset.mem_cons_of_mem hq)).act hw h
  · rcases jobQueueing_act h (ho.enrolled.seen.sees pc hself) htaking with hf | hq
    · have hseen := seen_shift ho.enrolled.seen (.act h)
      obtain ⟨hout, _, rfl, rfl⟩ := hf
      exact ⟨_, ranking_located hseen (fun q hq => hseen.passes.nobody hout hq) hqueued' hasked'⟩
    · exact (hj.step hk.jobsFinished hq).imp fun _ hj => hj.mono fun _ _ hl => hl.act hw h

/-- A job that is made does not take the place of another. -/
theorem Saturation.Located.make (h : s.Located job) (hj : job.index < s.jobs.size) (root : NodeId)
    (payload : α) :
    ({ s with jobs := s.jobs.push (.new root payload) } : Saturation α σ).Located job := by
  rwa [Saturation.Located, rootOf_make root payload hj]

theorem Accounted.made_of_mem (ha : Accounted ds s ps) (hj : job ∈ s.desk.inProgress) :
    job.index < s.jobs.size := by
  refine ha.made job ?_
  have : job ∈ (submissions ds : Multiset JobId) := by
    rw [ha.places]
    simp [hj]
  exact Multiset.mem_coe.mp this

theorem Accounted.made_of_hands (ha : Accounted ds s ps) (hq : q ∈ ps) (hj : job ∈ q.hands) :
    job.index < s.jobs.size := by
  refine ha.made job ?_
  have : job ∈ (submissions ds : Multiset JobId) := by
    rw [ha.places]
    have : job ∈ ps.bind fun q => (q.hands : Multiset JobId) :=
      Multiset.mem_bind.mpr ⟨q, hq, Multiset.mem_coe.mpr hj⟩
    simp only [Multiset.mem_add]
    exact Or.inl (Or.inl (Or.inr this))
  exact Multiset.mem_coe.mp this

theorem accounted_shift (ho : Orderly s ps) (ha : Accounted ds s ps) (h : Shift s ps ds' s' ps') :
    Accounted (ds' ++ ds) s' ps' := by
  cases h with
  | act h => exact accounted_act ho ha h
  | @submit _ job hj =>
    refine ⟨?_, ?_, ha.queued, ha.asked, ha.located, ha.ranking⟩
    · have hqueue : ((s.desk.toDo ++ [job] : List JobId) : Multiset JobId) =
          {job} + (s.desk.toDo : Multiset JobId) := by
        rw [← Multiset.coe_add, add_comm]
        rfl
      change ((job :: submissions ds : List JobId) : Multiset JobId) =
        ((s.desk.toDo ++ [job] : List JobId) : Multiset JobId) + _ + _ +
          (counts ds : Multiset JobId)
      rw [hqueue, ← Multiset.cons_coe, ← Multiset.singleton_add, ha.places]
      simp only [add_assoc]
      rfl
    · intro x hx
      rcases List.mem_cons.mp hx with rfl | hx
      · exact hj
      · exact ha.made x hx
  | join =>
    refine ⟨?_, ha.made, ?_, ?_, ?_, ?_⟩
    · simpa [PC.hands] using ha.places
    · simpa [PC.entering, PC.taking] using ha.queued
    · exact fun job hj => (ha.asked job hj).imp_right fun ⟨q, hq, h⟩ =>
        ⟨q, Multiset.mem_cons_of_mem hq, h⟩
    · intro b job hq
      rcases Multiset.mem_cons.mp hq with hq | hq
      · cases hq
      · exact ha.located b job hq
    · exact ha.ranking.imp fun _ h => h.join rfl rfl
  | make root payload =>
    refine ⟨ha.places, ?_, ha.queued, ?_, ?_, ?_⟩
    · intro job hj
      rw [Array.size_push]
      exact Nat.lt_succ_of_lt (ha.made job hj)
    · intro job hj
      have hmade := ha.made_of_mem hj
      rcases ha.asked job hj with hl | ⟨q, hq, h⟩
      · exact Or.inl (hl.make hmade root payload)
      · refine Or.inr ⟨q, hq, ?_⟩
        rwa [PC.AsksFor, rootOf_make root payload hmade]
    · intro b job hq
      have hmade := ha.made_of_hands hq (List.mem_singleton_self job)
      exact (ha.located b job hq).make hmade root payload
    · exact ha.ranking.imp fun _ h => h.mono fun job hj hl =>
        hl.make (ha.made_of_mem hj) root payload
  | surroundings => exact ⟨ha.places, ha.made, ha.queued, ha.asked, ha.located, ha.ranking⟩

theorem accounted_new (hs : s.Fresh) (workers : Nat) :
    Accounted [] s (.replicate workers .startPass) := by
  have hidle : ∀ q ∈ Multiset.replicate workers PC.startPass, q = .startPass := fun q hq =>
    Multiset.eq_of_mem_replicate hq
  have hzero : ∀ f : PC → Nat, f .startPass = 0 → total f (.replicate workers .startPass) = 0 :=
    fun f hf => total_eq_zero fun q hq => hidle q hq ▸ hf
  have hhands : (Multiset.replicate workers PC.startPass).bind
      (fun q => (q.hands : Multiset JobId)) = 0 := by
    refine Multiset.eq_zero_of_forall_notMem fun x hx => ?_
    obtain ⟨q, hq, hx⟩ := Multiset.mem_bind.mp hx
    rw [hidle q hq] at hx
    cases hx
  obtain ⟨threshold, timed, hd⟩ := hs.desk
  have hp : s.desk.inProgress = [] := by
    rw [hd]
    rfl
  refine ⟨?_, fun job h => (by cases h), ?_, ?_, ?_, 0, ?_⟩
  · rw [hhands, hd]
    rfl
  · rw [hd, hzero _ rfl, hzero _ rfl]
    rfl
  · intro job hj
    rw [hp] at hj
    cases hj
  · intro b job hq
    cases hidle _ hq
  · refine ⟨fun x h => (by cases h), Nat.zero_le _, ?_, ?_⟩
    · rw [hd, hzero _ rfl]
      exact Nat.le_refl _
    · intro q hq v hv
      rw [hidle q hq] at hv
      cases hv

end Subsumption
