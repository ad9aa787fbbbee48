import Subsumption.Proofs.Crew.Notices

/-! How a run ends. What has been created or submitted is declared processed after the last pass,
unless that was interrupted, and whatever is declared processed is finished by some worker. -/
namespace Subsumption

variable {α σ : Type} {s s' : Saturation α σ} {ps ps' rest : Multiset PC} {pc pc' q : PC}
  {ds ds' : List Deed} {k k' : Counters} {n : NodeId} {id o : ContextId} {job : JobId}

namespace PC

/-- Whether the worker, having ended the latest pass, is going to declare everything processed. -/
def Reports (k : Counters) : PC → Prop
  | .loadInterrupt f | .compareInterrupt f _ | .loadCreated f | .loadSubmitted f _ =>
    k.workersFinished ≤ f
  | .comparePasses f _ _ => k.workersFinished ≤ f
  | .raiseJobs c j _ => k.contextsCreated ≤ c ∧ k.jobsSubmitted ≤ j
  | .raiseContexts c _ => k.contextsCreated ≤ c ∧ k.jobsSubmitted ≤ k.jobsProcessed
  | _ => False

/-- Whether the worker goes on marking until no context is left to be marked. -/
def marksOn : PC → Bool
  | .loadContexts _ | .compareContexts _ _ | .claimContext _ _ | .takeUnsaturated _ => true
  | .mark _ _ => true
  | _ => false

/-- Whether the worker goes on completing until no job is left to be completed. -/
def completesOn : PC → Bool
  | .raiseContexts _ _ | .loadJobs _ | .compareJobs _ _ | .claimJob _ _ => true
  | .takeInProgress _ | .locateOutput _ _ | .giveOutput _ _ _ | .notify _ _ => true
  | pc => pc.marksOn

theorem reports_free (h : pc.isFree = true) : ¬ pc.Reports k := by
  cases pc <;> first | exact id | cases h

theorem marksOn_free (h : pc.isFree = true) : pc.marksOn = false := by
  cases pc <;> first | rfl | cases h

theorem completesOn_free (h : pc.isFree = true) : pc.completesOn = false := by
  cases pc <;> first | rfl | cases h

end PC

/-! ### Declaring processed -/

/-- If nobody is inside and none was interrupted, everything is processed, or a worker is going to
say so. -/
def Reported (s : Saturation α σ) (ps : Multiset PC) : Prop :=
  s.desk.counters.workersStarted ≤ s.desk.counters.workersFinished →
    s.desk.counters.lastInterrupt < s.desk.counters.workersStarted →
    (∃ q ∈ ps, q.Reports s.desk.counters) ∨
      s.desk.counters.contextsCreated ≤ s.desk.counters.contextsProcessed ∧
      s.desk.counters.jobsSubmitted ≤ s.desk.counters.jobsProcessed

/-- The counters as far as those who report look at them; processed ones may have grown. -/
structure Counters.Steady (k k' : Counters) : Prop where
  started : k'.workersStarted = k.workersStarted
  finished : k'.workersFinished = k.workersFinished
  interrupt : k'.lastInterrupt = k.lastInterrupt
  created : k'.contextsCreated = k.contextsCreated
  submitted : k'.jobsSubmitted = k.jobsSubmitted
  contextsProcessed : k.contextsProcessed ≤ k'.contextsProcessed
  jobsProcessed : k.jobsProcessed ≤ k'.jobsProcessed

/-- Outside a pass nothing else happens to the counters. -/
theorem steady_act (h : Act s pc ds s' pc') (hpc : pc.inPass = false) (hpc' : pc'.inPass = false) :
    s.desk.counters.Steady s'.desk.counters := by
  cases h with
  | free => constructor <;> simp
  | _ => first | cases hpc; done | cases hpc'; done | (constructor <;> simp <;> omega)

theorem reports_act (h : Act s pc ds s' pc') (hs : pc.Sees s.desk.counters)
    (hr : pc.Reports s.desk.counters)
    (hout : s.desk.counters.workersStarted ≤ s.desk.counters.workersFinished)
    (hi : s.desk.counters.lastInterrupt < s.desk.counters.workersStarted) :
    pc'.Reports s'.desk.counters ∨
      s'.desk.counters.contextsCreated ≤ s'.desk.counters.contextsProcessed ∧
      s'.desk.counters.jobsSubmitted ≤ s'.desk.counters.jobsProcessed := by
  cases h with
  | free h => exact absurd hr (PC.reports_free h)
  | _ => first | exact hr.elim | (simp [PC.Reports, PC.Sees] at hs hr ⊢ ; omega)

theorem PC.Reports.steady (h : q.Reports k) (hk : k.Steady k') : q.Reports k' := by
  obtain ⟨_, _, _, _, _, _, _⟩ := hk
  cases q <;> simp only [PC.Reports] at h ⊢ <;> omega

theorem endPass_act (h : Act s pc ds s' pc') (hpc : pc.inPass = true)
    (hpc' : pc'.inPass = false) : pc'.Reports s'.desk.counters := by
  cases h with
  | endPass => exact Nat.le_refl _
  | free h =>
    rw [PC.inPass_free h] at hpc
    cases hpc
  | _ => first | cases hpc; done | cases hpc'

theorem reported_act (hs : Seen s (pc ::ₘ rest)) (hr : Reported s (pc ::ₘ rest))
    (h : Act s pc ds s' pc') : Reported s' (pc' ::ₘ rest) := by
  have hself : pc ∈ pc ::ₘ rest := Multiset.mem_cons_self _ _
  have hs' := seen_shift hs (.act h)
  have hhere : pc'.Reports s'.desk.counters → ∃ q ∈ pc' ::ₘ rest, q.Reports s'.desk.counters :=
    fun h => ⟨pc', Multiset.mem_cons_self _ _, h⟩
  intro hout' hi'
  have hpc' := hs'.passes.nobody hout' (Multiset.mem_cons_self pc' rest)
  cases hpc : pc.inPass with
  | true => exact Or.inl (hhere (endPass_act h hpc hpc'))
  | false =>
    have hk := steady_act h hpc hpc'
    have hout : s.desk.counters.workersStarted ≤ s.desk.counters.workersFinished := by
      rw [← hk.started, ← hk.finished]
      exact hout'
    have hi : s.desk.counters.lastInterrupt < s.desk.counters.workersStarted := by
      rw [← hk.interrupt, ← hk.started]
      exact hi'
    rcases hr hout hi with ⟨q, hq, hqr⟩ | ⟨hc, hj⟩
    · rcases Multiset.mem_cons.mp hq with rfl | hq
      · exact (reports_act h (hs.sees q hself) hqr hout hi).imp_left hhere
      · exact Or.inl ⟨q, Multiset.mem_cons_of_mem hq, hqr.steady hk⟩
    · right
      have := hk.created
      have := hk.submitted
      have := hk.contextsProcessed
      have := hk.jobsProcessed
      omega

/-! ### Finishing -/

/-- As long as not all that is processed is finished, a worker goes on finishing. -/
structure Finishing (s : Saturation α σ) (ps : Multiset PC) : Prop where
  contexts : s.desk.counters.contextsFinished < s.desk.counters.contextsProcessed →
    ∃ q ∈ ps, q.marksOn = true
  jobs : s.desk.counters.jobsFinished < s.desk.counters.jobsProcessed →
    ∃ q ∈ ps, q.completesOn = true

theorem marksOn_act (h : Act s pc ds s' pc') (hs : pc.Sees s.desk.counters)
    (hlt : s'.desk.counters.contextsFinished < s'.desk.counters.contextsProcessed) :
    pc'.marksOn = true ∨ pc.marksOn = false ∧
      s.desk.counters.contextsFinished < s.desk.counters.contextsProcessed := by
  cases h with
  | perform h =>
    refine Or.inr ⟨rfl, ?_⟩
    rcases desk_of_does h with h | h <;> simpa [h] using hlt
  | free h => exact Or.inr ⟨PC.marksOn_free h, hlt⟩
  | _ => simp [PC.marksOn, PC.Sees] at hs hlt ⊢ <;> omega

theorem completesOn_act (h : Act s pc ds s' pc') (hs : pc.Sees s.desk.counters)
    (hne : pc.taking = 0 ∨ s.desk.inProgress ≠ [])
    (hlt : s'.desk.counters.jobsFinished < s'.desk.counters.jobsProcessed) :
    pc'.completesOn = true ∨ pc.completesOn = false ∧
      s.desk.counters.jobsFinished < s.desk.counters.jobsProcessed := by
  cases h with
  | perform h =>
    refine Or.inr ⟨rfl, ?_⟩
    rcases desk_of_does h with h | h <;> simpa [h] using hlt
  | free h => exact Or.inr ⟨PC.completesOn_free h, hlt⟩
  | noneInProgress h => simp [PC.taking, h] at hne
  | _ => simp [PC.completesOn, PC.marksOn, PC.Sees] at hs hlt ⊢ <;> omega

/-- What is said of the end of a run. -/
structure Ending (s : Saturation α σ) (ps : Multiset PC) : Prop where
  reported : Reported s ps
  finishing : Finishing s ps

theorem ending_shift (ho : Orderly s ps) (ha : Accounted ds s ps) (he : Ending s ps)
    (h : Shift s ps ds' s' ps') : Ending s' ps' := by
  have hseen := ho.enrolled.seen
  cases h with
  | @act pc _ _ pc' rest h =>
    have hself : pc ∈ pc ::ₘ rest := Multiset.mem_cons_self _ _
    have hsees := hseen.sees pc hself
    have htaking : pc.taking = 0 ∨ s.desk.inProgress ≠ [] :=
      (Classical.em _).imp_right (ha.inProgress_ne_nil hseen.ordered hself)
    refine ⟨reported_act hseen he.reported h, ?_, ?_⟩
    · intro hlt
      rcases marksOn_act h hsees hlt with hpc | ⟨hpc, hlt⟩
      · exact ⟨pc', Multiset.mem_cons_self _ _, hpc⟩
      · obtain ⟨q, hq, hm⟩ := he.finishing.contexts hlt
        rcases Multiset.mem_cons.mp hq with rfl | hq
        · rw [hpc] at hm
          cases hm
        · exact ⟨q, Multiset.mem_cons_of_mem hq, hm⟩
    · intro hlt
      rcases completesOn_act h hsees htaking hlt with hpc | ⟨hpc, hlt⟩
      · exact ⟨pc', Multiset.mem_cons_self _ _, hpc⟩
      · obtain ⟨q, hq, hm⟩ := he.finishing.jobs hlt
        rcases Multiset.mem_cons.mp hq with rfl | hq
        · rw [hpc] at hm
          cases hm
        · exact ⟨q, Multiset.mem_cons_of_mem hq, hm⟩
  | join =>
    refine ⟨?_, ?_, ?_⟩
    · exact fun hout hi => (he.reported hout hi).imp_left fun ⟨q, hq, h⟩ =>
        ⟨q, Multiset.mem_cons_of_mem hq, h⟩
    · exact fun hlt => (he.finishing.contexts hlt).imp fun q hq =>
        ⟨Multiset.mem_cons_of_mem hq.1, hq.2⟩
    · exact fun hlt => (he.finishing.jobs hlt).imp fun q hq =>
        ⟨Multiset.mem_cons_of_mem hq.1, hq.2⟩
  | submit | make | surroundings => exact ⟨he.reported, he.finishing.contexts, he.finishing.jobs⟩

theorem ending_new (hs : s.Fresh) (workers : Nat) : Ending s (.replicate workers .startPass) := by
  obtain ⟨threshold, timed, hd⟩ := hs.desk
  refine ⟨?_, ?_, ?_⟩
  · intro _ hi
    rw [hd] at hi
    cases hi
  · intro h
    rw [hd] at h
    cases h
  · intro h
    rw [hd] at h
    cases h

/-- All that holds at all times, with the record. -/
structure Recorded (ds : List Deed) (s : Saturation α σ) (ps : Multiset PC) : Prop where
  orderly : Orderly s ps
  accounted : Accounted ds s ps
  noticed : Noticed ds s ps
  ending : Ending s ps

theorem recorded_shift (h : Recorded ds s ps) (hs : Shift s ps ds' s' ps') :
    Recorded (ds' ++ ds) s' ps' :=
  ⟨orderly_shift h.orderly hs, accounted_shift h.orderly h.accounted hs,
    noticed_shift h.orderly h.accounted h.noticed hs,
    ending_shift h.orderly h.accounted h.ending hs⟩

theorem recorded_new (hs : s.Fresh) (workers : Nat) :
    Recorded [] s (.replicate workers .startPass) :=
  ⟨orderly_new hs workers, accounted_new hs workers, noticed_new hs workers, ending_new hs workers⟩

theorem Crew.Course.recorded {obs : JobObserver α σ} {workers : Nat} {c : Crew α σ} (hs : s.Fresh)
    (h : Course obs (.new s workers) ds c) : Recorded ds c.shared c.places :=
  h.invariant (places_new s workers ▸ recorded_new hs workers) fun _ _ _ _ _ _ => recorded_shift

/-! ### Runs without interruption -/

/-- The worker does not report that its pass was interrupted. -/
def PC.isCalm : PC → Bool
  | .loadStarted | .raiseInterrupt _ _ => false
  | _ => true

theorem PC.isCalm_free (h : pc.isFree = true) : pc.isCalm = true := by
  cases pc <;> first | rfl | cases h

/-- What holds in a run in which no worker has stopped and no job has been submitted, if so many
passes had been started when it began. -/
structure Undisturbed (started : Nat) (s : Saturation α σ) (ps : Multiset PC) : Prop where
  calm : ∀ q ∈ ps, q.isCalm = true
  interrupt : s.desk.counters.lastInterrupt ≤ started
  started : started < s.desk.counters.workersStarted ∨
    started ≤ s.desk.counters.workersStarted ∧ PC.startPass ∈ ps
  queue : s.desk.toDo = [] ∨ ∃ q ∈ ps, q ≠ .returned

theorem undisturbed_act (h : Act s pc ds s' pc') (hd : Deed.stopped ∉ ds)
    (hpc : pc.isCalm = true) : pc'.isCalm = true ∧
      s'.desk.counters.lastInterrupt = s.desk.counters.lastInterrupt ∧
      s.desk.counters.workersStarted ≤ s'.desk.counters.workersStarted ∧
      (pc = .startPass → s.desk.counters.workersStarted < s'.desk.counters.workersStarted) ∧
      (s.desk.toDo = [] → s'.desk.toDo = []) ∧ (pc' = .returned → s'.desk.toDo = []) := by
  cases h with
  | perform h => rcases desk_of_does h with h | h <;> simp [h, PC.isCalm]
  | free h h' =>
    refine ⟨PC.isCalm_free h', rfl, Nat.le_refl _, ?_, id, ?_⟩
    · rintro rfl
      cases h
    · rintro rfl
      cases h'
  | noJob h | takeJob h => simp [PC.isCalm, h]
  | _ => first | cases hpc; done | simp [PC.isCalm] at hd ⊢

theorem undisturbed_shift {started : Nat} (hu : Undisturbed started s ps)
    (h : Shift s ps ds s' ps') (hstop : Deed.stopped ∉ ds) (hsub : submissions ds = []) :
    Undisturbed started s' ps' := by
  cases h with
  | @act pc _ _ pc' rest h =>
    have hself : pc ∈ pc ::ₘ rest := Multiset.mem_cons_self _ _
    obtain ⟨hpc', hinterrupt, hstarted, hstart, hqueue, hreturned⟩ :=
      undisturbed_act h hstop (hu.calm pc hself)
    refine ⟨?_, hinterrupt ▸ hu.interrupt, ?_, ?_⟩
    · intro q hq
      rcases Multiset.mem_cons.mp hq with rfl | hq
      · exact hpc'
      · exact hu.calm q (Multiset.mem_cons_of_mem hq)
    · rcases hu.started with hlt | ⟨hle, hmem⟩
      · exact Or.inl (Nat.lt_of_lt_of_le hlt hstarted)
      · rcases Multiset.mem_cons.mp hmem with he | hmem
        · exact Or.inl (Nat.lt_of_le_of_lt hle (hstart he.symm))
        · exact Or.inr ⟨hle.trans hstarted, Multiset.mem_cons_of_mem hmem⟩
    · rcases hu.queue with hnil | ⟨q, hq, hne⟩
      · exact Or.inl (hqueue hnil)
      · rcases Multiset.mem_cons.mp hq with rfl | hq
        · by_cases hpc : pc' = .returned
          · exact Or.inl (hreturned hpc)
          · exact Or.inr ⟨pc', Multiset.mem_cons_self _ _, hpc⟩
        · exact Or.inr ⟨q, Multiset.mem_cons_of_mem hq, hne⟩
  | submit => cases hsub
  | join =>
    refine ⟨?_, hu.interrupt, ?_, ?_⟩
    · intro q hq
      rcases Multiset.mem_cons.mp hq with rfl | hq
      · rfl
      · exact hu.calm q hq
    · exact hu.started.imp_right fun h => ⟨h.1, Multiset.mem_cons_of_mem h.2⟩
    · exact hu.queue.imp_right fun ⟨q, hq, h⟩ => ⟨q, Multiset.mem_cons_of_mem hq, h⟩
  | make | surroundings => exact ⟨hu.calm, hu.interrupt, hu.started, hu.queue⟩

/-- Nothing is left to do: every context is saturated, every submission is counted, and every job
that was submitted has the context of its root and has been given notice of once. -/
structure Finished (ds : List Deed) (s : Saturation α σ) : Prop where
  toDo : s.desk.toDo = []
  inProgress : s.desk.inProgress = []
  unsaturated : s.work.state.unsaturated = []
  contexts : s.desk.counters.contextsFinished = s.desk.counters.contextsCreated ∧
    s.desk.counters.contextsProcessed = s.desk.counters.contextsCreated ∧
    s.desk.counters.contextsCreated = s.work.state.size
  jobs : s.desk.counters.jobsFinished = s.desk.counters.jobsSubmitted ∧
    s.desk.counters.jobsProcessed = s.desk.counters.jobsSubmitted
  saturated : ∀ n id c, s.work.Stands n id c → c.saturated = true
  counted : (counts ds).Perm (submissions ds)
  given : ∀ job ∈ submissions ds, ∃ o c, s.outputOf job = some o ∧
    s.work.Stands (s.rootOf job) o c ∧ (notices ds).count job = 1

section
variable (hall : ∀ q ∈ ps, q = .returned)
include hall

theorem bind_of_returned {β : Type} (f : PC → List β) (hf : f .returned = []) :
    ps.bind (fun q => (f q : Multiset β)) = 0 := by
  refine Multiset.eq_zero_of_forall_notMem fun x hx => ?_
  obtain ⟨q, hq, hx⟩ := Multiset.mem_bind.mp hx
  rw [hall q hq, hf] at hx
  cases hx

theorem total_of_returned (f : PC → Nat) (hf : f .returned = 0) : total f ps = 0 :=
  total_eq_zero fun q hq => hall q hq ▸ hf

/-- When all workers have returned, they have found all contexts and all jobs processed, and have
finished what they have found processed. -/
theorem caught_up {started : Nat} (hr : Recorded ds s ps) (hu : Undisturbed started s ps) :
    s.desk.counters.contextsCreated ≤ s.desk.counters.contextsProcessed ∧
      s.desk.counters.jobsSubmitted ≤ s.desk.counters.jobsProcessed ∧
      s.desk.counters.contextsProcessed ≤ s.desk.counters.contextsFinished ∧
      s.desk.counters.jobsProcessed ≤ s.desk.counters.jobsFinished := by
  have hout : s.desk.counters.workersStarted ≤ s.desk.counters.workersFinished := by
    have hpasses := hr.orderly.enrolled.seen.passes
    rw [PassesCounted, Multiset.countP_eq_zero.mpr fun q hq => by rw [hall q hq]; decide] at hpasses
    omega
  have hi : s.desk.counters.lastInterrupt < s.desk.counters.workersStarted := by
    rcases hu.started with hlt | ⟨_, hmem⟩
    · exact Nat.lt_of_le_of_lt hu.interrupt hlt
    · cases hall _ hmem
  obtain ⟨hcontexts, hjobs⟩ : s.desk.counters.contextsCreated ≤ s.desk.counters.contextsProcessed ∧
      s.desk.counters.jobsSubmitted ≤ s.desk.counters.jobsProcessed := by
    refine (hr.ending.reported hout hi).resolve_left ?_
    rintro ⟨q, hq, h⟩
    rw [hall q hq] at h
    exact h
  refine ⟨hcontexts, hjobs, ?_, ?_⟩
  · by_contra hlt
    obtain ⟨q, hq, h⟩ := hr.ending.finishing.contexts (Nat.lt_of_not_le hlt)
    rw [hall q hq] at h
    cases h
  · by_contra hlt
    obtain ⟨q, hq, h⟩ := hr.ending.finishing.jobs (Nat.lt_of_not_le hlt)
    rw [hall q hq] at h
    cases h

theorem finished_of_returned {started : Nat} (hr : Recorded ds s ps)
    (hu : Undisturbed started s ps) : Finished ds s := by
  have he := hr.orderly.enrolled
  obtain ⟨hcontexts, hjobs, hmarked, hcompleted⟩ := caught_up hall hr hu
  obtain ⟨_, hk₁, hk₂, hk₃, hk₄⟩ := he.seen.ordered
  have hcreated := he.created
  have hqueued := he.queued
  have hprogress := hr.accounted.queued
  rw [total_of_returned hall _ rfl] at hcreated
  rw [total_of_returned hall _ rfl, total_of_returned hall _ rfl] at hqueued hprogress
  have htoDo : s.desk.toDo = [] := by
    refine hu.queue.resolve_right ?_
    rintro ⟨q, hq, h⟩
    exact h (hall q hq)
  have hinProgress : s.desk.inProgress = [] := List.length_eq_zero_iff.mp (by omega)
  have hunsaturated : s.work.state.unsaturated = [] := List.length_eq_zero_iff.mp (by omega)
  have hcounted : (submissions ds : Multiset JobId) = counts ds := by
    rw [hr.accounted.places, htoDo, hinProgress, bind_of_returned hall PC.hands rfl]
    simp
  refine ⟨htoDo, hinProgress, hunsaturated, ⟨by omega, by omega, ?_⟩, ⟨by omega, by omega⟩, ?_,
    Multiset.coe_eq_coe.mp hcounted.symm, ?_⟩
  · rw [State.size, hcreated, Nat.add_zero]
  · intro n id c hst
    by_contra hs
    have hroll := (he.unmarked id).mpr ⟨n, c, hst, by simpa using hs⟩
    rw [roll, hunsaturated, bind_of_returned hall PC.due rfl] at hroll
    cases hroll
  · intro job hj
    have hj : job ∈ counts ds := Multiset.mem_coe.mp (hcounted ▸ Multiset.mem_coe.mpr hj)
    have hgiven : s.outputOf job ≠ none := by
      refine (hr.noticed.owed job hj).resolve_right ?_
      rintro ⟨q, hq, o, h⟩
      rw [hall q hq] at h
      cases h
    obtain ⟨o, ho⟩ := Option.ne_none_iff_exists'.mp hgiven
    have hfind := hr.noticed.right job o ho
    obtain ⟨c, hc, _⟩ := he.coherent.rooted _ o hfind
    refine ⟨o, c, ho, ⟨hfind, hc⟩, ?_⟩
    have htold := hr.noticed.told
    rw [bind_of_returned hall PC.notifying rfl, add_zero] at htold
    rw [← (Multiset.coe_eq_coe.mp htold).count_eq]
    exact List.count_eq_one_of_mem hr.noticed.once
      (mem_gifts.mpr ⟨o, (hr.noticed.given job o).mpr ho⟩)

end

end Subsumption
