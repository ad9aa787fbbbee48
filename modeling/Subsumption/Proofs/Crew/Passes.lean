import Mathlib.Data.Multiset.Count
import Subsumption.Proofs.Crew.Acts
import Subsumption.Proofs.Standing

/-! What the counters tell a worker: who is in a pass, whether a pass has left work behind, and what
the numbers that a worker has read still say when it uses them. -/
namespace Subsumption

variable {α σ : Type} {s s' : Saturation α σ} {ps ps' rest : Multiset PC} {pc pc' q : PC}
  {ds : List Deed}

/-! ### Who is inside -/

/-- Whether the worker is in a pass that is counted as started, and not as finished. -/
def PC.inPass : PC → Bool
  | .poll | .take | .pop _ | .derive _ _ | .act _ _ | .release _ | .recheck _ | .retake _ => true
  | .loadStarted | .raiseInterrupt _ _ | .endPass | .enterJob _ | .countJob _ => true
  | _ => false

theorem PC.inPass_free (h : pc.isFree = true) : pc.inPass = false := by
  cases pc <;> first | rfl | cases h

/-- The passes that are started and not finished are those that workers are in. -/
def PassesCounted (s : Saturation α σ) (ps : Multiset PC) : Prop :=
  s.desk.counters.workersStarted = s.desk.counters.workersFinished + ps.countP (·.inPass = true)

theorem desk_of_does {a : Action} {more : Agenda} (h : a.Does s s' more) :
    s'.desk = s.desk ∨ s'.desk = s.countCreated.desk := by
  cases h <;> first | exact Or.inl rfl | exact Or.inr rfl

theorem passes_act (h : Act s pc ds s' pc') :
    s'.desk.counters.workersStarted + s.desk.counters.workersFinished + pc.inPass.toNat =
      s.desk.counters.workersStarted + s'.desk.counters.workersFinished + pc'.inPass.toNat := by
  cases h with
  | perform h => rcases desk_of_does h with h | h <;> simp [h, PC.inPass]
  | free h h' => simp [PC.inPass_free h, PC.inPass_free h']
  | _ => simp [PC.inPass] <;> omega

theorem countP_inPass_cons (pc : PC) (ps : Multiset PC) :
    (pc ::ₘ ps).countP (·.inPass = true) = ps.countP (·.inPass = true) + pc.inPass.toNat := by
  rw [Multiset.countP_cons]
  cases pc.inPass <;> rfl

theorem passesCounted_shift (hp : PassesCounted s ps) (h : Shift s ps ds s' ps') :
    PassesCounted s' ps' := by
  cases h with
  | act h =>
    have := passes_act h
    simp only [PassesCounted, countP_inPass_cons] at hp ⊢
    omega
  | join =>
    rw [PassesCounted, countP_inPass_cons]
    exact hp
  | submit | make | surroundings => exact hp

/-- If as many passes are finished as are started, no worker is in one. -/
theorem PassesCounted.nobody (hp : PassesCounted s ps)
    (h : s.desk.counters.workersStarted ≤ s.desk.counters.workersFinished) (hq : q ∈ ps) :
    q.inPass = false := by
  have h0 : ps.countP (·.inPass = true) = 0 := by
    unfold PassesCounted at hp
    omega
  simpa using Multiset.countP_eq_zero.mp h0 q hq

/-! ### How the counters grow -/

/-- Counters only grow, and while nobody is in a pass, some of them do not change at all. -/
structure Counters.Grow (k k' : Counters) : Prop where
  started : k.workersStarted ≤ k'.workersStarted
  finished : k.workersFinished ≤ k'.workersFinished
  interrupt : k.lastInterrupt ≤ k'.lastInterrupt
  created : k.contextsCreated ≤ k'.contextsCreated
  contextsProcessed : k.contextsProcessed ≤ k'.contextsProcessed
  contextsFinished : k.contextsFinished ≤ k'.contextsFinished
  submitted : k.jobsSubmitted ≤ k'.jobsSubmitted
  jobsProcessed : k.jobsProcessed ≤ k'.jobsProcessed
  jobsFinished : k.jobsFinished ≤ k'.jobsFinished
  still : k.workersStarted ≤ k.workersFinished →
    k'.contextsCreated = k.contextsCreated ∧ k'.jobsSubmitted = k.jobsSubmitted ∧
      k'.lastInterrupt = k.lastInterrupt

theorem Counters.Grow.refl (k : Counters) : k.Grow k := by
  constructor <;> simp

theorem grow_act (h : Act s pc ds s' pc')
    (hp : pc.inPass = true → s.desk.counters.workersFinished < s.desk.counters.workersStarted) :
    s.desk.counters.Grow s'.desk.counters := by
  cases h with
  | perform h =>
    have := hp rfl
    rcases desk_of_does h with h | h
    · rw [h]
      exact .refl _
    · rw [h]
      constructor <;> simp
      omega
  | _ => (simp [PC.inPass] at hp ⊢; constructor) <;> simp <;> omega

theorem PassesCounted.grow (hp : PassesCounted s ps) (h : Shift s ps ds s' ps') :
    s.desk.counters.Grow s'.desk.counters := by
  cases h with
  | @act pc _ _ _ _ h =>
    refine grow_act h fun hin => ?_
    simp only [PassesCounted, countP_inPass_cons, hin, Bool.toNat_true] at hp
    omega
  | submit | join | make | surroundings => exact .refl _

/-! ### What has been read -/

/-- The numbers that a worker has read, and the counters. What it has read after its pass is up to
date as long as it is going to find that nobody is inside. -/
def PC.Sees (k : Counters) : PC → Prop
  | .raiseInterrupt v seen => v ≤ k.workersStarted ∧ ∀ x ∈ seen, x ≤ k.lastInterrupt
  | .loadInterrupt f => f ≤ k.workersFinished
  | .compareInterrupt f i => f ≤ k.workersFinished ∧ i ≤ k.lastInterrupt ∧
    (k.workersStarted ≤ f → k.lastInterrupt ≤ i)
  | .loadCreated f =>
    f ≤ k.workersFinished ∧ (k.workersStarted ≤ f → k.lastInterrupt < k.workersStarted)
  | .loadSubmitted f c => f ≤ k.workersFinished ∧ c ≤ k.contextsCreated ∧
    (k.workersStarted ≤ f → k.lastInterrupt < k.workersStarted ∧ k.contextsCreated ≤ c)
  | .comparePasses f c j => f ≤ k.workersFinished ∧ c ≤ k.contextsCreated ∧ j ≤ k.jobsSubmitted ∧
    (k.workersStarted ≤ f → k.lastInterrupt < k.workersStarted ∧ k.contextsCreated ≤ c ∧
      k.jobsSubmitted ≤ j)
  | .raiseJobs c j seen =>
    c ≤ k.contextsCreated ∧ j ≤ k.jobsSubmitted ∧ ∀ x ∈ seen, x ≤ k.jobsProcessed
  | .raiseContexts c seen => c ≤ k.contextsCreated ∧ ∀ x ∈ seen, x ≤ k.contextsProcessed
  | .compareContexts _ f => f ≤ k.contextsFinished
  | .claimContext _ f => f < k.contextsProcessed
  | .compareJobs _ f => f ≤ k.jobsFinished
  | .claimJob _ f => f < k.jobsProcessed
  | _ => True

theorem PC.Sees.grow {k k' : Counters} (h : k.Grow k') (hq : q.Sees k) : q.Sees k' := by
  have hseen : ∀ {a b : Nat} {seen : Option Nat}, a ≤ b → (∀ x ∈ seen, x ≤ a) → ∀ x ∈ seen, x ≤ b :=
    fun hab h x hx => (h x hx).trans hab
  have hstill := h.still
  have := h.started
  have := h.finished
  cases q with
  | raiseInterrupt => exact ⟨hq.1.trans h.started, hseen h.interrupt hq.2⟩
  | raiseJobs =>
    exact ⟨hq.1.trans h.created, hq.2.1.trans h.submitted, hseen h.jobsProcessed hq.2.2⟩
  | raiseContexts => exact ⟨hq.1.trans h.created, hseen h.contextsProcessed hq.2⟩
  | loadInterrupt => exact Nat.le_trans hq h.finished
  | compareContexts => exact Nat.le_trans hq h.contextsFinished
  | claimContext => exact Nat.lt_of_lt_of_le hq h.contextsProcessed
  | compareJobs => exact Nat.le_trans hq h.jobsFinished
  | claimJob => exact Nat.lt_of_lt_of_le hq h.jobsProcessed
  | compareInterrupt | loadCreated =>
    have := h.interrupt
    simp only [PC.Sees] at hq ⊢
    omega
  | loadSubmitted =>
    have := h.created
    simp only [PC.Sees] at hq ⊢
    omega
  | comparePasses =>
    have := h.created
    have := h.submitted
    simp only [PC.Sees] at hq ⊢
    omega
  | _ => trivial

theorem PC.sees_free {k : Counters} (h : pc.isFree = true) : pc.Sees k := by
  cases pc <;> first | cases h; done | trivial

/-- Nothing is processed before it is created, or finished before it is processed. -/
@[mk_iff]
structure Counters.Ordered (k : Counters) : Prop where
  interrupt : k.lastInterrupt ≤ k.workersStarted
  contextsProcessed : k.contextsProcessed ≤ k.contextsCreated
  contextsFinished : k.contextsFinished ≤ k.contextsProcessed
  jobsProcessed : k.jobsProcessed ≤ k.jobsSubmitted
  jobsFinished : k.jobsFinished ≤ k.jobsProcessed

theorem sees_act (h : Act s pc ds s' pc') (hk : s.desk.counters.Ordered)
    (hs : pc.Sees s.desk.counters) :
    s'.desk.counters.Ordered ∧ pc'.Sees s'.desk.counters := by
  rw [Counters.ordered_iff] at hk ⊢
  cases h with
  | perform h =>
    refine ⟨?_, trivial⟩
    rcases desk_of_does h with h | h <;> (simp [h]; omega)
  | free h h' => exact ⟨hk, PC.sees_free h'⟩
  | _ =>
    simp [PC.Sees] at hs ⊢
    omega

/-- All that workers have read is seen so. -/
structure Seen (s : Saturation α σ) (ps : Multiset PC) : Prop where
  passes : PassesCounted s ps
  ordered : s.desk.counters.Ordered
  sees : ∀ q ∈ ps, q.Sees s.desk.counters

theorem seen_shift (hs : Seen s ps) (h : Shift s ps ds s' ps') : Seen s' ps' := by
  have hp := passesCounted_shift hs.passes h
  have hg := hs.passes.grow h
  cases h with
  | act h =>
    obtain ⟨ho, hpc⟩ := sees_act h hs.ordered (hs.sees _ (Multiset.mem_cons_self _ _))
    refine ⟨hp, ho, ?_⟩
    intro q hq
    rcases Multiset.mem_cons.mp hq with rfl | hq
    · exact hpc
    · exact (hs.sees q (Multiset.mem_cons_of_mem hq)).grow hg
  | join =>
    refine ⟨hp, hs.ordered, ?_⟩
    intro q hq
    rcases Multiset.mem_cons.mp hq with rfl | hq
    · trivial
    · exact hs.sees q hq
  | submit | make | surroundings => exact ⟨hp, hs.ordered, hs.sees⟩

theorem seen_of_new {threshold : Nat} {timed : Bool} (hd : s.desk = .new threshold timed)
    (workers : Nat) : Seen s (.replicate workers .startPass) := by
  have hidle : ∀ q ∈ Multiset.replicate workers PC.startPass, q = .startPass := fun q hq =>
    Multiset.eq_of_mem_replicate hq
  refine ⟨?_, ?_, fun q hq => hidle q hq ▸ trivial⟩
  · rw [PassesCounted, Multiset.countP_eq_zero.mpr fun q hq => by rw [hidle q hq]; decide, hd]
    rfl
  · rw [hd]
    constructor <;> exact Nat.le_refl _

theorem seen_new (hs : s.Fresh) (workers : Nat) : Seen s (.replicate workers .startPass) := by
  obtain ⟨threshold, timed, hd⟩ := hs.desk
  exact seen_of_new hd workers

/-! ### Who is left to look -/

/-- Whether the worker is going to look whether a context waits, or to let it be known, for all
passes started so far, that it does not. -/
def PC.Watches (k : Counters) : PC → Prop
  | .poll | .take | .pop _ | .derive _ _ | .act _ _ | .release _ | .recheck _ | .retake _ => True
  | .loadStarted | .enterJob _ | .countJob _ => True
  | .raiseInterrupt v _ => k.workersStarted ≤ v
  | _ => False

/-- If a context waits, a worker is going to look, or the latest passes are known to be
interrupted. -/
def Watched (s : Saturation α σ) (ps : Multiset PC) : Prop :=
  s.work.state.active = [] ∨ (∃ q ∈ ps, q.Watches s.desk.counters) ∨
    s.desk.counters.workersStarted ≤ s.desk.counters.lastInterrupt

theorem watched_act (h : Act s pc ds s' pc') (hs : pc.Sees s.desk.counters) :
    pc'.Watches s'.desk.counters ∨
      s'.desk.counters.workersStarted = s.desk.counters.workersStarted ∧
      s.desk.counters.lastInterrupt ≤ s'.desk.counters.lastInterrupt ∧
      s'.work.state.active = s.work.state.active ∧
      (pc.Watches s.desk.counters → s.work.state.active = [] ∨
        s'.desk.counters.workersStarted ≤ s'.desk.counters.lastInterrupt) := by
  cases h with
  | seeInterrupt =>
    exact (Classical.em _).imp id fun h => ⟨rfl, Nat.le_refl _, rfl, fun h' => absurd h' h⟩
  | keepInterrupt | raiseInterrupt =>
    simp [PC.Watches, PC.Sees] at hs ⊢
    omega
  | noneActive h => simp [PC.Watches, h]
  | free h => cases pc <;> first | cases h; done | simp [PC.Watches]
  | _ => simp [PC.Watches]

theorem PC.Watches.of_started {k k' : Counters} (h : q.Watches k)
    (he : k'.workersStarted = k.workersStarted) : q.Watches k' := by
  cases q <;> simp only [PC.Watches, he] at h ⊢
  exact h

theorem watched_shift (hs : Seen s ps) (hw : Watched s ps) (h : Shift s ps ds s' ps') :
    Watched s' ps' := by
  cases h with
  | @act pc _ _ pc' rest h =>
    rcases watched_act h (hs.sees _ (Multiset.mem_cons_self _ _)) with
      hpc | ⟨hstarted, hinterrupt, hactive, hpc⟩
    · exact Or.inr (Or.inl ⟨_, Multiset.mem_cons_self _ _, hpc⟩)
    · rcases hw with hw | ⟨q, hq, hw⟩ | hw
      · exact Or.inl (hactive.trans hw)
      · rcases Multiset.mem_cons.mp hq with rfl | hq
        · exact (hpc hw).imp hactive.trans Or.inr
        · exact Or.inr (Or.inl ⟨q, Multiset.mem_cons_of_mem hq, hw.of_started hstarted⟩)
      · exact Or.inr (Or.inr (by omega))
  | join =>
    rcases hw with hw | ⟨q, hq, hw⟩ | hw
    · exact Or.inl hw
    · exact Or.inr (Or.inl ⟨q, Multiset.mem_cons_of_mem hq, hw⟩)
    · exact Or.inr (Or.inr hw)
  | submit | make | surroundings => exact hw

/-- If nobody is inside after a pass that was not interrupted, no context waits. -/
theorem Watched.active_eq_nil (hw : Watched s ps) (hp : PassesCounted s ps)
    (hout : s.desk.counters.workersStarted ≤ s.desk.counters.workersFinished)
    (hi : s.desk.counters.lastInterrupt < s.desk.counters.workersStarted) :
    s.work.state.active = [] := by
  rcases hw with hw | ⟨q, hq, hw⟩ | hw
  · exact hw
  · have hin := hp.nobody hout hq
    cases q <;> first | cases hin; done | exact hw.elim
  · omega

end Subsumption
