import Subsumption.Proofs.Crew.Listening
import Subsumption.Proofs.Crew.Statistics

/-! The jobs of a crew in every configuration that it can reach, and when a run is over. -/
namespace Subsumption

variable {α σ : Type} {obs : JobObserver α σ} {s : Saturation α σ} {c c' : Crew α σ}
  {ds ds' : List Deed} {pc : PC} {m : Member} {workers : Nat}

/-- What is expected at a place of the program; else the worker would report an error next. -/
def PC.Expects (s : Saturation α σ) : PC → Prop
  | .takeUnsaturated _ => s.work.state.unsaturated ≠ []
  | .mark _ id => s.work.Unmarked id
  | .takeInProgress _ => s.desk.inProgress ≠ []
  | .locateOutput _ job => s.Located job
  | _ => True

namespace PC

@[simp] theorem hands_woken (pc : PC) : pc.woken.hands = pc.hands := by
  cases pc <;> rfl

theorem expects_woken : pc.woken.Expects s ↔ pc.Expects s := by
  cases pc <;> rfl

end PC

namespace Crew

/-- The jobs that workers have in hand. -/
def inHands (c : Crew α σ) : List JobId := c.members.toList.flatMap fun m => m.pc.hands

theorem coe_inHands (c : Crew α σ) :
    (c.inHands : Multiset JobId) = c.places.bind fun q => (q.hands : Multiset JobId) := by
  simp [inHands, places, Multiset.coe_bind, List.flatMap_map]

/-- Every submission is in one place, and the workers' own counts agree. -/
structure Places (ds : List Deed) (c : Crew α σ) : Prop where
  split : (submissions ds).Perm
    (c.shared.desk.toDo ++ c.inHands ++ c.shared.desk.inProgress ++ counts ds)
  submitted : c.sum (·.submitted) = (submissions ds).length
  done : c.sum (·.done) = (counts ds).length

/-- A job gets one output, the context of its root, and then the listener is called for it, once.
The calls are those that the listener has recorded. -/
structure Announced (ds : List Deed) (c : Crew α (σ × Notices α)) : Prop where
  givenOnce : (gifts ds).Nodup
  noticedOnce : (notices ds).Nodup
  order : NoticedAfter ds
  given : ∀ job o, .given job o ∈ ds ↔ c.shared.outputOf job = some o
  output : ∀ job o, .given job o ∈ ds →
    ∃ d, c.shared.work.Stands (c.shared.rootOf job) o d ∧ d.root = c.shared.rootOf job
  root : ∀ job root, .noticed job root ∈ ds → root = c.shared.rootOf job
  told : List.Forall₂ c.shared.Told (notices ds).reverse c.shared.env.2

theorem places_of_recorded (ht : c.Tallied ds) (hr : Recorded ds c.shared c.places) :
    c.Places ds := by
  refine ⟨Multiset.coe_eq_coe.mp ?_, ht.1, ht.2⟩
  rw [hr.accounted.places, ← coe_inHands]
  simp only [Multiset.coe_add]

theorem Overheard.announced {c : Crew α (σ × Notices α)} (hs : s.Fresh)
    (h : Overheard obs (.new (s.hearing []) workers) ds c) : c.Announced ds := by
  have hr := h.course.recorded (hs.hearing [])
  have hn := hr.noticed
  have hw := hr.orderly.enrolled.coherent
  refine ⟨hn.once, ?_, hn.order, hn.given, ?_, hn.roots, h.told hs⟩
  · have hle : (notices ds : Multiset JobId) ≤ gifts ds := by
      rw [hn.told]
      exact Multiset.le_add_right _ _
    exact Multiset.coe_nodup.mp (Multiset.nodup_of_le hle (Multiset.coe_nodup.mpr hn.once))
  · intro job o hg
    have hf := hn.right job o ((hn.given job o).mp hg)
    obtain ⟨d, hd, hroot⟩ := hw.rooted _ o hf
    exact ⟨d, ⟨hf, hd⟩, hroot⟩

theorem expects_of_recorded (hr : Recorded ds c.shared c.places) (hm : m ∈ c.members) :
    m.pc.Expects c.shared := by
  have he := hr.orderly.enrolled
  have hq := mem_places hm
  rw [← PC.expects_woken]
  generalize m.pc.woken = q at hq
  cases q with
  | takeUnsaturated b => exact he.unsaturated_ne_nil hq Nat.one_ne_zero
  | mark b id => exact he.unmarked_of_marking hq (List.mem_singleton_self id)
  | takeInProgress b => exact hr.accounted.inProgress_ne_nil he.seen.ordered hq Nat.one_ne_zero
  | locateOutput b job => exact hr.accounted.located b job hq
  | _ => trivial

/-- A run begins: nobody is at work, and somebody has been called. -/
structure Begins (c : Crew α σ) : Prop where
  idle : ∀ m ∈ c.members, m.pc = .returned ∨ m.pc = .startPass
  called : ∃ m ∈ c.members, m.pc = .startPass

theorem Begins.undisturbed (h : c.Begins) (hk : c.shared.desk.counters.Ordered) :
    Undisturbed c.shared.desk.counters.workersStarted c.shared c.places := by
  obtain ⟨m, hm, hpc⟩ := h.called
  have hstart : PC.startPass ∈ c.places := by simpa [hpc, PC.woken] using mem_places hm
  refine ⟨?_, hk.interrupt, Or.inr ⟨Nat.le_refl _, hstart⟩,
    Or.inr ⟨_, hstart, by simp⟩⟩
  intro q hq
  obtain ⟨m, hm, rfl⟩ := List.mem_map.mp (Multiset.mem_coe.mp hq)
  rcases h.idle m (Array.mem_toList_iff.mp hm) with hpc | hpc <;> rw [hpc] <;> rfl

theorem Course.finished (hs : s.Fresh) (h : Course obs (.new s workers) ds c) (hb : c.Begins)
    (h' : Course obs c ds' c') (hstop : .stopped ∉ ds') (hsub : submissions ds' = [])
    (hdone : c'.isDone = true) : Finished (ds' ++ ds) c'.shared := by
  have hr := h.recorded hs
  have hu : Recorded (ds' ++ ds) c'.shared c'.places ∧ (Deed.stopped ∉ ds' → submissions ds' = [] →
      Undisturbed c.shared.desk.counters.workersStarted c'.shared c'.places) := by
    refine h'.invariant (P := fun ds' s ps => Recorded (ds' ++ ds) s ps ∧ (Deed.stopped ∉ ds' →
        submissions ds' = [] → Undisturbed c.shared.desk.counters.workersStarted s ps))
      ⟨hr, fun _ _ => hb.undisturbed hr.orderly.enrolled.seen.ordered⟩ ?_
    rintro ds₁ s ps ds₂ s' ps' ⟨hr, hu⟩ hshift
    refine ⟨List.append_assoc _ _ _ ▸ recorded_shift hr hshift, fun hstop hsub => ?_⟩
    rw [List.mem_append, not_or] at hstop
    rw [submissions_append, List.append_eq_nil_iff] at hsub
    exact undisturbed_shift (hu hstop.2 hsub.2) hshift hstop.1 hsub.1
  refine finished_of_returned (fun q hq => ?_) hu.1 (hu.2 hstop hsub)
  obtain ⟨m, hm, rfl⟩ := List.mem_map.mp (Multiset.mem_coe.mp hq)
  have hpc : m.pc = .returned := by
    simpa using Array.all_eq_true_iff_forall_mem.mp hdone m (Array.mem_toList_iff.mp hm)
  rw [hpc]
  rfl

/-- Every submission is accounted for and the listener is called for every job once: at all times no
submission is lost or counted twice, and when a run is over in which nobody found the flag set and
nothing was submitted, all are done. The listener keeps a record, as it can in every course. -/
theorem Overheard.jobs_done_once {c : Crew α (σ × Notices α)} (hs : s.Fresh)
    (h : Overheard obs (.new (s.hearing []) workers) ds c) :
    c.Places ds ∧ c.Announced ds ∧ (∀ m ∈ c.members, m.pc.Expects c.shared) ∧
      (c.Begins → ∀ ds' c', Overheard obs c ds' c' → .stopped ∉ ds' → submissions ds' = [] →
        c'.isDone = true → Finished (ds' ++ ds) c'.shared ∧ c'.Announced (ds' ++ ds) ∧
          c'.disband.desk.check = []) := by
  have hr := h.course.recorded (hs.hearing [])
  refine ⟨places_of_recorded h.course.tallied hr, h.announced hs,
    fun m hm => expects_of_recorded hr hm, ?_⟩
  intro hb ds' c' h' hstop hsub hdone
  have hf := h.course.finished (hs.hearing []) hb h'.course hstop hsub hdone
  obtain ⟨hsubmitted, hcounted⟩ := (h.append h').course.jobTotals (hs.hearing [])
  refine ⟨hf, (h.append h').announced hs, if_pos ?_⟩
  rw [JobStatistics.isConsistent, beq_iff_eq]
  exact hsubmitted.trans (hf.counted.length_eq.symm.trans hcounted.symm)

/-- The crew that has been called, with a listener that has recorded nothing yet. -/
def listening : Crew Unit (Nat × Notices Unit) := called.hearing []

theorem overheard_listening : Overheard counting (.new (oneJob.hearing []) 2)
    [.submitted ⟨0⟩, .submitted ⟨0⟩] listening := by
  have h₁ : Overheard counting (.new (oneJob.hearing []) 2) [] _ :=
    Overheard.start.aside .join rfl
  have h₂ : Overheard counting (.new (oneJob.hearing []) 2) [.submitted ⟨0⟩] _ :=
    h₁.aside (.submit (i := 2) rfl rfl (by decide)) rfl
  exact h₂.aside (.submit (i := 2) rfl rfl (by decide)) rfl

theorem begins_listening : listening.Begins := by
  refine ⟨?_, ⟨_, Array.mem_iff_getElem.mpr ⟨0, by decide, rfl⟩, rfl⟩⟩
  intro m hm
  have hall : ∀ m ∈ listening.members.toList, m.pc = .returned ∨ m.pc = .startPass := by decide
  exact hall m (Array.mem_toList_iff.mpr hm)

/-- The two workers take turns until both have returned. -/
def listened : Crew Unit (Nat × Notices Unit) :=
  listening.runTurns counting.recording (· % 2) 400

/-- What happens meanwhile. -/
def overheard : List Deed := recordTurns counting.recording (· % 2) 400 listening

/-- The job that has been submitted twice is counted twice, and the listener is called for it
once. -/
theorem jobs_done_once_oneJob : listening.Places [.submitted ⟨0⟩, .submitted ⟨0⟩] ∧
    (counts overheard).count ⟨0⟩ = 2 ∧ listened.shared.env.2.length = 1 ∧
    Finished (overheard ++ [.submitted ⟨0⟩, .submitted ⟨0⟩]) listened.shared ∧
    listened.Announced (overheard ++ [.submitted ⟨0⟩, .submitted ⟨0⟩]) ∧
    listened.disband.desk.check = [] := by
  obtain ⟨hplaces, _, _, hrun⟩ := overheard_listening.jobs_done_once fresh_oneJob
  exact ⟨hplaces, by decide +kernel, by decide +kernel,
    hrun begins_listening _ _ (overheard_runTurns _ _ _ _) (by decide +kernel) (by decide +kernel)
      (by decide +kernel)⟩

end Crew

end Subsumption
