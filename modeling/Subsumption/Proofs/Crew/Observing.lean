import Subsumption.Counters.Snapshot
import Subsumption.Proofs.Crew.Completion

/-! The counters are in order at all times, and so are snapshots of them, whatever happens between
two reads. -/
namespace Subsumption

variable {α σ : Type} {obs : JobObserver α σ} {s s' : Saturation α σ} {ps : Multiset PC}
  {k k' : Counters}

/-! ### Order -/

/-- Nothing is processed before it is created, or finished before it is processed or started. -/
structure Counters.InOrder (k : Counters) : Prop where
  contextsProcessed : k.contextsProcessed ≤ k.contextsCreated
  contextsFinished : k.contextsFinished ≤ k.contextsProcessed
  jobsProcessed : k.jobsProcessed ≤ k.jobsSubmitted
  jobsFinished : k.jobsFinished ≤ k.jobsProcessed
  workersFinished : k.workersFinished ≤ k.workersStarted

/-- Which counters are never ahead of which. -/
inductive Counter.Behind : Counter → Counter → Prop
  | contextsProcessed : Behind .contextsProcessed .contextsCreated
  | contextsFinished : Behind .contextsFinished .contextsProcessed
  | jobsProcessed : Behind .jobsProcessed .jobsSubmitted
  | jobsFinished : Behind .jobsFinished .jobsProcessed
  | workersFinished : Behind .workersFinished .workersStarted

theorem Counters.inOrder_iff : k.InOrder ↔ ∀ i j, Counter.Behind i j → k.read i ≤ k.read j := by
  constructor
  · rintro ⟨h₁, h₂, h₃, h₄, h₅⟩ i j (_ | _ | _ | _ | _)
    exacts [h₁, h₂, h₃, h₄, h₅]
  · exact fun h => ⟨h _ _ .contextsProcessed, h _ _ .contextsFinished, h _ _ .jobsProcessed,
      h _ _ .jobsFinished, h _ _ .workersFinished⟩

theorem Counters.Grow.read_le (h : k.Grow k') (i : Counter) : k.read i ≤ k'.read i := by
  cases i
  exacts [h.created, h.contextsProcessed, h.contextsFinished, h.submitted, h.jobsProcessed,
    h.jobsFinished, h.started, h.finished, h.interrupt]

theorem Seen.inOrder (h : Seen s ps) : s.desk.counters.InOrder := by
  have hp : s.desk.counters.workersFinished ≤ s.desk.counters.workersStarted := by
    rw [h.passes]
    exact Nat.le_add_right _ _
  exact ⟨h.ordered.contextsProcessed, h.ordered.contextsFinished, h.ordered.jobsProcessed,
    h.ordered.jobsFinished, hp⟩

/-- What workers have read concerns the counters only. -/
theorem Seen.of_counters (h : Seen s ps) (hk : s'.desk.counters = s.desk.counters) :
    Seen s' ps := by
  refine ⟨?_, ?_, ?_⟩
  · rw [PassesCounted, hk]
    exact h.passes
  · rw [hk]
    exact h.ordered
  · rw [hk]
    exact h.sees

/-! ### What can happen between two reads -/

namespace Crew

/-- One event around a crew: a turn of the crew, which may be that those who are asleep are woken;
or outsiders do what they like to everything but the counters. -/
inductive Stir (obs : JobObserver α σ) (c : Crew α σ) : Crew α σ → Prop
  | turn {ds c'} (h : Turn obs c ds c') : Stir obs c c'
  | outside (s : Saturation α σ) (lock : Option Nat)
    (h : s.desk.counters = c.shared.desk.counters) : Stir obs c ⟨s, lock, c.members⟩

abbrev Stirs (obs : JobObserver α σ) : Crew α σ → Crew α σ → Prop :=
  Relation.ReflTransGen (Stir obs)

/-- An event, or the next read of an observer. -/
inductive Look (obs : JobObserver α σ) : Crew α σ × Snapshot → Crew α σ × Snapshot → Prop
  | stir {c c' t} (h : Stir obs c c') : Look obs (c, t) (c', t)
  | load {c t} : Look obs (c, t) (c, t.load c.shared.desk.counters)

abbrev Looks (obs : JobObserver α σ) : Crew α σ × Snapshot → Crew α σ × Snapshot → Prop :=
  Relation.ReflTransGen (Look obs)

variable {c c' c₀ : Crew α σ} {ds : List Deed} {t : Snapshot}

theorem Course.stirs (h : Course obs c₀ ds c) : Stirs obs c₀ c := by
  induction h with
  | start => exact .refl
  | turn _ ht ih => exact ih.tail (.turn ht)

theorem Stirs.looks (h : Stirs obs c c') : Looks obs (c, t) (c', t) := by
  induction h with
  | refl => exact .refl
  | tail _ hs ih => exact ih.tail (.stir hs)

/-- An observer may read on while nothing else happens. -/
theorem looks_loads (c : Crew α σ) (t : Snapshot) (is : List Counter) :
    Looks obs (c, t) (c, is.foldl (fun t _ => t.load c.shared.desk.counters) t) := by
  induction is generalizing t with
  | nil => exact .refl
  | cons _ rest ih => exact (ih _).head .load

theorem seen_stir (h : Stir obs c c') (hs : Seen c.shared c.places) :
    Seen c'.shared c'.places ∧
      ∀ i, c.shared.desk.counters.read i ≤ c'.shared.desk.counters.read i := by
  cases h with
  | turn h =>
    have hshift := shift_of_turn h
    exact ⟨seen_shift hs hshift, (hs.passes.grow hshift).read_le⟩
  | outside s lock h => exact ⟨hs.of_counters h, fun i => h ▸ Nat.le_refl _⟩

theorem seen_stirs (h : Stirs obs c c') (hs : Seen c.shared c.places) :
    Seen c'.shared c'.places ∧
      ∀ i, c.shared.desk.counters.read i ≤ c'.shared.desk.counters.read i := by
  induction h with
  | refl => exact ⟨hs, fun i => Nat.le_refl _⟩
  | tail _ hstir ih =>
    obtain ⟨hs', hle⟩ := seen_stir hstir ih.1
    exact ⟨hs', fun i => (ih.2 i).trans (hle i)⟩

end Crew

/-! ### Snapshots -/

/-- Each counter is read after all those that are behind it. -/
theorem Counter.Behind.mem_of_split {i j : Counter} (h : i.Behind j) {done rest : List Counter}
    (hs : Counters.readingOrder = done ++ j :: rest) : i ∈ done := by
  have hlen : done.length < Counters.readingOrder.length := by simp [hs]
  have hj : Counters.readingOrder[done.length]? = some j := by simp [hs]
  have hdone : done = Counters.readingOrder.take done.length := by simp [hs]
  rw [hdone]
  clear hdone hs
  generalize done.length = n at hlen hj
  revert n
  cases h <;> decide

namespace Snapshot

/-- A snapshot under way: no counter has fallen below what was read of it, and what has been read is
in order. -/
def Fits (t : Snapshot) (k : Counters) : Prop :=
  ∃ done, Counters.readingOrder = done ++ t.left ∧ (∀ i ∈ done, t.taken.read i ≤ k.read i) ∧
    ∀ i j, Counter.Behind i j → j ∈ done → t.taken.read i ≤ t.taken.read j

variable {t : Snapshot}

theorem fits_start (k : Counters) : start.Fits k :=
  ⟨[], rfl, (fun _ h => by cases h), fun _ _ _ h => by cases h⟩

theorem Fits.mono (h : t.Fits k) (hk : ∀ i, k.read i ≤ k'.read i) : t.Fits k' := by
  obtain ⟨done, hsplit, hle, hin⟩ := h
  exact ⟨done, hsplit, fun i hi => (hle i hi).trans (hk i), hin⟩

theorem Fits.load (h : t.Fits k) (hk : k.InOrder) : (t.load k).Fits k := by
  obtain ⟨done, hsplit, hle, hin⟩ := h
  obtain ⟨taken, left⟩ := t
  cases left with
  | nil => exact ⟨done, hsplit, hle, hin⟩
  | cons j rest =>
    have hnodup : (done ++ j :: rest).Nodup := hsplit ▸ (by decide)
    have hkept : ∀ i ∈ done, (taken.write (k.read j) j).read i = taken.read i := fun i hi => by
      rw [Counters.read_write,
        if_neg ((List.nodup_append.mp hnodup).2.2 i hi j List.mem_cons_self)]
    have hnew : (taken.write (k.read j) j).read j = k.read j := by
      rw [Counters.read_write, if_pos rfl]
    refine ⟨done ++ [j], by simpa [Snapshot.load] using hsplit, ?_, ?_⟩
    · intro i hi
      rcases List.mem_append.mp hi with hi | hi
      · exact (hkept i hi).trans_le (hle i hi)
      · obtain rfl := List.mem_singleton.mp hi
        exact hnew.le
    · intro i l hb hl
      have hi : i ∈ done := by
        rcases List.mem_append.mp hl with hl | hl
        · obtain ⟨before, after, rfl⟩ := List.append_of_mem hl
          exact List.mem_append_left _ (hb.mem_of_split (by simpa using hsplit))
        · exact hb.mem_of_split (List.mem_singleton.mp hl ▸ hsplit)
      refine (hkept i hi).trans_le ?_
      rcases List.mem_append.mp hl with hl | hl
      · exact (hin i l hb hl).trans_eq (hkept l hl).symm
      -- What is behind the counter that is read now was read before, and is still behind.
      · obtain rfl := List.mem_singleton.mp hl
        exact ((hle i hi).trans (Counters.inOrder_iff.mp hk i l hb)).trans_eq hnew.symm

theorem Fits.inOrder (h : t.Fits k) (hl : t.left = []) : t.taken.InOrder := by
  obtain ⟨done, hsplit, -, hin⟩ := h
  rw [hl, List.append_nil] at hsplit
  refine Counters.inOrder_iff.mpr fun i j hb => hin i j hb ?_
  rw [← hsplit]
  cases hb <;> decide

end Snapshot

namespace Crew

variable {c : Crew α σ} {workers : Nat}

theorem fits_looks {p q : Crew α σ × Snapshot} (h : Looks obs p q)
    (hs : Seen p.1.shared p.1.places) (hf : p.2.Fits p.1.shared.desk.counters) :
    Seen q.1.shared q.1.places ∧ q.2.Fits q.1.shared.desk.counters := by
  induction h with
  | refl => exact ⟨hs, hf⟩
  | tail _ hlook ih =>
    obtain ⟨hs, hf⟩ := ih
    cases hlook with
    | stir h =>
      obtain ⟨hs', hle⟩ := seen_stir h hs
      exact ⟨hs', hf.mono hle⟩
    | load => exact ⟨hs, hf.load hs.inOrder⟩

/-- At all times the counters are in order; none ever decreases; and a snapshot is in order, whatever
happens between its reads. -/
theorem counters_in_order {threshold : Nat} {timed : Bool} (hd : s.desk = .new threshold timed)
    (h : Stirs obs (.new s workers) c) :
    c.shared.desk.counters.InOrder ∧
    (∀ c', Stirs obs c c' → ∀ i, c.shared.desk.counters.read i ≤ c'.shared.desk.counters.read i) ∧
    ∀ c' t, Looks obs (c, .start) (c', t) → t.left = [] → t.taken.InOrder := by
  have hs := (seen_stirs h (places_new s workers ▸ seen_of_new hd workers)).1
  refine ⟨hs.inOrder, fun c' h' => (seen_stirs h' hs).2, fun c' t hlook hleft => ?_⟩
  exact (fits_looks hlook hs (Snapshot.fits_start _)).2.inOrder hleft

/-- An observer reads the first counter before the workers begin and the others after they have
returned. The snapshot is in order, though it is not of one moment. -/
theorem counters_in_order_oneJob : ∃ t, Looks counting (called, .start) (returned, t) ∧
    t.left = [] ∧ t.taken.contextsFinished = 0 ∧ t.taken.contextsProcessed = 2 ∧
    returned.shared.desk.counters.contextsFinished = 2 ∧ t.taken.InOrder := by
  have hcourse : Course counting called _ returned := course_runTurns _ _ _ _
  have hdesk : oneJob.desk = .new 100 false := rfl
  have hfirst : Looks counting (called, .start) (called, _) := .single .load
  have hlook := (hfirst.trans hcourse.stirs.looks).trans
    (looks_loads returned _ Counters.readingOrder.tail)
  refine ⟨_, hlook, rfl, rfl, by decide +kernel, by decide +kernel, ?_⟩
  exact (counters_in_order hdesk course_called.stirs).2.2 _ _ hlook rfl

end Crew

end Subsumption
