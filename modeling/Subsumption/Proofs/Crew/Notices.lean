import Subsumption.Proofs.Crew.Accounts

/-! Every job gets one output, the context of its root, and one notice is given of it afterwards. -/
namespace Subsumption

variable {α σ : Type} {s s' : Saturation α σ} {ps ps' rest : Multiset PC} {pc pc' q : PC}
  {d : Deed} {ds ds' : List Deed} {root : NodeId} {o : ContextId} {job x : JobId}

namespace Deed

def gifts : Deed → List JobId
  | .given job _ => [job]
  | _ => []

def notices : Deed → List JobId
  | .noticed job _ => [job]
  | _ => []

end Deed

/-- The jobs that have got an output, once for each time. -/
def gifts (ds : List Deed) : List JobId := ds.flatMap Deed.gifts

/-- The jobs that notice has been given of, once for each time. -/
def notices (ds : List Deed) : List JobId := ds.flatMap Deed.notices

@[simp] theorem gifts_nil : gifts [] = [] := rfl

@[simp] theorem notices_nil : notices [] = [] := rfl

@[simp] theorem gifts_cons (d : Deed) (ds : List Deed) : gifts (d :: ds) = d.gifts ++ gifts ds :=
  rfl

@[simp] theorem notices_cons (d : Deed) (ds : List Deed) :
    notices (d :: ds) = d.notices ++ notices ds := rfl

@[simp] theorem gifts_append (ds ds' : List Deed) : gifts (ds ++ ds') = gifts ds ++ gifts ds' :=
  List.flatMap_append

@[simp] theorem notices_append (ds ds' : List Deed) :
    notices (ds ++ ds') = notices ds ++ notices ds' := List.flatMap_append

theorem mem_gifts : job ∈ gifts ds ↔ ∃ o, .given job o ∈ ds := by
  simp only [gifts, List.mem_flatMap]
  constructor
  · rintro ⟨d, hd, hj⟩
    cases d with
    | given x o =>
      rw [List.mem_singleton.mp hj]
      exact ⟨o, hd⟩
    | _ => cases hj
  · rintro ⟨o, ho⟩
    exact ⟨_, ho, List.mem_singleton_self _⟩

namespace PC

/-- The job that the worker is going to give notice of. -/
def notifying : PC → List JobId
  | .notify _ job | .notifyAtOnce job => [job]
  | _ => []

/-- The job that the worker is going to give an output to, and the output. -/
def giving : PC → Option (JobId × ContextId)
  | .giveOutput _ job o | .giveAtOnce job o => some (job, o)
  | _ => none

/-- The job that the worker has found the context of the root for, and the context. -/
def finding : PC → Option (JobId × ContextId)
  | .checkSaturated job o | .giveOutput _ job o | .giveAtOnce job o => some (job, o)
  | _ => none

theorem notifying_free (h : pc.isFree = true) : pc.notifying = [] := by
  cases pc <;> first | rfl | cases h

theorem giving_free (h : pc.isFree = true) : pc.giving = none := by
  cases pc <;> first | rfl | cases h

theorem finding_free (h : pc.isFree = true) : pc.finding = none := by
  cases pc <;> first | rfl | cases h

theorem finding_of_giving (h : pc.giving = some (job, o)) : pc.finding = some (job, o) := by
  cases pc <;> first | cases h; done | exact h

end PC

/-- The output of a job. -/
def Saturation.outputOf (s : Saturation α σ) (job : JobId) : Option ContextId :=
  (s.job? job).bind (·.output)

/-- A notice is given after an output. -/
def NoticedAfter (ds : List Deed) : Prop :=
  ∀ job root l, .noticed job root :: l <:+ ds → ∃ o, .given job o ∈ l

theorem NoticedAfter.cons (h : NoticedAfter ds)
    (hd : ∀ job root, d = .noticed job root → ∃ o, .given job o ∈ ds) : NoticedAfter (d :: ds) := by
  intro job root l hl
  rcases List.suffix_cons_iff.mp hl with he | hl
  · cases he
    exact hd job root rfl
  · exact h job root l hl

/-- What a step does to the outputs. -/
inductive Giving (s : Saturation α σ) (pc : PC) (ds : List Deed) (s' : Saturation α σ) (pc' : PC) :
    Prop
  | gives {y out} (hpc : pc.giving = some (y, out)) (ho : s.outputOf y = none)
    (hd : ds = [.given y out])
    (hs : ∀ z, s'.outputOf z = if z = y then some out else s.outputOf z)
  | keeps (hg : gifts ds = []) (hs : ∀ z, s'.outputOf z = s.outputOf z)
    (ho : ∀ y out, pc.giving = some (y, out) → y.index < s.jobs.size → s.outputOf y ≠ none)

theorem outputOf_setOutput {j : Job α} (hj : s.job? job = some j) (z : JobId) :
    ({ s with jobs := s.jobs.setIfInBounds job.index { j with output := some o } } :
      Saturation α σ).outputOf z = if z = job then some o else s.outputOf z := by
  rw [Saturation.outputOf, job?_setOutput hj]
  split <;> rfl

@[simp] theorem gifts_notices : gifts (s.notices job) = [] := by
  unfold Saturation.notices
  split <;> rfl

theorem outputOf_ne_none (h : ∀ j, s.job? job = some j → j.output ≠ none)
    (hj : job.index < s.jobs.size) : s.outputOf job ≠ none := by
  have hsome : s.job? job = some s.jobs[job.index] := Array.getElem?_eq_getElem hj
  rw [Saturation.outputOf, hsome]
  exact h _ hsome

theorem giving_act (h : Act s pc ds s' pc') : Giving s pc ds s' pc' := by
  cases h with
  | perform h =>
    refine .keeps rfl (fun z => ?_) (fun _ _ h => by cases h)
    cases h <;> rfl
  | giveOutput hj ho | giveAtOnce hj ho =>
    exact .gives rfl (by rw [Saturation.outputOf, hj]; exact ho) rfl (outputOf_setOutput hj)
  | refuse h | refuseAtOnce h =>
    refine .keeps rfl (fun _ => rfl) ?_
    rintro y out he hy
    cases he
    exact outputOf_ne_none h hy
  | notify | notifyAtOnce =>
    exact .keeps gifts_notices (fun _ => rfl) (fun _ _ h => by cases h)
  | free h =>
    refine .keeps rfl (fun _ => rfl) ?_
    intro y out he
    rw [PC.giving_free h] at he
    cases he
  | _ => exact .keeps rfl (fun _ => rfl) (fun _ _ h => by cases h)

/-- What a step does to the notices. -/
theorem notifying_act (h : Act s pc ds s' pc') :
    (∃ job, pc.notifying = [job] ∧ pc'.notifying = [] ∧ ds = s.notices job) ∨
      pc.notifying = [] ∧ pc'.notifying = gifts ds ∧
        (ds = [] ∨ ∃ d, ds = [d] ∧ d.notices = []) := by
  cases h with
  | notify | notifyAtOnce => exact Or.inl ⟨_, rfl, rfl, rfl⟩
  | free h h' => exact Or.inr ⟨PC.notifying_free h, PC.notifying_free h', Or.inl rfl⟩
  | interrupted | giveOutput | giveAtOnce | stopped | locateOutput | doneBefore =>
    exact Or.inr ⟨rfl, rfl, Or.inr ⟨_, rfl, rfl⟩⟩
  | _ => exact Or.inr ⟨rfl, rfl, Or.inl rfl⟩

/-- What a worker has found was found in the map of contexts. -/
theorem finding_act (h : Act s pc ds s' pc') (hf : pc'.finding = some (job, o)) :
    s.work.state.find? (s.rootOf job) = some o ∧ job ∈ pc.hands ∨ pc.finding = some (job, o) := by
  cases h with
  | known h | locateOutput h =>
    cases hf
    exact Or.inl ⟨h, List.mem_singleton_self _⟩
  | doneBefore h => exact Or.inr hf
  | free h h' =>
    rw [PC.finding_free h'] at hf
    cases hf
  | _ => cases hf

theorem counts_act (h : Act s pc ds s' pc') (hj : job ∈ counts ds) :
    ∃ o, pc'.giving = some (job, o) := by
  cases h with
  | locateOutput | doneBefore =>
    rw [List.mem_singleton.mp hj]
    exact ⟨_, rfl⟩
  | notify | notifyAtOnce =>
    rw [counts_notices] at hj
    cases hj
  | _ => cases hj

/-- Outputs and notices, as they are recorded. -/
structure Noticed (ds : List Deed) (s : Saturation α σ) (ps : Multiset PC) : Prop where
  given : ∀ job o, .given job o ∈ ds ↔ s.outputOf job = some o
  once : (gifts ds).Nodup
  right : ∀ job o, s.outputOf job = some o → s.work.state.find? (s.rootOf job) = some o
  finding : ∀ q ∈ ps, ∀ job o, q.finding = some (job, o) →
    s.work.state.find? (s.rootOf job) = some o ∧ job.index < s.jobs.size
  told : (gifts ds : Multiset JobId) = (notices ds : Multiset JobId) +
    ps.bind fun q => (q.notifying : Multiset JobId)
  roots : ∀ job root, .noticed job root ∈ ds → root = s.rootOf job
  owed : ∀ job ∈ counts ds, s.outputOf job ≠ none ∨ ∃ q ∈ ps, ∃ o, q.giving = some (job, o)
  order : NoticedAfter ds

/-- There is a notice to give of a job that has the context of its root for an output. -/
theorem notices_eq (hw : s.work.Coherent) (ho : s.outputOf job = some o)
    (hf : s.work.state.find? (s.rootOf job) = some o) :
    s.notices job = [.noticed job (s.rootOf job)] := by
  obtain ⟨j, hj, hjo⟩ := Option.bind_eq_some_iff.mp ho
  obtain ⟨c, hc, hroot⟩ := hw.rooted _ o hf
  simp [Saturation.notices, hj, hjo, hc, hroot]

theorem Noticed.outputOf_of_notifying (hn : Noticed ds s ps) (hq : q ∈ ps)
    (hj : job ∈ q.notifying) : ∃ o, s.outputOf job = some o := by
  have hgift : job ∈ (gifts ds : Multiset JobId) := by
    rw [hn.told]
    exact Multiset.mem_add.mpr (Or.inr (Multiset.mem_bind.mpr ⟨q, hq, Multiset.mem_coe.mpr hj⟩))
  obtain ⟨o, ho⟩ := mem_gifts.mp (Multiset.mem_coe.mp hgift)
  exact ⟨o, (hn.given job o).mp ho⟩

theorem given_act (hn : Noticed ds s (pc ::ₘ rest)) (h : Act s pc ds' s' pc') :
    (∀ job o, .given job o ∈ ds' ++ ds ↔ s'.outputOf job = some o) ∧
      (gifts (ds' ++ ds)).Nodup ∧
      (∀ job, s.outputOf job ≠ none → s'.outputOf job = s.outputOf job) ∧
      ∀ job o, s'.outputOf job = some o → s.outputOf job = some o ∨ pc.giving = some (job, o) := by
  cases giving_act h with
  | @gives y out hpc ho hd hs =>
    subst hd
    have hnew : y ∉ gifts ds := by
      intro hy
      obtain ⟨o, hy⟩ := mem_gifts.mp hy
      rw [(hn.given y o).mp hy] at ho
      cases ho
    refine ⟨?_, List.nodup_cons.mpr ⟨hnew, hn.once⟩, ?_, ?_⟩
    · intro job o
      rw [hs, List.singleton_append, List.mem_cons, hn.given]
      by_cases hj : job = y
      · simp [hj, ho, eq_comm]
      · simp [hj]
    · intro job hjob
      have hne : job ≠ y := fun he => hjob (he ▸ ho)
      rw [hs, if_neg hne]
    · intro job o hjob
      rw [hs] at hjob
      split at hjob
      · rename_i he
        cases hjob
        exact Or.inr (he ▸ hpc)
      · exact Or.inl hjob
  | keeps hg hs =>
    refine ⟨?_, ?_, fun job _ => hs job, fun job o ho => Or.inl (hs job ▸ ho)⟩
    · intro job o
      have hno : .given job o ∉ ds' := by
        intro hd
        have := mem_gifts.mpr ⟨o, hd⟩
        rw [hg] at this
        cases this
      rw [hs, List.mem_append, hn.given]
      simp [hno]
    · rw [gifts_append, hg, List.nil_append]
      exact hn.once

theorem told_act (hw : s.work.Coherent) (hn : Noticed ds s (pc ::ₘ rest))
    (h : Act s pc ds' s' pc') :
    (gifts (ds' ++ ds) : Multiset JobId) = (notices (ds' ++ ds) : Multiset JobId) +
        ((pc' ::ₘ rest).bind fun q => (q.notifying : Multiset JobId)) ∧
      (∀ job root, .noticed job root ∈ ds' → root = s.rootOf job) ∧ NoticedAfter (ds' ++ ds) := by
  have htold := hn.told
  rw [Multiset.cons_bind] at htold ⊢
  rcases notifying_act h with ⟨job, hpc, hpc', rfl⟩ | ⟨hpc, hpc', hd⟩
  · obtain ⟨o, ho⟩ := hn.outputOf_of_notifying (Multiset.mem_cons_self _ _)
      (hpc ▸ List.mem_singleton_self job)
    rw [notices_eq hw ho (hn.right job o ho)]
    refine ⟨?_, ?_, hn.order.cons ?_⟩
    · rw [hpc] at htold
      rw [hpc', gifts_append, notices_append, ← Multiset.coe_add, ← Multiset.coe_add, htold]
      simp only [gifts_cons, notices_cons, Deed.gifts, Deed.notices, gifts_nil, notices_nil,
        List.append_nil, Multiset.coe_nil, zero_add]
      ac_rfl
    · intro x root hx
      cases List.mem_singleton.mp hx
      rfl
    · intro x root hx
      cases hx
      exact ⟨o, (hn.given job o).mpr ho⟩
  · rw [hpc, Multiset.coe_nil, zero_add] at htold
    have hnotice : notices ds' = [] := by
      rcases hd with rfl | ⟨d, rfl, hd⟩
      · rfl
      · simp [hd]
    have hno : ∀ d ∈ ds', ∀ job root, d ≠ .noticed job root := by
      rintro d hd job root rfl
      have : job ∈ notices ds' := List.mem_flatMap.mpr ⟨_, hd, List.mem_singleton_self _⟩
      rw [hnotice] at this
      cases this
    refine ⟨?_, fun job root hd => absurd rfl (hno _ hd job root), ?_⟩
    · rw [hpc', gifts_append, notices_append, hnotice, List.nil_append, ← Multiset.coe_add, htold]
      ac_rfl
    · rcases hd with rfl | ⟨d, rfl, hd⟩
      · exact hn.order
      · exact hn.order.cons fun job root he =>
          absurd he (hno d (List.mem_singleton_self _) job root)

theorem noticed_act (ho : Orderly s (pc ::ₘ rest)) (ha : Accounted ds s (pc ::ₘ rest))
    (hn : Noticed ds s (pc ::ₘ rest)) (h : Act s pc ds' s' pc') :
    Noticed (ds' ++ ds) s' (pc' ::ₘ rest) := by
  have hself : pc ∈ pc ::ₘ rest := Multiset.mem_cons_self _ _
  have hw := ho.enrolled.coherent
  have hfind : ∀ {job o}, s.work.state.find? (s.rootOf job) = some o →
      s'.work.state.find? (s'.rootOf job) = some o := by
    intro job o hf
    rw [rootOf_act h]
    exact (grows_act hw h).find? hw hf
  obtain ⟨hgiven, honce, hkept, hnew⟩ := given_act hn h
  obtain ⟨htold, hroots, horder⟩ := told_act hw hn h
  refine ⟨hgiven, honce, ?_, ?_, htold, ?_, ?_, horder⟩
  · intro job o hjob
    rcases hnew job o hjob with hjob | hpc
    · exact hfind (hn.right job o hjob)
    · exact hfind (hn.finding pc hself job o (PC.finding_of_giving hpc)).1
  · intro q hq job o hqf
    rw [size_act h]
    rcases Multiset.mem_cons.mp hq with rfl | hq
    · rcases finding_act h hqf with ⟨hf, hj⟩ | hf
      · exact ⟨hfind hf, ha.made_of_hands hself hj⟩
      · exact (hn.finding pc hself job o hf).imp_left hfind
    · exact (hn.finding q (Multiset.mem_cons_of_mem hq) job o hqf).imp_left hfind
  · intro job root hd
    rw [rootOf_act h]
    rcases List.mem_append.mp hd with hd | hd
    · exact hroots job root hd
    · exact hn.roots job root hd
  · intro job hj
    rw [counts_append] at hj
    rcases List.mem_append.mp hj with hj | hj
    · obtain ⟨o, hpc'⟩ := counts_act h hj
      exact Or.inr ⟨pc', Multiset.mem_cons_self _ _, o, hpc'⟩
    · rcases hn.owed job hj with hjob | ⟨q, hq, o, hqg⟩
      · exact Or.inl (hkept job hjob ▸ hjob)
      · rcases Multiset.mem_cons.mp hq with rfl | hq
        · left
          -- The output is set now, or it was set before.
          cases giving_act h with
          | gives hpc _ _ hs =>
            cases hqg.symm.trans hpc
            simp [hs]
          | keeps _ hs hrefuse =>
            rw [hs]
            exact hrefuse job o hqg (hn.finding q hself job o (PC.finding_of_giving hqg)).2
        · exact Or.inr ⟨q, Multiset.mem_cons_of_mem hq, o, hqg⟩

theorem outputOf_make (root : NodeId) (payload : α) (job : JobId) :
    ({ s with jobs := s.jobs.push (.new root payload) } : Saturation α σ).outputOf job =
      s.outputOf job := by
  simp only [Saturation.outputOf, Saturation.job?, Array.getElem?_push]
  split
  · rename_i he
    simp [he, Job.new]
  · rfl

theorem index_lt_of_outputOf (h : s.outputOf job = some o) : job.index < s.jobs.size := by
  obtain ⟨j, hj, _⟩ := Option.bind_eq_some_iff.mp h
  exact (Array.getElem?_eq_some_iff.mp hj).1

theorem noticed_shift (ho : Orderly s ps) (ha : Accounted ds s ps) (hn : Noticed ds s ps)
    (h : Shift s ps ds' s' ps') : Noticed (ds' ++ ds) s' ps' := by
  cases h with
  | act h => exact noticed_act ho ha hn h
  | @submit _ y hj =>
    refine ⟨?_, hn.once, hn.right, hn.finding, hn.told, ?_, hn.owed,
      hn.order.cons fun _ _ h => (by cases h)⟩
    · intro job o
      have : .given job o ∈ .submitted y :: ds ↔ .given job o ∈ ds := by simp
      exact this.trans (hn.given job o)
    · intro job root hd
      exact hn.roots job root (by simpa using hd)
  | join =>
    refine ⟨hn.given, hn.once, hn.right, ?_, ?_, hn.roots, ?_, hn.order⟩
    · intro q hq job o hf
      rcases Multiset.mem_cons.mp hq with rfl | hq
      · cases hf
      · exact hn.finding q hq job o hf
    · simpa [PC.notifying] using hn.told
    · exact fun job hj => (hn.owed job hj).imp_right fun ⟨q, hq, h⟩ =>
        ⟨q, Multiset.mem_cons_of_mem hq, h⟩
  | make root payload =>
    refine ⟨?_, hn.once, ?_, ?_, hn.told, ?_, ?_, hn.order⟩
    · intro job o
      rw [outputOf_make]
      exact hn.given job o
    · intro job o hjob
      rw [outputOf_make] at hjob
      rw [rootOf_make root payload (index_lt_of_outputOf hjob)]
      exact hn.right job o hjob
    · intro q hq job o hf
      obtain ⟨hfind, hmade⟩ := hn.finding q hq job o hf
      rw [rootOf_make root payload hmade, Array.size_push]
      exact ⟨hfind, Nat.lt_succ_of_lt hmade⟩
    · intro job r hd
      obtain ⟨o, hgift⟩ : ∃ o, .given job o ∈ ds := by
        obtain ⟨l₁, l₂, rfl⟩ := List.append_of_mem hd
        obtain ⟨o, ho⟩ := hn.order job r l₂ (List.suffix_append _ _)
        exact ⟨o, List.mem_append_right _ (List.mem_cons_of_mem _ ho)⟩
      rw [rootOf_make root payload (index_lt_of_outputOf ((hn.given job o).mp hgift))]
      exact hn.roots job r hd
    · intro job hj
      rw [outputOf_make]
      exact hn.owed job hj
  | surroundings =>
    exact ⟨hn.given, hn.once, hn.right, hn.finding, hn.told, hn.roots, hn.owed, hn.order⟩

theorem noticed_new (hs : s.Fresh) (workers : Nat) :
    Noticed [] s (.replicate workers .startPass) := by
  have hidle : ∀ q ∈ Multiset.replicate workers PC.startPass, q = .startPass := fun q hq =>
    Multiset.eq_of_mem_replicate hq
  have hnone : ∀ job o, s.outputOf job ≠ some o := by
    intro job o ho
    obtain ⟨j, hj, hjo⟩ := Option.bind_eq_some_iff.mp ho
    rw [hs.jobs job j hj] at hjo
    cases hjo
  refine ⟨?_, List.nodup_nil, fun job o h => absurd h (hnone job o), ?_, ?_, ?_, ?_, ?_⟩
  · exact fun job o => ⟨fun h => (by cases h), fun h => absurd h (hnone job o)⟩
  · intro q hq job o hf
    rw [hidle q hq] at hf
    cases hf
  · symm
    refine Multiset.eq_zero_of_forall_notMem fun x hx => ?_
    rcases Multiset.mem_add.mp hx with hx | hx
    · cases hx
    · obtain ⟨q, hq, hx⟩ := Multiset.mem_bind.mp hx
      rw [hidle q hq] at hx
      cases hx
  · intro job root h
    cases h
  · intro job h
    cases h
  · intro job root l h
    cases List.suffix_nil.mp h

end Subsumption
