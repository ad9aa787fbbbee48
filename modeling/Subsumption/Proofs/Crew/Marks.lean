import Subsumption.Proofs.Crew.Endings

/-! Marks and notices. A job is completed when its context is declared processed; that the context
is marked by then is not guaranteed, as the worker that has claimed it for its mark may not have
come to mark it. -/
namespace Subsumption

variable {α σ : Type} {s s' : Saturation α σ} {ps ps' rest : Multiset PC} {pc pc' q : PC}
  {ds ds' : List Deed} {n root : NodeId} {id o : ContextId} {job : JobId}

/-! ### Positions in a queue -/

section
variable {β : Type} {claims : PC → Nat} {raising : PC → Option Nat} {x : β} {queue queue' : List β}
  {processed processed' finished finished' u v : Nat}

/-- The element is in the queue, and claimed or among the first `v` ever queued. -/
def Within (claims : PC → Nat) (queue : List β) (finished v : Nat) (ps : Multiset PC) (x : β) :
    Prop :=
  ∃ i, queue[i]? = some x ∧ finished + i < v + total claims ps

theorem Within.mono (h : Within claims queue finished v ps x) (hv : v ≤ u) :
    Within claims queue finished u ps x :=
  h.imp fun _ hi => ⟨hi.1, Nat.lt_of_lt_of_le hi.2 (Nat.add_le_add_right hv _)⟩

/-- What a step does to the claims: an element that is claimed is taken, or claims are raised and
the queue grows. -/
inductive Advances (claims : PC → Nat) (queue queue' : List β) (finished finished' : Nat)
    (pc pc' : PC) : Prop
  | taken {y} (hq : queue = y :: queue') (hc : claims pc = claims pc' + 1)
    (hf : finished' = finished)
  | other (hq : queue <+: queue') (hc : finished + claims pc' = finished' + claims pc)

theorem Queueing.advances (h : Queueing claims raising queue queue' processed processed' finished
    finished' pc pc') : Advances claims queue queue' finished finished' pc pc' := by
  cases h with
  | taken hq hc _ _ hf => exact .taken hq hc hf
  | other hq hc => exact .other hq hc

/-- An element keeps its place among all that were ever queued, until it is taken. -/
theorem Within.step (h : Within claims queue finished v (pc ::ₘ rest) x)
    (ha : Advances claims queue queue' finished finished' pc pc') :
    Within claims queue' finished' v (pc' ::ₘ rest) x ∨ queue = x :: queue' ∧ claims pc ≠ 0 := by
  obtain ⟨i, hi, hlt⟩ := h
  rw [total_cons] at hlt
  cases ha with
  | taken hq hc hf =>
    subst hq
    cases i with
    | zero =>
      cases hi
      exact Or.inr ⟨rfl, by omega⟩
    | succ i =>
      refine Or.inl ⟨i, hi, ?_⟩
      rw [total_cons]
      omega
  | other hq hc =>
    obtain ⟨more, rfl⟩ := hq
    obtain ⟨hlt', _⟩ := List.getElem?_eq_some_iff.mp hi
    refine Or.inl ⟨i, ?_, ?_⟩
    · rw [List.getElem?_append_left hlt', hi]
    · rw [total_cons]
      omega

/-- And it had that place before, if there were so many elements then. -/
theorem Within.unstep (h : Within claims queue' finished' v (pc' ::ₘ rest) x)
    (ha : Advances claims queue queue' finished finished' pc pc')
    (hv : v + total claims (pc ::ₘ rest) ≤ finished + queue.length) :
    Within claims queue finished v (pc ::ₘ rest) x := by
  obtain ⟨i, hi, hlt⟩ := h
  rw [total_cons] at hlt hv
  cases ha with
  | taken hq hc hf =>
    subst hq
    refine ⟨i + 1, hi, ?_⟩
    rw [total_cons]
    omega
  | other hq hc =>
    obtain ⟨more, rfl⟩ := hq
    refine ⟨i, ?_, ?_⟩
    · rwa [List.getElem?_append_left (by omega)] at hi
    · rw [total_cons]
      omega

end

/-! ### Contexts on their way to a mark -/

/-- So many contexts are declared processed, or are going to be by a worker that has declared jobs
processed. -/
def Declared (s : Saturation α σ) (ps : Multiset PC) (v : Nat) : Prop :=
  v = s.desk.counters.contextsProcessed ∨ ∃ seen, .raiseContexts v seen ∈ ps

/-- The context, if it is not marked, is in the hands of a worker who marks it, or in the queue,
claimed or among the first `v` contexts for some `v` in `V`. -/
def Covered (V : Nat → Prop) (s : Saturation α σ) (ps : Multiset PC) (id : ContextId) : Prop :=
  s.work.Unmarked id → (∃ q ∈ ps, id ∈ q.marking) ∨ ∃ v, V v ∧
    Within PC.claims s.work.state.unsaturated s.desk.counters.contextsFinished v ps id

section
variable {V V' : Nat → Prop} {c j v : Nat} {seen : Option Nat}

theorem Covered.mono (h : Covered V s ps id) (hV : ∀ v, V v → V' v) : Covered V' s ps id :=
  fun hu => (h hu).imp_right fun ⟨v, hv, hw⟩ => ⟨v, hV v hv, hw⟩

theorem declared_act (h : Act s pc ds s' pc') (hs : pc.Sees s.desk.counters)
    (hv : Declared s (pc ::ₘ rest) v) : ∃ u, v ≤ u ∧ Declared s' (pc' ::ₘ rest) u := by
  have hself : pc' ∈ pc' ::ₘ rest := Multiset.mem_cons_self _ _
  rcases hv with rfl | ⟨seen, hv⟩
  · refine ⟨_, ?_, Or.inl rfl⟩
    cases h with
    | perform h => rcases desk_of_does h with h | h <;> simp [h]
    | raiseContexts h => exact Nat.le_of_lt h
    | _ => exact Nat.le_refl _
  · rcases Multiset.mem_cons.mp hv with rfl | hv
    · cases h with
      | seeContexts => exact ⟨v, Nat.le_refl _, Or.inr ⟨_, hself⟩⟩
      | keepContexts h => exact ⟨_, h.trans (hs.2 _ rfl), Or.inl rfl⟩
      | raiseContexts => exact ⟨v, Nat.le_refl _, Or.inl rfl⟩
      | free h => cases h
    · exact ⟨v, Nat.le_refl _, Or.inr ⟨seen, Multiset.mem_cons_of_mem hv⟩⟩

theorem unmarked_of_grows {w w' : Workspace} (hw : w.Coherent) (hg : w.Grows w')
    (hn : w.state.find? n = some id) (hu : w'.Unmarked id) : w.Unmarked id := by
  obtain ⟨m, c', hst, hs⟩ := hu
  obtain ⟨c, hc, _⟩ := hw.rooted n id hn
  obtain ⟨d, hd, hsat⟩ := hg.stands n id c ⟨hn, hc⟩
  cases hst.2.symm.trans hd.2
  refine ⟨n, c, ⟨hn, hc⟩, Bool.eq_false_iff.mpr fun h => ?_⟩
  rw [hsat h] at hs
  cases hs

/-- Who has a context to mark marks it. -/
theorem marked_act (h : Act s pc ds s' pc') (hid : id ∈ pc.marking) (hu : s.work.Unmarked id) :
    ¬ s'.work.Unmarked id := by
  cases h with
  | mark =>
    cases List.mem_singleton.mp hid
    exact fun h => ((Workspace.unmarked_markSaturated hu).mp h).2 rfl
  | free h => simp [h] at hid
  | _ => cases hid

/-- Who has claimed a context takes the first one. -/
theorem taken_act {as : List ContextId} (h : Act s pc ds s' pc') (hc : pc.claims ≠ 0)
    (hq : s.work.state.unsaturated = id :: as) : id ∈ pc'.marking := by
  cases h with
  | noneUnsaturated h => cases h.symm.trans hq
  | takeUnsaturated h =>
    cases h.symm.trans hq
    exact List.mem_singleton_self _
  | free h => simp [h] at hc
  | _ => cases hc rfl

/-- Who declares jobs processed has found out that nobody is inside, or goes on declaring. -/
theorem raiseJobs_act (h : Act s pc ds s' pc') (hs : pc.Sees s.desk.counters)
    (hpc : pc' = .raiseJobs c j seen) : pc.claims = 0 ∧ pc.taking = 0 ∧
      (Finds s pc s' pc' ∨ ∃ seen, pc = .raiseJobs c j seen) := by
  cases h with
  | noneInside h => exact ⟨rfl, rfl, Or.inl (finds_act h hs)⟩
  | seeJobs =>
    cases hpc
    exact ⟨rfl, rfl, Or.inr ⟨_, rfl⟩⟩
  | free _ h' =>
    rw [hpc] at h'
    cases h'
  | _ => cases hpc

theorem advances_act (h : Act s pc ds s' pc') (hs : pc.Sees s.desk.counters)
    (hne : pc.claims = 0 ∨ s.work.state.unsaturated ≠ []) :
    Advances PC.claims s.work.state.unsaturated s'.work.state.unsaturated
      s.desk.counters.contextsFinished s'.desk.counters.contextsFinished pc pc' := by
  rcases queueing_act h hs hne with hf | hq
  · obtain ⟨hpc, _⟩ := raiseJobs_act h hs hf.place
    rw [hf.same, hf.place]
    exact .other (List.prefix_refl _) (by rw [hpc]; rfl)
  · exact hq.advances

theorem jobAdvances_act (h : Act s pc ds s' pc') (hs : pc.Sees s.desk.counters)
    (hne : pc.taking = 0 ∨ s.desk.inProgress ≠ []) :
    Advances PC.taking s.desk.inProgress s'.desk.inProgress
      s.desk.counters.jobsFinished s'.desk.counters.jobsFinished pc pc' := by
  rcases jobQueueing_act h hs hne with hf | hq
  · obtain ⟨_, hpc, _⟩ := raiseJobs_act h hs hf.place
    rw [hf.same, hf.place]
    exact .other (List.prefix_refl _) (by rw [hpc]; rfl)
  · exact hq.advances

/-- A context that is on its way to a mark stays so until it is marked. -/
theorem Covered.act (hc : Covered V s (pc ::ₘ rest) id) (he : Enrolled s (pc ::ₘ rest))
    (hn : s.work.state.find? n = some id) (h : Act s pc ds s' pc')
    (hV : ∀ v, V v → ∃ u, v ≤ u ∧ V' u) : Covered V' s' (pc' ::ₘ rest) id := by
  intro hu'
  have hself : pc ∈ pc ::ₘ rest := Multiset.mem_cons_self _ _
  have hu := unmarked_of_grows he.coherent (grows_act he.coherent h) hn hu'
  have hclaims : pc.claims = 0 ∨ s.work.state.unsaturated ≠ [] :=
    (Classical.em _).imp_right (he.unsaturated_ne_nil hself)
  rcases hc hu with ⟨q, hq, hid⟩ | ⟨v, hv, hwithin⟩
  · rcases Multiset.mem_cons.mp hq with rfl | hq
    · exact absurd hu' (marked_act h hid hu)
    · exact Or.inl ⟨q, Multiset.mem_cons_of_mem hq, hid⟩
  · rcases hwithin.step (advances_act h (he.seen.sees pc hself) hclaims) with hwithin | ⟨hq, hc⟩
    · obtain ⟨u, hle, hu⟩ := hV v hv
      exact Or.inr ⟨u, hu, hwithin.mono hle⟩
    · exact Or.inl ⟨pc', Multiset.mem_cons_self _ _, taken_act h hc hq⟩

/-- When nobody is inside, all contexts that have been counted are on their way to a mark as soon as
they are declared processed. -/
theorem covered_known (he : Enrolled s ps) (hout : ∀ q ∈ ps, q.inPass = false) (id : ContextId) :
    Covered (· = s.desk.counters.contextsCreated) s ps id := by
  intro hu
  have hidle : ∀ q ∈ ps, q.agenda = [] := fun q hq => (PC.idle_of_outside (hout q hq)).2.2
  have hcreated := he.created
  have hqueued := he.queued
  rw [total_eq_zero fun q hq => by rw [hidle q hq]; rfl] at hcreated hqueued
  rcases Multiset.mem_add.mp ((he.unmarked id).mpr hu) with hid | hid
  · obtain ⟨i, hlt, hi⟩ := List.getElem_of_mem (Multiset.mem_coe.mp hid)
    exact Or.inr ⟨_, rfl, i, List.getElem?_eq_some_iff.mpr ⟨hlt, hi⟩, by omega⟩
  · obtain ⟨q, hq, hid⟩ := Multiset.mem_bind.mp hid
    refine Or.inl ⟨q, hq, ?_⟩
    rw [PC.due, hidle q hq] at hid
    exact Multiset.mem_coe.mp hid

end

/-! ### Jobs whose contexts are on their way -/

namespace PC

/-- The worker completes a job whose output is the context, or is going to be. -/
def Presents (s : Saturation α σ) (id : ContextId) : PC → Prop
  | .locateOutput _ job => s.work.state.find? (s.rootOf job) = some id
  | .giveOutput _ _ output => output = id
  | .notify _ job => s.outputOf job = some id
  | _ => False

/-- The same of a job whose context was found saturated. -/
def Repeats (s : Saturation α σ) (id : ContextId) : PC → Prop
  | .giveAtOnce _ output => output = id
  | .notifyAtOnce job => s.outputOf job = some id
  | _ => False

theorem not_presents_free (h : pc.isFree = true) : ¬ pc.Presents s id := by
  cases pc <;> first | exact fun h => h | cases h

theorem not_repeats_free (h : pc.isFree = true) : ¬ pc.Repeats s id := by
  cases pc <;> first | exact fun h => h | cases h

end PC

/-- Each job in progress that is claimed or among the first `v` has a context for its root, which is
on its way to a mark. -/
def Promised (V : Nat → Prop) (s : Saturation α σ) (ps : Multiset PC) (v : Nat) : Prop :=
  ∀ job, Within PC.taking s.desk.inProgress s.desk.counters.jobsFinished v ps job →
    ∃ id, s.work.state.find? (s.rootOf job) = some id ∧ Covered V s ps id

/-- The contexts of jobs that are declared processed, claimed or taken are on their way to a mark;
those of jobs that a worker is going to declare processed are so as soon as it has declared contexts
processed, too. -/
structure Pledges (s : Saturation α σ) (ps : Multiset PC) : Prop where
  presented : ∀ q ∈ ps, ∀ id, q.Presents s id → Covered (Declared s ps) s ps id
  repeated : ∀ q ∈ ps, ∀ id, q.Repeats s id → ∃ n c, s.work.Stands n id c ∧ c.saturated = true
  processed : Promised (Declared s ps) s ps s.desk.counters.jobsProcessed
  raising : ∀ c j seen, .raiseJobs c j seen ∈ ps →
    Promised (fun v => Declared s ps v ∨ v = c) s ps j

section
variable {V V' : Nat → Prop} {c j v : Nat} {seen : Option Nat}

theorem find?_act {x : JobId} (hw : s.work.Coherent) (h : Act s pc ds s' pc')
    (hx : s.work.state.find? (s.rootOf x) = some id) :
    s'.work.state.find? (s'.rootOf x) = some id := by
  rw [rootOf_act h]
  exact (grows_act hw h).find? hw hx

theorem Promised.act (hp : Promised V s (pc ::ₘ rest) v) (he : Enrolled s (pc ::ₘ rest))
    (ha : Accounted ds s (pc ::ₘ rest)) (hv : v ≤ s.desk.counters.jobsSubmitted)
    (h : Act s pc ds' s' pc') (hV : ∀ v, V v → ∃ u, v ≤ u ∧ V' u) :
    Promised V' s' (pc' ::ₘ rest) v := by
  intro job hw
  have hself : pc ∈ pc ::ₘ rest := Multiset.mem_cons_self _ _
  have htaking : pc.taking = 0 ∨ s.desk.inProgress ≠ [] :=
    (Classical.em _).imp_right (ha.inProgress_ne_nil he.seen.ordered hself)
  have hqueued := ha.queued
  obtain ⟨id, hid, hc⟩ := hp job
    (hw.unstep (jobAdvances_act h (he.seen.sees pc hself) htaking) (by omega))
  exact ⟨id, find?_act he.coherent h hid, hc.act he hid h hV⟩

/-- What another worker presents it has presented before. -/
theorem presents_other (hw : s.work.Coherent) (ha : Accounted ds s (pc ::ₘ rest))
    (hn : Noticed ds s (pc ::ₘ rest)) (h : Act s pc ds' s' pc') (hq : q ∈ rest) :
    (q.Presents s' id → q.Presents s id) ∧ (q.Repeats s' id → q.Repeats s id) := by
  have hmem : q ∈ pc ::ₘ rest := Multiset.mem_cons_of_mem hq
  have hkept : ∀ job, job ∈ q.notifying → s'.outputOf job = s.outputOf job := by
    intro job hj
    obtain ⟨o, ho⟩ := hn.outputOf_of_notifying hmem hj
    exact (given_act hn h).2.2.1 job (by rw [ho]; exact Option.some_ne_none o)
  cases q with
  | locateOutput b job =>
    refine ⟨fun hp => ?_, fun hr => hr⟩
    obtain ⟨o, ho⟩ := ha.located b job hmem
    cases (find?_act hw h ho).symm.trans hp
    exact ho
  | giveOutput | giveAtOnce => exact ⟨fun hp => hp, fun hr => hr⟩
  | notify b job =>
    exact ⟨fun hp => (hkept job (List.mem_singleton_self _)).symm.trans hp, fun hr => hr⟩
  | notifyAtOnce job =>
    exact ⟨fun hp => hp, fun hr => (hkept job (List.mem_singleton_self _)).symm.trans hr⟩
  | _ => exact ⟨fun hp => hp, fun hr => hr⟩

/-- What the worker presents it has presented before, unless it has just taken the job. -/
theorem presents_act (h : Act s pc ds s' pc') (hp : pc'.Presents s' id) :
    pc.Presents s id ∨ ∃ b job, pc' = .locateOutput b job := by
  cases h with
  | takeInProgress => exact Or.inr ⟨_, _, rfl⟩
  | locateOutput h =>
    cases hp
    exact Or.inl h
  | @giveOutput b job output j hj =>
    rw [PC.Presents, outputOf_setOutput hj, if_pos rfl] at hp
    cases hp
    exact Or.inl rfl
  | free _ h' => exact absurd hp (PC.not_presents_free h')
  | _ => exact hp.elim

theorem repeats_act (hn : Noticed ds s (pc ::ₘ rest)) (h : Act s pc ds' s' pc')
    (hr : pc'.Repeats s' id) :
    pc.Repeats s id ∨ ∃ n c, s.work.Stands n id c ∧ c.saturated = true := by
  cases h with
  | doneBefore hc hs =>
    cases hr
    have hfind := (hn.finding _ (Multiset.mem_cons_self _ _) _ _ rfl).1
    exact Or.inr ⟨_, _, ⟨hfind, hc⟩, hs⟩
  | @giveAtOnce job output j hj =>
    rw [PC.Repeats, outputOf_setOutput hj, if_pos rfl] at hr
    cases hr
    exact Or.inl rfl
  | free _ h' => exact absurd hr (PC.not_repeats_free h')
  | _ => exact hr.elim

/-- What is presented is the context of some root. -/
theorem known_of_presents (hn : Noticed ds s ps) (hq : q ∈ ps) (hp : q.Presents s id) :
    ∃ n, s.work.state.find? n = some id := by
  cases q with
  | locateOutput => exact ⟨_, hp⟩
  | giveOutput b job output =>
    obtain rfl : output = id := hp
    exact ⟨_, (hn.finding _ hq job output rfl).1⟩
  | notify b job => exact ⟨_, hn.right job id hp⟩
  | _ => exact hp.elim

/-- How far jobs are declared processed changes only when a worker declares them so. -/
theorem declaring_act (h : Act s pc ds s' pc') :
    s'.desk.counters.jobsProcessed = s.desk.counters.jobsProcessed ∨
      ∃ c j seen, pc = .raiseJobs c j seen ∧ pc' = .raiseContexts c none ∧
        s'.desk.counters.jobsProcessed = j := by
  cases h with
  | perform h => rcases desk_of_does h with h | h <;> exact Or.inl (by simp [h])
  | raiseJobs => exact Or.inr ⟨_, _, _, rfl, rfl, rfl⟩
  | _ => exact Or.inl rfl

/-- When nobody is inside, the contexts of all jobs in progress are on their way to a mark as soon
as contexts are declared processed. -/
theorem promised_known (he : Enrolled s ps) (ha : Accounted ds s ps)
    (hout : ∀ q ∈ ps, q.inPass = false) (v : Nat) :
    Promised (· = s.desk.counters.contextsCreated) s ps v := by
  rintro job ⟨i, hi, _⟩
  obtain ⟨id, hid⟩ := (ranking_located he.seen hout ha.queued ha.asked).first job
    (by rw [List.take_length]; exact List.mem_of_getElem? hi)
  exact ⟨id, hid, covered_known he hout id⟩

theorem declared_mono (h : Act s pc ds s' pc') (he : Enrolled s (pc ::ₘ rest)) :
    ∀ v, Declared s (pc ::ₘ rest) v → ∃ u, v ≤ u ∧ Declared s' (pc' ::ₘ rest) u := fun _ =>
  declared_act h (he.seen.sees pc (Multiset.mem_cons_self _ _))

theorem presented_act (he : Enrolled s (pc ::ₘ rest)) (ha : Accounted ds s (pc ::ₘ rest))
    (hn : Noticed ds s (pc ::ₘ rest)) (hp : Pledges s (pc ::ₘ rest)) (h : Act s pc ds' s' pc')
    (hq : q ∈ pc' ::ₘ rest) (hpq : q.Presents s' id) :
    Covered (Declared s' (pc' ::ₘ rest)) s' (pc' ::ₘ rest) id := by
  have hself : pc ∈ pc ::ₘ rest := Multiset.mem_cons_self _ _
  have hbefore : ∀ q ∈ pc ::ₘ rest, q.Presents s id →
      Covered (Declared s' (pc' ::ₘ rest)) s' (pc' ::ₘ rest) id := by
    intro q hq hpq
    obtain ⟨n, hfind⟩ := known_of_presents hn hq hpq
    exact (hp.presented q hq id hpq).act he hfind h (declared_mono h he)
  rcases Multiset.mem_cons.mp hq with rfl | hq
  · rcases presents_act h hpq with hpq | ⟨b, job, rfl⟩
    · exact hbefore pc hself hpq
    · -- The job was the first in progress, and it was claimed.
      obtain ⟨as, hprogress, htaking⟩ := locateOutput_act h rfl
      have hclaims : pc.taking ≤ total PC.taking (pc ::ₘ rest) := le_total hself
      have hle := he.seen.ordered.jobsFinished
      obtain ⟨o, hfind, hc⟩ := hp.processed job ⟨0, by rw [hprogress]; rfl, by omega⟩
      cases (find?_act he.coherent h hfind).symm.trans hpq
      exact hc.act he hfind h (declared_mono h he)
  · exact hbefore q (Multiset.mem_cons_of_mem hq) ((presents_other he.coherent ha hn h hq).1 hpq)

theorem repeated_act (hw : s.work.Coherent) (ha : Accounted ds s (pc ::ₘ rest))
    (hn : Noticed ds s (pc ::ₘ rest)) (hp : Pledges s (pc ::ₘ rest)) (h : Act s pc ds' s' pc')
    (hq : q ∈ pc' ::ₘ rest) (hr : q.Repeats s' id) :
    ∃ n c, s'.work.Stands n id c ∧ c.saturated = true := by
  obtain ⟨n, c, hst, hs⟩ : ∃ n c, s.work.Stands n id c ∧ c.saturated = true := by
    rcases Multiset.mem_cons.mp hq with rfl | hq
    · exact (repeats_act hn h hr).elim (hp.repeated pc (Multiset.mem_cons_self _ _) id)
        fun hst => hst
    · exact hp.repeated q (Multiset.mem_cons_of_mem hq) id ((presents_other hw ha hn h hq).2 hr)
  obtain ⟨c', hst', hs'⟩ := (grows_act hw h).stands n id c hst
  exact ⟨n, c', hst', hs' hs⟩

theorem processed_act (he : Enrolled s (pc ::ₘ rest)) (ha : Accounted ds s (pc ::ₘ rest))
    (hp : Pledges s (pc ::ₘ rest)) (h : Act s pc ds' s' pc') :
    Promised (Declared s' (pc' ::ₘ rest)) s' (pc' ::ₘ rest) s'.desk.counters.jobsProcessed := by
  have hself : pc ∈ pc ::ₘ rest := Multiset.mem_cons_self _ _
  rcases declaring_act h with hsame | ⟨c, j, seen, rfl, rfl, hj⟩
  · rw [hsame]
    exact hp.processed.act he ha he.seen.ordered.jobsProcessed h (declared_mono h he)
  · rw [hj]
    refine (hp.raising c j seen hself).act he ha (he.seen.sees _ hself).2.1 h ?_
    rintro v (hv | rfl)
    · exact declared_mono h he v hv
    · exact ⟨v, Nat.le_refl _, Or.inr ⟨none, Multiset.mem_cons_self _ _⟩⟩

theorem raising_act (ho : Orderly s (pc ::ₘ rest)) (ha : Accounted ds s (pc ::ₘ rest))
    (hp : Pledges s (pc ::ₘ rest)) (h : Act s pc ds' s' pc')
    (hq : .raiseJobs c j seen ∈ pc' ::ₘ rest) :
    Promised (fun v => Declared s' (pc' ::ₘ rest) v ∨ v = c) s' (pc' ::ₘ rest) j := by
  have he := ho.enrolled
  have hself : pc ∈ pc ::ₘ rest := Multiset.mem_cons_self _ _
  have hkept : ∀ {seen}, .raiseJobs c j seen ∈ pc ::ₘ rest →
      Promised (fun v => Declared s' (pc' ::ₘ rest) v ∨ v = c) s' (pc' ::ₘ rest) j := by
    intro seen hq
    refine (hp.raising c j seen hq).act he ha (he.seen.sees _ hq).2.1 h ?_
    rintro v (hv | rfl)
    · exact (declared_mono h he v hv).imp fun u hu => ⟨hu.1, Or.inl hu.2⟩
    · exact ⟨v, Nat.le_refl _, Or.inr rfl⟩
  rcases Multiset.mem_cons.mp hq with hpc | hq
  · rcases (raiseJobs_act h (he.seen.sees pc hself) hpc.symm).2.2 with hf | ⟨seen, rfl⟩
    · -- The worker has just found out that nobody is inside.
      have hseen := seen_shift he.seen (.act h)
      have hc : c = s'.desk.counters.contextsCreated := by
        have := hpc.trans hf.place
        rw [hf.same]
        cases this
        rfl
      have hout : s'.desk.counters.workersStarted ≤ s'.desk.counters.workersFinished := by
        rw [hf.same]
        exact hf.outside
      have hall := promised_known (enrolled_shift he (.act h)) (accounted_act ho ha h)
        (fun q hq => hseen.passes.nobody hout hq) j
      intro job hw
      obtain ⟨id, hid, hcov⟩ := hall job hw
      exact ⟨id, hid, hcov.mono fun v hv => Or.inr (hv.trans hc.symm)⟩
    · exact hkept hself
  · exact hkept (Multiset.mem_cons_of_mem hq)

theorem pledges_act (ho : Orderly s (pc ::ₘ rest)) (ha : Accounted ds s (pc ::ₘ rest))
    (hn : Noticed ds s (pc ::ₘ rest)) (hp : Pledges s (pc ::ₘ rest)) (h : Act s pc ds' s' pc') :
    Pledges s' (pc' ::ₘ rest) where
  presented _ hq _ hpq := presented_act ho.enrolled ha hn hp h hq hpq
  repeated _ hq _ hr := repeated_act ho.enrolled.coherent ha hn hp h hq hr
  processed := processed_act ho.enrolled ha hp h
  raising _ _ _ hq := raising_act ho ha hp h hq

theorem within_returned {β : Type} {claims : PC → Nat} {queue : List β} {finished : Nat} {x : β}
    (hc : claims .returned = 0) :
    Within claims queue finished v (.returned ::ₘ ps) x ↔ Within claims queue finished v ps x := by
  simp only [Within, total_cons, hc, Nat.zero_add]

/-- A worker that joins makes no difference. -/
theorem Covered.join (h : Covered V s ps id) (hV : ∀ v, V v → V' v) :
    Covered V' s (.returned ::ₘ ps) id := by
  intro hu
  rcases h hu with ⟨q, hq, hid⟩ | ⟨v, hv, hw⟩
  · exact Or.inl ⟨q, Multiset.mem_cons_of_mem hq, hid⟩
  · exact Or.inr ⟨v, hV v hv, (within_returned rfl).mpr hw⟩

theorem Promised.join (h : Promised V s ps j) (hV : ∀ v, V v → V' v) :
    Promised V' s (.returned ::ₘ ps) j := fun job hw =>
  (h job ((within_returned rfl).mp hw)).imp fun _ hid => ⟨hid.1, hid.2.join hV⟩

theorem pledges_join (hp : Pledges s ps) : Pledges s (.returned ::ₘ ps) := by
  have hdeclared : ∀ v, Declared s ps v → Declared s (.returned ::ₘ ps) v := fun v hv =>
    hv.imp_right fun ⟨seen, hmem⟩ => ⟨seen, Multiset.mem_cons_of_mem hmem⟩
  refine ⟨?_, ?_, hp.processed.join hdeclared, ?_⟩
  · intro q hq id hpq
    rcases Multiset.mem_cons.mp hq with rfl | hq
    · exact hpq.elim
    · exact (hp.presented q hq id hpq).join hdeclared
  · intro q hq id hr
    rcases Multiset.mem_cons.mp hq with rfl | hq
    · exact hr.elim
    · exact hp.repeated q hq id hr
  · intro c j seen hq
    rcases Multiset.mem_cons.mp hq with hpc | hq
    · cases hpc
    · exact (hp.raising c j seen hq).join fun v hv => hv.imp_left (hdeclared v)

theorem pledges_make (ha : Accounted ds s ps) (hp : Pledges s ps) (root : NodeId) (payload : α) :
    Pledges { s with jobs := s.jobs.push (.new root payload) } ps := by
  have hmake : ∀ {V v}, Promised V s ps v →
      Promised V { s with jobs := s.jobs.push (.new root payload) } ps v := by
    rintro V v h job ⟨i, hi, hlt⟩
    rw [rootOf_make root payload (ha.made_of_mem (List.mem_of_getElem? hi))]
    exact h job ⟨i, hi, hlt⟩
  refine ⟨?_, ?_, hmake hp.processed, fun c j seen hq => hmake (hp.raising c j seen hq)⟩
  · intro q hq id hpq
    refine hp.presented q hq id ?_
    cases q with
    | locateOutput b job =>
      have hmade := ha.made_of_hands hq (List.mem_singleton_self job)
      rwa [PC.Presents, rootOf_make root payload hmade] at hpq
    | notify b job => rwa [PC.Presents, outputOf_make] at hpq
    | _ => exact hpq
  · intro q hq id hr
    refine hp.repeated q hq id ?_
    cases q with
    | notifyAtOnce job => rwa [PC.Repeats, outputOf_make] at hr
    | _ => exact hr

theorem pledges_shift (hr : Recorded ds s ps) (hp : Pledges s ps) (h : Shift s ps ds' s' ps') :
    Pledges s' ps' := by
  cases h with
  | act h => exact pledges_act hr.orderly hr.accounted hr.noticed hp h
  | join => exact pledges_join hp
  | make root payload => exact pledges_make hr.accounted hp root payload
  | submit | surroundings => exact ⟨hp.presented, hp.repeated, hp.processed, hp.raising⟩

theorem pledges_new (hs : s.Fresh) (workers : Nat) :
    Pledges s (.replicate workers .startPass) := by
  have hidle : ∀ q ∈ Multiset.replicate workers PC.startPass, q = .startPass := fun q hq =>
    Multiset.eq_of_mem_replicate hq
  obtain ⟨threshold, timed, hd⟩ := hs.desk
  refine ⟨?_, ?_, ?_, ?_⟩
  · intro q hq id hp
    rw [hidle q hq] at hp
    exact hp.elim
  · intro q hq id hr
    rw [hidle q hq] at hr
    exact hr.elim
  · rintro job ⟨i, hi, _⟩
    rw [hd] at hi
    cases hi
  · intro c j seen hq
    cases hidle _ hq

end

/-! ### Notices -/

namespace PC

/-- Whether the worker has declared jobs processed and has to do so with their contexts, or goes on
marking. -/
def leavesUnmarked : PC → Bool
  | .raiseContexts _ _ => true
  | pc => pc.marksOn

@[simp] theorem leavesUnmarked_woken (pc : PC) : pc.woken.leavesUnmarked = pc.leavesUnmarked := by
  cases pc <;> rfl

theorem marksOn_of_leavesUnmarked (h : pc.leavesUnmarked = false) : pc.marksOn = false := by
  cases pc <;> first | rfl | cases h

end PC

theorem mem_notices {x : JobId} (h : .noticed job root ∈ s.notices x) : x = job ∧
    ∃ output d, s.outputOf job = some output ∧ s.work.context? output = some d ∧ d.root = root := by
  unfold Saturation.notices at h
  split at h
  · rename_i d hd
    cases List.mem_singleton.mp h
    obtain ⟨j, hj, hd⟩ := Option.bind_eq_some_iff.mp hd
    obtain ⟨output, ho, hd⟩ := Option.bind_eq_some_iff.mp hd
    exact ⟨rfl, output, d, by rw [Saturation.outputOf, hj]; exact ho, hd, rfl⟩
  · cases h

theorem mem_deeds (obs : JobObserver α σ) (h : .noticed job root ∈ pc.deeds obs s) :
    (pc = .notifyAtOnce job ∨ ∃ b, pc = .notify b job) ∧
    ∃ output d, s.outputOf job = some output ∧ s.work.context? output = some d ∧ d.root = root := by
  cases pc with
  | notify b x =>
    obtain ⟨rfl, h⟩ := mem_notices h
    exact ⟨Or.inr ⟨b, rfl⟩, h⟩
  | notifyAtOnce x =>
    obtain ⟨rfl, h⟩ := mem_notices h
    exact ⟨Or.inl rfl, h⟩
  | poll | pollJobs | checkSaturated | locateOutput | giveOutput | giveAtOnce =>
    simp only [PC.deeds] at h
    split at h <;> simp at h
  | _ => cases h

/-- A context that is on its way to a mark is marked, if no worker has anything left to mark. -/
theorem Covered.marked (hc : Covered (Declared s ps) s ps id) (hf : Finishing s ps)
    (hall : ∀ q ∈ ps, q.leavesUnmarked = false) : ¬ s.work.Unmarked id := by
  intro hu
  have hmarks : ∀ q ∈ ps, q.marksOn = false := fun q hq => PC.marksOn_of_leavesUnmarked (hall q hq)
  rcases hc hu with ⟨q, hq, hid⟩ | ⟨v, rfl | ⟨seen, hv⟩, i, _, hlt⟩
  · have := hmarks q hq
    cases q <;> first | cases this; done | cases hid
  · have hclaims : total PC.claims ps = 0 := total_eq_zero fun q hq => by
      have := hmarks q hq
      cases q <;> first | rfl | cases this
    rw [hclaims] at hlt
    obtain ⟨q, hq, hm⟩ := hf.contexts (by omega)
    rw [hmarks q hq] at hm
    cases hm
  · cases hall _ hv

namespace Crew

variable {obs : JobObserver α σ} {c : Crew α σ} {m : Member} {workers : Nat}

/-- Notice of a job is given with the context of its root. That context is saturated if it was when
the job was taken; when the job has been completed after a pass, it is saturated unless some worker
has still to declare contexts processed or to mark one. -/
theorem Course.noticed_saturated (hs : s.Fresh) (h : Course obs (.new s workers) ds c)
    (hm : m ∈ c.members) (hdeed : .noticed job root ∈ m.pc.deeds obs c.shared) :
    ∃ output d, c.shared.outputOf job = some output ∧ c.shared.work.Stands root output d ∧
      ((m.pc = .notifyAtOnce job ∨ ∀ m' ∈ c.members, m'.pc.leavesUnmarked = false) →
        d.saturated = true) := by
  obtain ⟨hr, hp⟩ : Recorded ds c.shared c.places ∧ Pledges c.shared c.places :=
    h.invariant (P := fun ds s ps => Recorded ds s ps ∧ Pledges s ps)
      (places_new s workers ▸ ⟨recorded_new hs workers, pledges_new hs workers⟩)
      fun _ _ _ _ _ _ h hshift => ⟨recorded_shift h.1 hshift, pledges_shift h.1 h.2 hshift⟩
  have hw := hr.orderly.enrolled.coherent
  have hplace := mem_places hm
  obtain ⟨hpc, output, d, ho, hd, hroot⟩ := mem_deeds obs hdeed
  have hfind := hr.noticed.right job output ho
  have hst : c.shared.work.Stands (c.shared.rootOf job) output d := ⟨hfind, hd⟩
  obtain rfl : c.shared.rootOf job = root := (hw.root_of_stands hst).symm.trans hroot
  refine ⟨output, d, ho, hst, fun hcase => ?_⟩
  rcases hpc with hpc | ⟨b, hpc⟩
  · rw [hpc] at hplace
    obtain ⟨n, d', hst', hs'⟩ := hp.repeated _ hplace output ho
    cases hd.symm.trans hst'.2
    exact hs'
  · have hall : ∀ q ∈ c.places, q.leavesUnmarked = false := by
      intro q hq
      obtain ⟨m', hm', rfl⟩ := List.mem_map.mp (Multiset.mem_coe.mp hq)
      rw [PC.leavesUnmarked_woken]
      refine hcase.elim (fun h => ?_) fun h => h m' (Array.mem_toList_iff.mp hm')
      rw [hpc] at h
      cases h
    rw [hpc] at hplace
    have hmarked := (hp.presented _ hplace output ho).marked hr.ending.finishing hall
    by_contra hns
    exact hmarked ⟨_, d, hst, Bool.eq_false_iff.mpr hns⟩

/-- The first worker has taken the context of A to mark it, but has not marked it yet; the second
one has found both contexts claimed, marked the other one, and come to the notice of the job for
A. -/
def overtaken : Crew Unit Nat :=
  (called.runTurns counting (fun _ => 0) 118).runTurns counting (fun _ => 1) 26

/-- The first worker goes on in time, marks the context and finds no other to mark. -/
def caughtUp : Crew Unit Nat := overtaken.runTurns counting (fun _ => 0) 3

theorem course_overtaken : ∃ ds, Course counting (.new oneJob 2) ds overtaken :=
  ⟨_, (course_called.append (course_runTurns _ _ _ _)).append (course_runTurns _ _ _ _)⟩

theorem noticed_saturated_caughtUp : ∃ output d, caughtUp.shared.outputOf ⟨0⟩ = some output ∧
    caughtUp.shared.work.Stands ⟨2⟩ output d ∧ d.saturated = true := by
  obtain ⟨ds, hcourse⟩ := course_overtaken
  have hnotice : ∃ m ∈ caughtUp.members,
      .noticed ⟨0⟩ ⟨2⟩ ∈ m.pc.deeds counting caughtUp.shared := by
    decide +kernel
  have hmarks : ∀ m ∈ caughtUp.members, m.pc.leavesUnmarked = false := by decide +kernel
  obtain ⟨m, hm, hdeed⟩ := hnotice
  obtain ⟨output, d, ho, hst, hsat⟩ := Course.noticed_saturated fresh_oneJob
    (hcourse.append (course_runTurns counting (fun _ => 0) 3 overtaken)) hm hdeed
  exact ⟨output, d, ho, hst, hsat (Or.inr hmarks)⟩

/-- If it does not, the second worker gives notice of the job with a context that is not
saturated. -/
theorem unmarked_overtaken : (∃ ds, Course counting (.new oneJob 2) ds overtaken) ∧
    (∃ m ∈ overtaken.members, .noticed ⟨0⟩ ⟨2⟩ ∈ m.pc.deeds counting overtaken.shared) ∧
    ∃ output d, overtaken.shared.outputOf ⟨0⟩ = some output ∧
      overtaken.shared.work.context? output = some d ∧ d.saturated = false := by
  have houtput : overtaken.shared.outputOf ⟨0⟩ = some ⟨0⟩ := by decide +kernel
  have hunmarked : (overtaken.shared.work.context? ⟨0⟩).map (·.saturated) = some false := by
    decide +kernel
  obtain ⟨d, hd, hs⟩ := Option.map_eq_some_iff.mp hunmarked
  exact ⟨course_overtaken, by decide +kernel, ⟨0⟩, d, houtput, hd, hs⟩

end Crew

end Subsumption
