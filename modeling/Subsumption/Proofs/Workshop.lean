import Subsumption.Proofs.Firing
import Subsumption.Proofs.Standing

/-! Workers at their passes, a context at a time. A worker takes a context from the active queue,
keeps it in hand while it processes what is pending there, and lays it down when nothing is left.
Between two contexts the flag may stop it, so nothing makes a worker take the next one. -/
namespace Subsumption

/-- A workspace with the contexts that the workers have in hand, and with the number of contexts,
those that have waited longest first, that are known to be complete and may be marked. -/
structure Workshop where
  work : Workspace
  hands : List ContextId
  complete : Nat

namespace Workshop

/-- Nobody is at work. -/
def idle (w : Workspace) : Workshop := ⟨w, [], 0⟩

/-- A step of the workers. What the contexts are that wait to be marked when nobody has a context in
hand and none is queued is known to be complete. -/
inductive Step : Workshop → Workshop → Prop
  | take {s id v} (h : s.work.takeActive? = some (id, v)) :
    Step s { s with work := v, hands := id :: s.hands }
  | process {s id k v} {σ : Type} (obs : RuleObserver σ) (timed : Bool) (stats : RuleStatistics)
    (env : σ) (hid : id ∈ s.hands) (hpop : s.work.pop? id = some (k, v)) :
    Step s { s with work := (RuleRun.apply obs timed ⟨v, stats, env⟩ id k).work }
  | layDown {s id} (hid : id ∈ s.hands) (hpop : s.work.pop? id = none) :
    Step s { s with work := s.work.setActive id false, hands := s.hands.erase id }
  | complete {s} (hh : s.hands = []) (ha : s.work.state.active = []) :
    Step s { s with complete := s.work.state.unsaturated.length }
  | mark {s k} (h : s.complete = k + 1) :
    Step s { s with work := s.work.markNext.2, complete := k }
  | report {s} (e : Event) : Step s { s with work := s.work.report e }

/-- A run, with the roots that were submitted on the way, the latest first. -/
inductive Runs (s₀ : Workshop) : List NodeId → Workshop → Prop
  | start : Runs s₀ [] s₀
  | submit {roots s} {σ : Type} (obs : RuleObserver σ) (stats : RuleStatistics) (env : σ)
    (h : Runs s₀ roots s) (root : NodeId) (hr : root.index < s.work.state.ontology.size) :
    Runs s₀ (root :: roots)
      { s with work := (RuleRun.submit obs ⟨s.work, stats, env⟩ root).2.work }
  | step {roots s s'} (h : Runs s₀ roots s) (hs : Step s s') : Runs s₀ roots s'

end Workshop

namespace Workspace

variable {w v : Workspace} {n root : NodeId} {id x : ContextId} {c c' : Context} {k : Conclusion}
  {hands : List ContextId}

/-- A context has its token taken if and only if it is in hand or in the queue, once, and there it
is as long as anything is pending. -/
structure Tidy (hands : List ContextId) (w : Workspace) : Prop where
  coherent : w.Coherent
  once : (hands ++ w.state.active).Nodup
  token : ∀ n id c, w.Stands n id c → (c.active = true ↔ id ∈ hands ++ w.state.active)
  waiting : ∀ n id c, w.Stands n id c → c.pending ≠ [] → c.active = true
  known : ∀ id ∈ hands ++ w.state.active, ∃ n, w.state.find? n = some id

theorem tidy_new {o : Ontology} (hw : w.state = State.new o) : Tidy [] w := by
  have hnone : ∀ n id c, ¬ w.Stands n id c := by
    rintro n id c ⟨hn, _⟩
    rw [hw] at hn
    cases hn
  have ha : w.state.active = [] := by rw [hw]; rfl
  refine ⟨coherent_new hw, ?_, ?_, ?_, ?_⟩
  · rw [ha]
    exact List.nodup_nil
  · exact fun n id c hc => absurd hc (hnone n id c)
  · exact fun n id c hc => absurd hc (hnone n id c)
  · rw [ha]
    intro id hid
    cases hid

theorem Tidy.quiet (h : Tidy [] w) (ha : w.state.active = []) : w.Quiet := by
  intro n c hc
  obtain ⟨id, hid, hc⟩ := Option.bind_eq_some_iff.mp hc
  by_contra hp
  have hmem := (h.token n id c ⟨hid, hc⟩).mp (h.waiting n id c ⟨hid, hc⟩ hp)
  rw [ha] at hmem
  cases hmem

/-- Whatever else is done to the contexts, as long as their tokens are left alone and no more gets
pending. -/
theorem Tidy.of_stands (h : Tidy hands w) (hv : v.Coherent) (ha : v.state.active = w.state.active)
    (hfind : ∀ n id, w.state.find? n = some id → v.state.find? n = some id)
    (hst : ∀ n id c', v.Stands n id c' → ∃ c, w.Stands n id c ∧ c'.active = c.active ∧
      (c'.pending ≠ [] → c.pending ≠ [])) : Tidy hands v := by
  refine ⟨hv, ha ▸ h.once, ?_, ?_, ?_⟩
  · intro n id c' hc'
    obtain ⟨c, hc, hactive, _⟩ := hst n id c' hc'
    rw [hactive, ha]
    exact h.token n id c hc
  · intro n id c' hc' hp
    obtain ⟨c, hc, hactive, hpending⟩ := hst n id c' hc'
    rw [hactive]
    exact h.waiting n id c hc (hpending hp)
  · intro id hid
    rw [ha] at hid
    exact (h.known id hid).imp fun n hn => hfind n id hn

theorem Tidy.modify (h : Tidy hands w) (id : ContextId) {f : Context → Context}
    (hf : ∀ c, w.context? id = some c → (f c).root = c.root ∧ (f c).active = c.active ∧
      ((f c).pending ≠ [] → c.pending ≠ [])) : Tidy hands (w.modify id f) := by
  refine h.of_stands (h.coherent.modify id fun c hc => (hf c hc).1) rfl (fun _ _ h => h) ?_
  intro n x c' hc'
  obtain ⟨c, hc, rfl⟩ := (stands_modify f).mp hc'
  refine ⟨c, hc, ?_⟩
  split
  · rename_i he
    exact (hf c (he ▸ hc.2)).2
  · exact ⟨rfl, fun hp => hp⟩

/-! ### Queueing -/

theorem stands_produce : (w.produce id k).Stands n x c' ↔
    ∃ c, w.Stands n x c ∧ c' = if x = id then c.receive [k] else c := by
  simp only [Stands, find?_produce, context?_produce]
  split
  · simp only [Option.map_eq_some_iff, and_assoc, exists_and_left, @eq_comm _ c']
  · simp

theorem active_produce (hc : w.context? id = some c) : (w.produce id k).state.active =
    if c.active = true then w.state.active else w.state.active ++ [id] := by
  have hactive : (w.modify id (·.push k)).isActive id = c.active := by
    simp [isActive, context?_modify, hc, Context.push]
  unfold produce
  dsimp only
  rw [hactive]
  split <;> rfl

/-- Who takes the token of a context puts it into the queue. -/
theorem Tidy.produce (h : Tidy hands w) (hid : w.state.find? n = some id) (k : Conclusion) :
    Tidy hands (w.produce id k) := by
  obtain ⟨c, hc, _⟩ := h.coherent.rooted n id hid
  have htoken := h.token n id c ⟨hid, hc⟩
  have hactive := active_produce (k := k) hc
  have hmem : ∀ x, x ∈ hands ++ (w.produce id k).state.active ↔
      x ∈ hands ++ w.state.active ∨ x = id := by
    intro x
    rw [hactive]
    split
    · rename_i ha
      refine ⟨Or.inl, fun hx => hx.elim (fun hx => hx) ?_⟩
      rintro rfl
      exact htoken.mp ha
    · simp [or_assoc]
  refine ⟨(receives_produce.posts h.coherent hid).coherent, ?_, ?_, ?_, ?_⟩
  · rw [hactive]
    split
    · exact h.once
    · rename_i ha
      rw [← List.append_assoc, ← List.concat_eq_append]
      exact h.once.concat fun hx => ha (htoken.mpr hx)
  · intro m x c' hc'
    obtain ⟨d, hd, rfl⟩ := stands_produce.mp hc'
    rw [hmem]
    split
    · rename_i he
      simp [Context.receive, he]
    · rename_i he
      rw [h.token m x d hd]
      exact ⟨Or.inl, fun hx => hx.resolve_right he⟩
  · intro m x c' hc' hp
    obtain ⟨d, hd, rfl⟩ := stands_produce.mp hc'
    by_cases he : x = id
    · simp [he, Context.receive]
    · rw [if_neg he] at hp ⊢
      exact h.waiting m x d hd hp
  · intro x hx
    simp only [find?_produce]
    rcases (hmem x).mp hx with hx | rfl
    · exact h.known x hx
    · exact ⟨n, hid⟩

theorem Tidy.insert (h : Tidy hands w) (hn : w.state.find? n = none) :
    Tidy hands ((w.insertContext n).2.enlist w.nextId) := by
  have hst : ∀ m x c, ((w.insertContext n).2.enlist w.nextId).Stands m x c ↔
      w.Stands m x c ∨ m = n ∧ x = w.nextId ∧ c = .fresh n := fun m x c =>
    stands_insertContext h.coherent hn
  have hinsert := h.coherent.insertContext hn
  refine ⟨⟨hinsert.distinct, hinsert.rooted⟩, h.once, ?_, ?_, ?_⟩
  · intro m x c hc
    rcases (hst m x c).mp hc with hc | ⟨rfl, rfl, rfl⟩
    · exact h.token m x c hc
    · -- No context is at the new place yet.
      refine ⟨fun ha => absurd ha Bool.false_ne_true, fun hx => ?_⟩
      obtain ⟨m', hm'⟩ := h.known _ hx
      obtain ⟨c, hc, _⟩ := h.coherent.rooted m' _ hm'
      rw [context?_nextId] at hc
      cases hc
  · intro m x c hc hp
    rcases (hst m x c).mp hc with hc | ⟨rfl, rfl, rfl⟩
    · exact h.waiting m x c hc hp
    · exact absurd rfl hp
  · intro x hx
    obtain ⟨m, hm⟩ := h.known x hx
    refine ⟨m, ?_⟩
    have hfind : ((w.insertContext n).2.enlist w.nextId).state.find? m = _ := find?_insertContext
    rw [hfind, hm, Option.some_or]

theorem lasting_tidy (hands : List ContextId) : Lasting (Tidy hands) :=
  ⟨fun _ _ _ k hid h => h.produce hid k, fun _ _ hn h => h.insert hn,
    fun _ _ h => ⟨h.coherent.report _, h.once, h.token, h.waiting, h.known⟩⟩

/-! ### Hands -/

/-- A context may be taken from any place in the queue. -/
theorem Tidy.remove (h : Tidy hands w) {before after : List ContextId}
    (ha : w.state.active = before ++ id :: after) :
    Tidy (id :: hands) { w with state := { w.state with active := before ++ after } } := by
  have hperm : (id :: hands ++ (before ++ after)).Perm (hands ++ w.state.active) := by
    rw [ha]
    exact List.perm_middle.symm.trans (List.perm_middle.symm.append_left hands)
  refine ⟨⟨h.coherent.distinct, h.coherent.rooted⟩, hperm.nodup_iff.mpr h.once, ?_, h.waiting,
    fun x hx => h.known x (hperm.mem_iff.mp hx)⟩
  intro n x c hc
  exact (h.token n x c hc).trans hperm.mem_iff.symm

theorem Tidy.take (h : Tidy hands w) (ht : w.takeActive? = some (id, v)) :
    Tidy (id :: hands) v := by
  obtain ⟨rest, ha, rfl⟩ := active_of_take ht
  exact h.remove (show _ = [] ++ id :: rest from ha)

/-- A context in which nothing is pending is laid down. -/
theorem Tidy.layDown (h : Tidy hands w) (hid : id ∈ hands) (hpop : w.pop? id = none) :
    Tidy (hands.erase id) (w.setActive id false) := by
  have hone := List.nodup_append.mp h.once
  have hmem : ∀ x, x ∈ hands.erase id ++ (w.setActive id false).state.active ↔
      x ≠ id ∧ x ∈ hands ++ w.state.active := by
    intro x
    rw [state_setActive, List.mem_append, List.mem_append, hone.1.mem_erase_iff]
    refine ⟨?_, fun ⟨hne, hx⟩ => hx.imp_left fun hx => ⟨hne, hx⟩⟩
    rintro (⟨hne, hx⟩ | hx)
    · exact ⟨hne, Or.inl hx⟩
    · exact ⟨fun he => hone.2.2 _ hid _ hx he.symm, Or.inr hx⟩
  refine ⟨h.coherent.modify id fun _ _ => rfl, ?_, ?_, ?_, ?_⟩
  · exact h.once.sublist (List.erase_sublist.append_right _)
  · intro n x c' hc'
    obtain ⟨c, hc, rfl⟩ := (stands_modify _).mp hc'
    rw [hmem]
    by_cases he : x = id
    · simp [he]
    · rw [if_neg he, h.token n x c hc]
      exact ⟨fun hx => ⟨he, hx⟩, fun hx => hx.2⟩
  · intro n x c' hc' hp
    obtain ⟨c, hc, rfl⟩ := (stands_modify _).mp hc'
    by_cases he : x = id
    · rw [if_pos he] at hp
      unfold pop? at hpop
      split at hpop
      · cases hpop
      · rename_i hnone
        rw [← he, hc.2, Option.bind_some, List.head?_eq_none_iff] at hnone
        exact absurd hnone hp
    · rw [if_neg he] at hp ⊢
      exact h.waiting n x c hc hp
  · exact fun x hx => h.known x ((hmem x).mp hx).2

theorem Tidy.mark (h : Tidy hands w) : Tidy hands w.markNext.2 := by
  have hk := keeps_mark h.coherent
  refine h.of_stands hk.coherent ?_ hk.find? ?_
  · unfold markNext
    split
    · rfl
    · simp
  · intro n id c' hc'
    unfold markNext at hc'
    split at hc'
    · exact ⟨c', hc', rfl, fun h => h⟩
    · obtain ⟨c, hc, he⟩ := stands_of_markSaturated hc'
      rw [he]
      exact ⟨c, hc, rfl, fun h => h⟩

end Workspace

namespace Workshop

open Workspace

variable {s s' s₀ : Workshop} {roots : List NodeId} {w v : Workspace} {held : List ContextId}
  {id : ContextId} {root : NodeId} {k : Conclusion}

theorem tidy_process (h : Tidy held w) {σ : Type} (obs : RuleObserver σ) (timed : Bool)
    (stats : RuleStatistics) (env : σ) (hroot : w.state.find? root = some id)
    (hpop : w.pop? id = some (k, v)) :
    Tidy held (RuleRun.apply obs timed ⟨v, stats, env⟩ id k).work := by
  obtain ⟨c, rest, _, rfl, _, hv, hstate, hc, _⟩ := popped h.coherent hroot hpop
  have hpopped : Tidy held v := by
    obtain ⟨rfl, _⟩ := context?_of_pop hpop
    refine h.modify id fun c _ => ⟨rfl, rfl, fun hp he => hp ?_⟩
    simp [Context.popped, he]
  have hroot' : v.state.find? c.root = some id := by rw [hstate, hroot]
  refine (lasting_tidy held).apply obs timed ⟨v, stats, env⟩ hv hroot' hc (hpopped.modify id ?_)
  intro c' hc'
  cases hc.symm.trans hc'
  refine ⟨root_derive _ _, active_derive _ _ _, ?_⟩
  rw [Context.pending_derive]
  exact fun hp => hp

section
variable {stray : List ContextId}

theorem tidy_append_nil : Tidy (held ++ []) w ↔ Tidy held w := by
  rw [List.append_nil]

/-- Contexts that nobody has in hand, though their tokens are taken, stay so. -/
theorem tidy_step (h : Step s s') (ht : Tidy (s.hands ++ stray) s.work) :
    Tidy (s'.hands ++ stray) s'.work := by
  cases h with
  | take h => exact ht.take h
  | process obs timed stats env hid hpop =>
    obtain ⟨root, hroot⟩ := ht.known _ (List.mem_append_left _ (List.mem_append_left _ hid))
    exact tidy_process ht obs timed stats env hroot hpop
  | layDown hid hpop =>
    have hdown := ht.layDown (List.mem_append_left _ hid) hpop
    rwa [List.erase_append_left _ hid] at hdown
  | complete => exact ht
  | mark => exact ht.mark
  | report e => exact (lasting_tidy _).report _ e ht

/-- A step of the workers is a step of a schedule, or none. -/
theorem schedule_step (h : Step s s') (ht : Tidy (s.hands ++ stray) s.work) :
    s'.work = s.work ∨ Workspace.Step s.work s'.work := by
  cases h with
  | take h =>
    obtain ⟨rest, _, rfl⟩ := Workspace.active_of_take h
    exact Or.inr (.queue _)
  | process obs timed stats env hid hpop =>
    obtain ⟨root, hroot⟩ := ht.known _ (List.mem_append_left _ (List.mem_append_left _ hid))
    exact Or.inr (.process obs timed stats env hroot hpop)
  | layDown => exact Or.inr (.token _ false)
  | complete => exact Or.inl rfl
  | mark => exact Or.inr .mark
  | report e => exact Or.inr (.report e)

theorem tidy_submit (ht : Tidy held w) {σ : Type} (obs : RuleObserver σ)
    (stats : RuleStatistics) (env : σ) (root : NodeId) :
    Tidy held (RuleRun.submit obs ⟨w, stats, env⟩ root).2.work :=
  (lasting_tidy held).obtain obs ⟨w, stats, env⟩ ht root

/-- A run of the workers is a run of a schedule, and keeps the contexts tidy. -/
theorem schedule_runs (h₀ : Tidy (s₀.hands ++ stray) s₀.work) (h : Runs s₀ roots s) :
    Workspace.Runs s₀.work roots s.work ∧ Tidy (s.hands ++ stray) s.work := by
  induction h with
  | start => exact ⟨.start, h₀⟩
  | submit obs stats env _ root hr ih =>
    exact ⟨ih.1.submit obs stats env root hr, tidy_submit ih.2 obs stats env root⟩
  | step _ hs ih =>
    refine ⟨?_, tidy_step hs ih.2⟩
    rcases schedule_step hs ih.2 with he | hstep
    · exact he ▸ ih.1
    · exact ih.1.step hstep

end

/-! ### The engine of one worker -/

section
variable {σ : Type} {obs : RuleObserver σ} {timed : Bool} {r : RuleRun σ} {n : NodeId}

/-- A pass of the engine is a run of the workers; it may leave a context in hand if its fuel does
not suffice. -/
theorem runs_loop {ready : Nat} (fuel : Nat) (hand : Option ContextId)
    (h : Runs s₀ roots ⟨r.work, hand.toList, ready⟩) : ∃ hand' : Option ContextId,
    Runs s₀ roots ⟨(RuleRun.loop obs timed fuel hand r).2.work, hand'.toList, ready⟩ := by
  induction fuel generalizing hand r with
  | zero => exact ⟨hand, h⟩
  | succ fuel ih =>
    cases hand with
    | some id =>
      rw [RuleRun.loop]
      split
      · rename_i k v hpop
        exact ih (some id)
          (h.step (.process obs timed r.stats r.env (List.mem_singleton_self id) hpop))
      · rename_i hpop
        have hdown := h.step (.layDown (List.mem_singleton_self id) hpop)
        rw [show (some id).toList.erase id = [] by simp] at hdown
        exact ih none hdown
    | none =>
      rw [RuleRun.loop]
      split
      · exact ⟨none, h⟩
      · split
        · exact ⟨none, h⟩
        · exact ih (some _) (h.step (.take ‹_›))

/-- Nothing is in hand if all contexts whose tokens are taken are stray or wait in the queue. -/
theorem hand_eq_none {hand : Option ContextId} {stray : List ContextId}
    (ht : Tidy (hand.toList ++ stray) w)
    (h : ∀ x ∈ w.state.contexts, ∀ c ∈ w.context? x.2, c.active = true →
      x.2 ∈ stray ++ w.state.active) : hand = none := by
  cases hand with
  | none => rfl
  | some id =>
    have hid : id ∈ (some id).toList ++ stray ++ w.state.active := List.mem_cons_self
    obtain ⟨n, hn⟩ := ht.known id hid
    obtain ⟨c, hc, _⟩ := ht.coherent.rooted n id hn
    obtain ⟨l₁, l₂, hl, _⟩ := List.lookup_eq_some_iff.mp hn
    have hqueued := h (n, id) (by simp [hl]) c hc ((ht.token n id c ⟨hn, hc⟩).mpr hid)
    exact absurd hqueued (List.nodup_cons.mp ht.once).1

/-- One more root and a pass of one worker; the flag is found set when it has been polled `polls`
times before. -/
def pass (w : Workspace) (root : NodeId) (polls : Nat) : Workspace :=
  let obs : RuleObserver Nat := ⟨fun e => (e == 0, e - 1), fun _ e => e⟩
  (RuleRun.process obs false (RuleRun.submit obs ⟨w, .zero, polls⟩ root).2).2.work

theorem runs_of_pass {ready polls : Nat} {stray : List ContextId}
    (h₀ : Tidy (s₀.hands ++ stray) s₀.work)
    (h : Runs s₀ roots ⟨w, [], ready⟩)
    (hr : root.index < w.state.ontology.size)
    (hidle : ∀ x ∈ (pass w root polls).state.contexts, ∀ c ∈ (pass w root polls).context? x.2,
      c.active = true → x.2 ∈ stray ++ (pass w root polls).state.active) :
    Runs s₀ (root :: roots) ⟨pass w root polls, [], ready⟩ := by
  have hsubmit := h.submit ⟨fun e => (e == 0, e - 1), fun _ e => e⟩ .zero polls root hr
  obtain ⟨hand, hrun⟩ := runs_loop _ none hsubmit
  have hnone : hand = none := hand_eq_none (schedule_runs h₀ hrun).2 hidle
  subst hnone
  exact hrun

end

end Workshop

end Subsumption
