import Subsumption.Proofs.Sharing
import Subsumption.Proofs.Workshop

/-! Going on after an interruption. What was marked saturated before the workers were stopped goes
over to a new state, and no conclusion is lost there, unless the token of a context that is shared
was taken when they were stopped. -/
namespace Subsumption

open Ontology

/-! ### Marks -/

namespace Workspace

variable {w v : Workspace} {n : NodeId} {id : ContextId} {c : Context} {b : Board} {k : Nat}
  {o : Ontology} {invalidated : List NodeId} {calls : List Call}

/-- The contexts that are marked, and the first `k` of those that wait for it, are of roots of the
board. -/
structure Marks (b : Board) (k : Nat) (w : Workspace) : Prop where
  coherent : w.Coherent
  saturated : ∀ n id c, w.Stands n id c → c.saturated = true → b.Hosts n
  known : ∀ id ∈ w.state.unsaturated, ∃ n, w.state.find? n = some id
  next : ∀ id ∈ w.state.unsaturated.take k, ∃ n, w.state.find? n = some id ∧ b.Hosts n
  bound : k ≤ w.state.unsaturated.length

theorem hosts_of_find? (hw : w.Coherent) (hn : w.state.find? n = some id) :
    Board.Hosts w.contextOf? n := by
  obtain ⟨c, hc, _⟩ := hw.rooted n id hn
  rw [Board.Hosts, contextOf?_eq hn, hc]
  exact Option.some_ne_none c

/-- All contexts may be marked that there are. -/
theorem marks_all (hw : w.Coherent)
    (hk : ∀ id ∈ w.state.unsaturated, ∃ n, w.state.find? n = some id) :
    Marks w.contextOf? w.state.unsaturated.length w := by
  refine ⟨hw, fun n id c hc _ => hosts_of_find? hw hc.1, hk, ?_, Nat.le_refl _⟩
  rw [List.take_length]
  exact fun id hid => (hk id hid).imp fun n hn => ⟨hn, hosts_of_find? hw hn⟩

theorem Marks.of_stands (h : Marks b k w) (hv : v.Coherent)
    (hu : v.state.unsaturated = w.state.unsaturated)
    (hfind : ∀ n id, w.state.find? n = some id → v.state.find? n = some id)
    (hst : ∀ n id c', v.Stands n id c' → ∃ c, w.Stands n id c ∧ c'.saturated = c.saturated) :
    Marks b k v := by
  refine ⟨hv, ?_, ?_, ?_, hu ▸ h.bound⟩
  · intro n id c' hc' hs
    obtain ⟨c, hc, he⟩ := hst n id c' hc'
    exact h.saturated n id c hc (he ▸ hs)
  · rw [hu]
    exact fun id hid => (h.known id hid).imp fun n hn => hfind n id hn
  · rw [hu]
    exact fun id hid => (h.next id hid).imp fun n hn => ⟨hfind n id hn.1, hn.2⟩

theorem Marks.modify (h : Marks b k w) (id : ContextId) {f : Context → Context}
    (hf : ∀ c, w.context? id = some c → (f c).root = c.root ∧ (f c).saturated = c.saturated) :
    Marks b k (w.modify id f) := by
  refine h.of_stands (h.coherent.modify id fun c hc => (hf c hc).1) rfl (fun _ _ h => h) ?_
  intro n x c' hc'
  obtain ⟨c, hc, rfl⟩ := (stands_modify f).mp hc'
  refine ⟨c, hc, ?_⟩
  split
  · rename_i he
    exact (hf c (he ▸ hc.2)).2
  · rfl

theorem Marks.insert (h : Marks b k w) (hn : w.state.find? n = none) :
    Marks b k ((w.insertContext n).2.enlist w.nextId) := by
  have hinsert := h.coherent.insertContext hn
  have hfind : ∀ m, ((w.insertContext n).2.enlist w.nextId).state.find? m =
      (w.state.find? m).or (if m = n then some w.nextId else none) := fun m => find?_insertContext
  have hold : ∀ m id, w.state.find? m = some id →
      ((w.insertContext n).2.enlist w.nextId).state.find? m = some id := by
    intro m id hm
    rw [hfind, hm, Option.some_or]
  have hunsaturated : ((w.insertContext n).2.enlist w.nextId).state.unsaturated =
      w.state.unsaturated ++ [w.nextId] := rfl
  refine ⟨⟨hinsert.distinct, hinsert.rooted⟩, ?_, ?_, ?_, ?_⟩
  · intro m id c hc hs
    rcases (stands_insertContext h.coherent hn).mp hc with hc | ⟨rfl, rfl, rfl⟩
    · exact h.saturated m id c hc hs
    · cases hs
  · intro id hid
    rcases List.mem_append.mp (hunsaturated ▸ hid) with hid | hid
    · exact (h.known id hid).imp fun m hm => hold m id hm
    · refine ⟨n, ?_⟩
      rw [List.mem_singleton.mp hid, hfind, hn, Option.none_or, if_pos rfl]
  · intro id hid
    rw [hunsaturated, List.take_append_of_le_length h.bound] at hid
    exact (h.next id hid).imp fun m hm => ⟨hold m id hm.1, hm.2⟩
  · rw [hunsaturated, List.length_append]
    exact Nat.le_trans h.bound (Nat.le_add_right _ _)

theorem lasting_marks (b : Board) (k : Nat) : Lasting (Marks b k) := by
  refine ⟨?_, fun _ _ hn h => h.insert hn,
    fun _ _ h => ⟨h.coherent.report _, h.saturated, h.known, h.next, h.bound⟩⟩
  intro w n id l hid h
  have hr : Receives w (w.produce id l) id [l] := receives_produce
  refine h.of_stands (hr.posts h.coherent hid).coherent hr.unsaturated
    (hr.posts h.coherent hid).find? ?_
  intro m x c' hc'
  obtain ⟨c, hc, rfl⟩ := stands_produce.mp hc'
  refine ⟨c, hc, ?_⟩
  split <;> rfl

/-- The context that is marked next is one of them. -/
theorem Marks.mark (h : Marks b (k + 1) w) : Marks b k w.markNext.2 := by
  cases hu : w.state.unsaturated with
  | nil =>
    have hb := h.bound
    rw [hu] at hb
    cases hb
  | cons id rest =>
    have hk := keeps_mark h.coherent
    have hmark : w.markNext.2 = Workspace.markSaturated
        { w with state := { w.state with unsaturated := rest } } id := by
      rw [markNext, hu]
    have hrest : w.markNext.2.state.unsaturated = rest := by rw [hmark, state_markSaturated]
    obtain ⟨m, hm, hhost⟩ := h.next id (by rw [hu]; exact List.mem_cons_self)
    refine ⟨hk.coherent, ?_, ?_, ?_, ?_⟩
    · intro n x c' hc' hs
      rw [hmark] at hc'
      rcases saturated_of_markSaturated hc' hs with ⟨c, hc, hs⟩ | ⟨rfl, hn⟩
      · exact h.saturated n x c hc hs
      · exact h.coherent.find?_inj hm hn ▸ hhost
    · rw [hrest]
      intro x hx
      have hx : x ∈ w.state.unsaturated := hu ▸ List.mem_cons_of_mem id hx
      exact (h.known x hx).imp fun n hn => hk.find? n x hn
    · rw [hrest]
      intro x hx
      have hx : x ∈ w.state.unsaturated.take (k + 1) := by
        rw [hu, List.take_succ_cons]
        exact List.mem_cons_of_mem id hx
      exact (h.next x hx).imp fun n hn => ⟨hk.find? n x hn.1, hn.2⟩
    · have hb := h.bound
      rw [hu, List.length_cons] at hb
      rw [hrest]
      exact Nat.le_of_succ_le_succ hb

theorem Marks.process (h : Marks b k w) {σ : Type} (obs : RuleObserver σ) (timed : Bool)
    (stats : RuleStatistics) (env : σ) {root : NodeId} {l : Conclusion}
    (hroot : w.state.find? root = some id) (hpop : w.pop? id = some (l, v)) :
    Marks b k (RuleRun.apply obs timed ⟨v, stats, env⟩ id l).work := by
  obtain ⟨c, rest, _, rfl, _, hv, hstate, hc, _⟩ := popped h.coherent hroot hpop
  have hpopped : Marks b k v := by
    unfold pop? at hpop
    split at hpop <;> cases hpop
    exact h.modify id fun _ _ => ⟨rfl, rfl⟩
  have hroot' : v.state.find? c.root = some id := by rw [hstate, hroot]
  refine (lasting_marks b k).apply obs timed ⟨v, stats, env⟩ hv hroot' hc (hpopped.modify id ?_)
  intro c' hc'
  cases hc.symm.trans hc'
  exact ⟨root_derive _ _, saturated_derive _ _⟩

end Workspace

namespace Workshop

open Workspace

variable {s s' : Workshop} {roots : List NodeId} {b b₀ : Board} {o : Ontology} {w : Workspace}

/-- Unless all there is is found complete, what may be marked is left alone. -/
theorem marks_step (h : Step s s') (ht : Tidy s.hands s.work)
    (hm : Marks b s.complete s.work) :
    Marks b s'.complete s'.work ∨
      s.hands = [] ∧ s.work.state.active = [] ∧ s'.work = s.work ∧
        s'.complete = s.work.state.unsaturated.length := by
  cases h with
  | take h =>
    obtain ⟨rest, _, rfl⟩ := active_of_take h
    exact Or.inl ⟨⟨hm.coherent.distinct, hm.coherent.rooted⟩, hm.saturated, hm.known, hm.next,
      hm.bound⟩
  | process obs timed stats env hid hpop =>
    obtain ⟨root, hroot⟩ := ht.known _ (List.mem_append_left _ hid)
    exact Or.inl (hm.process obs timed stats env hroot hpop)
  | layDown => exact Or.inl (hm.modify _ fun _ _ => ⟨rfl, rfl⟩)
  | complete hh ha => exact Or.inr ⟨hh, ha, rfl, rfl⟩
  | mark h => exact Or.inl (Marks.mark (h ▸ hm))
  | report e => exact Or.inl ((lasting_marks b s.complete).report _ e hm)

/-! ### At any moment -/

/-- The workers have gone on from the board `b₀`, and only contexts are marked, or may be, that were
there when nothing was pending at last. -/
structure Sound (o : Ontology) (b₀ : Board) (s : Workshop) : Prop where
  ontology : s.work.state.ontology = o
  tidy : Tidy s.hands s.work
  resumed : Board.Resumed o b₀ s.work.contextOf?
  rested : ∃ b, (∀ n c, b n = some c → c.pending = []) ∧ Board.Resumed o b₀ b ∧
    Board.Frozen b s.work.contextOf? ∧ Marks b s.complete s.work

theorem sound_step (ho : o.Attached) (hc : o.Closed) (hs : Sound o b₀ s) (h : Step s s') :
    Sound o b₀ s' := by
  have htidy := tidy_append_nil.mpr hs.tidy
  obtain ⟨b, hq, hb, hf, hm⟩ := hs.rested
  have hgo : s'.work.state.ontology = o ∧ Board.Resumed o b₀ s'.work.contextOf? ∧
      Board.Frozen b s'.work.contextOf? := by
    rcases schedule_step h htidy with he | hstep
    · rw [he]
      exact ⟨hs.ontology, hs.resumed, hf⟩
    · have hmove := move_step hs.tidy.coherent hstep
      rw [hs.ontology] at hmove
      exact ⟨(keeps_step hs.tidy.coherent hstep).ontology.trans hs.ontology,
        Board.resumed_move ho hc hmove hs.resumed, Board.frozen_move hmove hf⟩
  refine ⟨hgo.1, tidy_append_nil.mp (tidy_step h htidy), hgo.2.1, ?_⟩
  rcases marks_step h hs.tidy hm with hm' | ⟨hh, ha, he, hcomplete⟩
  · exact ⟨b, hq, hb, hgo.2.2, hm'⟩
  · -- Nothing is pending now, so that all contexts are complete.
    have hquiet : s.work.Quiet := Tidy.quiet (hh ▸ hs.tidy) ha
    rw [he, hcomplete]
    exact ⟨s.work.contextOf?, hquiet, hs.resumed, Board.frozen_refl hquiet,
      marks_all hs.tidy.coherent hm.known⟩

theorem sound_submit (ho : o.Attached) (hc : o.Closed) (hs : Sound o b₀ s) {σ : Type}
    (obs : RuleObserver σ) (stats : RuleStatistics) (env : σ) {root : NodeId}
    (hr : root.index < s.work.state.ontology.size) :
    Sound o b₀ { s with work := (RuleRun.submit obs ⟨s.work, stats, env⟩ root).2.work } := by
  have hmove := move_submit hs.tidy.coherent obs stats env hr
  rw [hs.ontology] at hmove
  have hp := (posts_obtain obs ⟨s.work, stats, env⟩ hs.tidy.coherent root).1
  obtain ⟨b, hq, hb, hf, hm⟩ := hs.rested
  exact ⟨hp.ontology.trans hs.ontology, tidy_submit hs.tidy obs stats env root,
    Board.resumed_move ho hc hmove hs.resumed, b, hq, hb, Board.frozen_move hmove hf,
    (lasting_marks b s.complete).obtain obs ⟨s.work, stats, env⟩ hm root⟩

theorem sound_runs {s₀ : Workshop} (ho : o.Attached) (hc : o.Closed) (hs : Sound o b₀ s₀)
    (h : Runs s₀ roots s) : Sound o b₀ s := by
  induction h with
  | start => exact hs
  | submit obs stats env _ root hr ih => exact sound_submit ho hc ih obs stats env hr
  | step _ hstep ih => exact sound_step ho hc ih hstep

end Workshop

namespace Workspace

variable {w v t : Workspace} {roots others : List NodeId} {n : NodeId} {s : Workshop} {o : Ontology}
  {invalidated : List NodeId} {calls : List Call} {b₀ : Board} {k : Nat}

/-- Nothing has been done since all was known about the contexts that there are. -/
structure Ready (o : Ontology) (w : Workspace) : Prop where
  ontology : w.state.ontology = o
  tidy : Tidy [] w
  quiet : w.Quiet
  resumed : Board.Resumed o w.contextOf? w.contextOf?
  unsaturated : w.state.unsaturated = []

theorem Ready.sound (h : Ready o w) : Workshop.Sound o w.contextOf? (.idle w) := by
  have hm := marks_all h.tidy.coherent (by rw [h.unsaturated]; simp)
  rw [h.unsaturated] at hm
  exact ⟨h.ontology, h.tidy, h.resumed, w.contextOf?, h.quiet, h.resumed,
    Board.frozen_refl h.quiet, hm⟩

theorem ready_new (hw : w.state = State.new o) : Ready o w := by
  refine ⟨by rw [hw]; rfl, tidy_new hw, ?_, ?_, by rw [hw]; rfl⟩
  · intro n c hc
    rw [contextOf?_new hw] at hc
    cases hc
  · rw [contextOf?_new hw]
    exact Board.resumed_empty

/-- No context that the new state shares with this one has its token taken. -/
def SharesIdle (w : Workspace) (invalidated : List NodeId) : Prop :=
  ∀ n c, w.contextOf? n = some c → n ∈ w.keptRoots invalidated →
    c.sourcesWithin (w.keptRoots invalidated) = true → c.active = false

/-- Contexts that go over are idle then, since copies are. -/
theorem idle_resubmission (hw : Tidy [] w) (hidle : w.SharesIdle invalidated) {c' : Context}
    (hc' : (w.resubmission o invalidated).contextOf? n = some c') :
    c'.active = false ∧ c'.pending = [] := by
  rw [hw.coherent.contextOf?_resubmission] at hc'
  split at hc'
  · rename_i hn
    obtain ⟨c, hc, rfl⟩ := Option.map_eq_some_iff.mp hc'
    obtain ⟨id, hid, hcontext⟩ := Option.bind_eq_some_iff.mp hc
    unfold Context.pruned Context.withoutSources?
    split
    · have ha := hidle n c hc hn ‹_›
      refine ⟨ha, ?_⟩
      by_contra hp
      have htaken := hw.waiting n id c ⟨hid, hcontext⟩ hp
      rw [ha] at htaken
      cases htaken
    · exact ⟨rfl, rfl⟩
  · cases hc'

/-- A state that is made when nobody has a context in hand can be gone on from. -/
theorem ready_resubmission (ho : o.Interned) (hc : o.Closed)
    (hs : Workshop.Sound o b₀ ⟨w, [], k⟩) (hidle : w.SharesIdle invalidated) :
    Ready o (w.resubmission o invalidated) := by
  have hw := hs.tidy.coherent
  have hpassive : ∀ n c, (w.resubmission o invalidated).contextOf? n = some c →
      c.active = false ∧ c.pending = [] := fun n c => idle_resubmission hs.tidy hidle
  have hquiet : (w.resubmission o invalidated).Quiet := fun n c hc => (hpassive n c hc).2
  obtain ⟨b, hq, hb, hf, hm⟩ := hs.rested
  refine ⟨rfl, ⟨hw.resubmission, List.nodup_nil, ?_, ?_, ?_⟩, hquiet, ?_, rfl⟩
  · intro n id c hst
    have ha := (hpassive n c ((contextOf?_eq hst.1).trans hst.2)).1
    rw [ha]
    exact ⟨fun h => absurd h Bool.false_ne_true, fun h => absurd h List.not_mem_nil⟩
  · intro n id c hst hp
    exact absurd (hpassive n c ((contextOf?_eq hst.1).trans hst.2)).2 hp
  · intro id hid
    cases hid
  · refine Board.resumed_kept hq hf ?_ (fun n => hw.contextOf?_resubmission) ho hc hb hquiet
    intro n hn
    obtain ⟨c, hcn, hsat⟩ := (hw.mem_keptRoots.mp hn).2
    obtain ⟨id, hid, hcontext⟩ := Option.bind_eq_some_iff.mp hcn
    exact hm.saturated n id c ⟨hid, hcontext⟩ hsat

/-! ### Interruptions -/

/-- The workspaces that runs lead to when no worker has a context in hand, whether the runs are
complete or the flag has stopped them: in a new state, or in a state made from such a workspace. -/
inductive Paused (calls : List Call) : Workspace → Prop
  | fresh {w v : Workspace} {roots : List NodeId} {k : Nat} (hw : w.state = State.new (after calls))
    (h : Workshop.Runs (.idle w) roots ⟨v, [], k⟩) : Paused calls v
  | again {w v : Workspace} {invalidated roots : List NodeId} {k : Nat} (hw : Paused calls w)
    (hidle : w.SharesIdle invalidated)
    (h : Workshop.Runs (.idle (w.resubmission (after calls) invalidated)) roots ⟨v, [], k⟩) :
    Paused calls v

theorem Paused.sound (h : Paused calls w) :
    ∃ b₀ k, Workshop.Sound (after calls) b₀ ⟨w, [], k⟩ := by
  have ho := attached_after calls
  have hc := closed_after calls
  induction h with
  | fresh hw h => exact ⟨_, _, Workshop.sound_runs ho hc (ready_new hw).sound h⟩
  | again _ hidle h ih =>
    obtain ⟨b₀, k, hs⟩ := ih
    have hready := ready_resubmission (interned_after calls) hc hs hidle
    exact ⟨_, _, Workshop.sound_runs ho hc hready.sound h⟩

/-- A state is made after an interruption, with any roots starting over. If no context that it
shares has its token taken, then none that goes over has; whatever is pending later waits in the
queue or is in hand; and once the runs on the new state are complete, the same has been found out
about every root as on a new state over the ontology. -/
theorem nothing_lost_by_resubmission (hw : Paused calls w) (hidle : w.SharesIdle invalidated)
    (hs : Workshop.Runs (.idle (w.resubmission (after calls) invalidated)) roots s) :
    (∀ n c, (w.resubmission (after calls) invalidated).contextOf? n = some c →
      c.active = false) ∧
    (∀ n id c, s.work.Stands n id c → c.pending ≠ [] → id ∈ s.hands ++ s.work.state.active) ∧
    (s.hands = [] → s.work.state.active = [] → ∀ n ∈ roots, ∀ t others v,
      t.state = State.new (after calls) → Runs t others v → v.Quiet → n ∈ others →
      ∃ c d, s.work.contextOf? n = some c ∧ v.contextOf? n = some d ∧ SameFindings c d) := by
  have ho := attached_after calls
  have hclosed := closed_after calls
  have hi := interned_after calls
  obtain ⟨b₀, k, hpaused⟩ := hw.sound
  have hready := ready_resubmission hi hclosed hpaused hidle
  have hsound := Workshop.sound_runs ho hclosed hready.sound hs
  refine ⟨fun n c hc => (idle_resubmission hpaused.tidy hidle hc).1, ?_, ?_⟩
  · intro n id c hst hp
    exact (hsound.tidy.token n id c hst).mp (hsound.tidy.waiting n id c hst hp)
  · intro hh ha n hn t others v ht hv hq hn'
    have hquiet : s.work.Quiet := Tidy.quiet (hh ▸ hsound.tidy) ha
    have hruns := (Workshop.schedule_runs (Workshop.tidy_append_nil.mpr hready.tidy) hs).1
    obtain ⟨id, hid⟩ := submitted_runs hready.tidy.coherent hruns n hn
    obtain ⟨c, hc, _⟩ := hsound.tidy.coherent.rooted n id hid
    have hc : s.work.contextOf? n = some c := (contextOf?_eq hid).trans hc
    have hexact := hsound.resumed.resolved.exact_of_quiet hi hclosed hquiet hc
    obtain ⟨d, hd, hsame⟩ := sameFindings_of_exact hexact ht hv hq hn'
    exact ⟨c, d, hc, hd, hsame⟩

/-! ### A pass that is stopped -/

open Workshop

theorem tidy_of_contexts {hands : List ContextId} (hw : w.Coherent)
    (honce : (hands ++ w.state.active).Nodup)
    (hcontexts : ∀ x ∈ w.state.contexts, ∀ c ∈ w.context? x.2,
      (c.active = true ↔ x.2 ∈ hands ++ w.state.active) ∧ (c.pending ≠ [] → c.active = true))
    (hknown : ∀ id ∈ hands ++ w.state.active, ∃ x ∈ w.state.contexts, x.2 = id) :
    Tidy hands w := by
  have hstands : ∀ n id c, w.Stands n id c →
      (c.active = true ↔ id ∈ hands ++ w.state.active) ∧ (c.pending ≠ [] → c.active = true) := by
    intro n id c hst
    obtain ⟨l₁, l₂, hl, _⟩ := List.lookup_eq_some_iff.mp hst.1
    exact hcontexts (n, id) (by simp [hl]) c hst.2
  refine ⟨hw, honce, fun n id c hst => (hstands n id c hst).1,
    fun n id c hst => (hstands n id c hst).2, ?_⟩
  intro id hid
  obtain ⟨x, hx, rfl⟩ := hknown id hid
  exact ⟨x.1, lookup_of_mem hw.distinct hx⟩

/-- B has been run to completion over A ⊑ ∃r.B, B ⊑ C and ∃r.C ⊑ D, and its context is marked. -/
def fillerMarked : Workspace := (pass (start (after throughFiller)) ⟨3⟩ 9).markNext.2

theorem tidy_start : Tidy ([] ++ []) (start (after throughFiller)) := (ready_new rfl).tidy

theorem runs_fillerMarked :
    Workshop.Runs (.idle (start (after throughFiller))) [⟨3⟩] ⟨fillerMarked, [], 0⟩ := by
  have hpass : Workshop.Runs (.idle (start (after throughFiller))) [⟨3⟩]
      ⟨pass (start (after throughFiller)) ⟨3⟩ 9, [], 0⟩ :=
    runs_of_pass tidy_start .start (by decide +kernel) (by decide +kernel)
  have hcomplete := hpass.step (.complete rfl (by decide +kernel))
  exact hcomplete.step (.mark (by decide +kernel))

/-- The flag is set before the context of A is taken, and a new state is made. -/
def stoppedBefore : Workspace := pass fillerMarked ⟨2⟩ 0

def resumedBefore : Workspace :=
  pass (stoppedBefore.resubmission (after throughFiller) []) ⟨2⟩ 9

/-- The conclusions of A are still queued when the pass is stopped, and the context of B goes over
as it is. -/
theorem nothing_lost_by_resubmission_throughFiller : Paused throughFiller stoppedBefore ∧
    stoppedBefore.SharesIdle [] ∧
    Workshop.Runs (.idle (stoppedBefore.resubmission (after throughFiller) [])) [⟨2⟩]
      ⟨resumedBefore, [], 0⟩ ∧
    ∃ c d, resumedBefore.contextOf? ⟨2⟩ = some c ∧
      (saturate (start (after throughFiller)) ⟨2⟩).contextOf? ⟨2⟩ = some d ∧ SameFindings c d := by
  have hpaused : Paused throughFiller stoppedBefore :=
    .fresh rfl (runs_of_pass tidy_start runs_fillerMarked (by decide +kernel) (by decide +kernel))
  have hidle : stoppedBefore.SharesIdle [] := fun n c => forall_contexts (P := fun n c =>
    n ∈ stoppedBefore.keptRoots [] → c.sourcesWithin (stoppedBefore.keptRoots []) = true →
      c.active = false) (by decide +kernel)
  obtain ⟨b₀, k, hs⟩ := hpaused.sound
  have hready := ready_resubmission (interned_after _) (closed_after _) hs hidle
  have hrun : Workshop.Runs (.idle (stoppedBefore.resubmission (after throughFiller) [])) [⟨2⟩]
      ⟨resumedBefore, [], 0⟩ :=
    runs_of_pass (tidy_append_nil.mpr hready.tidy) .start (by decide +kernel) (by decide +kernel)
  have hsame := (nothing_lost_by_resubmission hpaused hidle hrun).2.2 rfl (by decide +kernel) ⟨2⟩
    List.mem_cons_self _ _ _ rfl (runs_saturate_start (by decide +kernel))
    (quiet_of_store (by decide +kernel)) List.mem_cons_self
  exact ⟨hpaused, hidle, hrun, hsame⟩

/-- The flag is set after the context of A has been drained, before that of B is taken. -/
def stoppedBetween : Workspace := pass fillerMarked ⟨2⟩ 1

def resumedBetween : Workspace :=
  pass (stoppedBetween.resubmission (after throughFiller) []) ⟨2⟩ 9

/-- The context of B goes over with its token taken, though no queue holds it. The link that A sends
there is not processed, and D is not found to subsume A. -/
theorem lost_resumedBetween : Paused throughFiller stoppedBetween ∧
    (∃ c, (stoppedBetween.resubmission (after throughFiller) []).contextOf? ⟨3⟩ = some c ∧
      c.active = true) ∧
    (stoppedBetween.resubmission (after throughFiller) []).state.active = [] ∧
    Workshop.Runs (.idle (stoppedBetween.resubmission (after throughFiller) [])) [⟨2⟩]
      ⟨resumedBetween, [], 0⟩ ∧ resumedBetween.state.active = [] ∧ ¬ resumedBetween.Quiet ∧
    ∃ c d, resumedBetween.contextOf? ⟨2⟩ = some c ∧
      (saturate (start (after throughFiller)) ⟨2⟩).contextOf? ⟨2⟩ = some d ∧
        c.inconsistent = false ∧ ¬ SameFindings c d := by
  have hpaused : Paused throughFiller stoppedBetween :=
    .fresh rfl (runs_of_pass tidy_start runs_fillerMarked (by decide +kernel) (by decide +kernel))
  obtain ⟨b₀, k, hs⟩ := hpaused.sound
  have htidy : Tidy ([] ++ [⟨0⟩]) (stoppedBetween.resubmission (after throughFiller) []) :=
    tidy_of_contexts hs.tidy.coherent.resubmission (by decide +kernel) (by decide +kernel)
      (by decide +kernel)
  have hrun : Workshop.Runs (.idle (stoppedBetween.resubmission (after throughFiller) [])) [⟨2⟩]
      ⟨resumedBetween, [], 0⟩ := runs_of_pass htidy .start (by decide +kernel) (by decide +kernel)
  have htaken : ((stoppedBetween.resubmission (after throughFiller) []).contextOf? ⟨3⟩).map
      (·.active) = some true := by decide +kernel
  have hpending : (resumedBetween.contextOf? ⟨3⟩).map (·.pending.isEmpty) = some false := by
    decide +kernel
  have hmissing : (resumedBetween.contextOf? ⟨2⟩).map
      (fun c => (c.inconsistent, decide (⟨7⟩ ∈ c.facts.subsumers))) = some (false, false) := by
    decide +kernel
  have hfound : ((saturate (start (after throughFiller)) ⟨2⟩).contextOf? ⟨2⟩).map
      (fun c => decide (⟨7⟩ ∈ c.facts.subsumers)) = some true := by
    decide +kernel
  obtain ⟨b, hb, hactive⟩ := Option.map_eq_some_iff.mp htaken
  refine ⟨hpaused, ⟨b, hb, hactive⟩, by decide +kernel, hrun, by decide +kernel, ?_, ?_⟩
  · intro hq
    obtain ⟨c, hc, hp⟩ := Option.map_eq_some_iff.mp hpending
    rw [hq _ c hc] at hp
    cases hp
  · obtain ⟨c, hc, hnone⟩ := Option.map_eq_some_iff.mp hmissing
    obtain ⟨d, hd, hsome⟩ := Option.map_eq_some_iff.mp hfound
    rw [Prod.mk.injEq, decide_eq_false_iff_not] at hnone
    rw [decide_eq_true_eq] at hsome
    exact ⟨c, d, hc, hd, hnone.1, fun h => hnone.2 ((h.subsumers hnone.1 ⟨7⟩).mpr hsome)⟩

end Workspace

end Subsumption
