import Subsumption.Proofs.Resaturation
import Subsumption.Proofs.Worker.Reading

/-! Stopped calls, and the order in which the relations of links are come to. In one order, all is as
if there had been one call only. In another order, contexts may be taken more or less often, and one
that is found inconsistent may know something else by then; but the jobs that notice is given of,
and what is found out about each root, are the same in every order. -/
namespace Subsumption

open Workspace Ontology

variable {α σ : Type}

/-- What a job asks for, whatever its output. -/
def Job.request (j : Job α) : NodeId × α := (j.root, j.payload)

/-- The requests that notice has been given of, one by one. -/
def Notices.requests (l : Notices α) : List (NodeId × α) := l.map fun p => p.1.request

namespace Workspace

/-- The same contexts, with the relations of their links come to in another order. -/
def laidOut (order : Layout) (w : Workspace) : Workspace := { w with layout := order }

variable {w : Workspace} {o : Ontology}

theorem Still.laidOut (h : w.Still) (order : Layout) : (w.laidOut order).Still :=
  ⟨⟨h.quiet, h.saturated⟩, ⟨h.coherent.distinct, h.coherent.rooted⟩, h.active, h.free,
    h.unsaturated⟩

theorem Sane.laidOut (h : Sane o w) (order : Layout) : Sane o (w.laidOut order) :=
  ⟨h.ontology, ⟨h.coherent.distinct, h.coherent.rooted⟩, h.supported, h.settled⟩

end Workspace

/-- The same saturation, with the relations of links come to in another order. -/
def Saturation.laidOut (order : Layout) (s : Saturation α σ) : Saturation α σ :=
  { s with work := s.work.laidOut order }

namespace Worker

open JobObserver Saturation

section
variable {obs : JobObserver α σ} {s : Saturation α (σ × Notices α)} {w v : Worker α (σ × Notices α)}
  {e e₀ : σ} {ids : List JobId} {calls : List Call} {threshold : Nat} {timed : Bool}

theorem shared_engaged (s : Saturation α σ) (ids : List JobId) : (engaged s ids).shared =
    { s with desk := { s.desk with toDo := s.desk.toDo ++ ids } } := by
  have hsubmits : ∀ w : Worker α σ, (ids.foldl submit w).shared =
      { w.shared with desk := { w.shared.desk with toDo := w.shared.desk.toDo ++ ids } } := by
    induction ids with
    | nil => simp
    | cons id rest ih =>
      intro w
      rw [List.foldl_cons, ih]
      simp [submit, pushToDo]
  exact hsubmits (new s)

/-- Calls keep what a worker keeps, as far as the surroundings do not matter. -/
theorem Calls.kept {P : Saturation α (σ × Notices α) → Prop} (hP : Kept obs.recording P)
    (henv : ∀ s e, P s → P { s with env := (e, s.env.2) }) (h : Calls obs w v)
    (hw : P w.shared) : P v.shared := by
  induction h with
  | none => exact hw
  | call _ _ ih => exact hP.process (henv _ _ ih)

theorem kept_requests (obs : JobObserver α σ) (s : Saturation α σ) : Kept obs fun t =>
    ∀ id, (t.job? id).map Job.request = (s.job? id).map Job.request where
  desk _ _ h := h
  mark _ h := h
  report _ _ h := h
  output t id j c hj _ h := fun x => by
    rw [← h x, job?_giveOutput hj]
    split
    · rename_i hx
      rw [hx, hj]
      rfl
    · rfl
  finished _ _ _ h := h
  poll _ h := h
  pass _ h := h
  submit _ _ h := h

/-- After any calls over contexts at rest and one that the flag does not stop, what the rules say
about each root has been found out. -/
theorem exact_of_calls (hs : s.desk = .new threshold timed) (hsane : Sane (after calls) s.work)
    (hw : s.work.Still) (hroots : ∀ j ∈ s.jobs.toList, j.root.index < (after calls).size)
    (h : Calls obs (engaged s ids) v) (he : obs.Lowered e) {n : NodeId} {c : Context}
    (hc : ((v.surrounded e).process obs.recording).2.shared.work.contextOf? n = some c) :
    (c.inconsistent = true ↔ (after calls).Refutes n) ∧
    (c.inconsistent = false → ∀ x, x ∈ c.facts.subsumers ↔ (after calls).Derives n x) := by
  have hleft := kept_left obs.recording hsane.coherent
  have hv := h.kept hleft (fun _ _ h => h) (by
    rw [shared_engaged, hsane.ontology]
    exact ⟨⟨⟨[], .start⟩, hw.tidy⟩, rootOf_lt (size_after_pos calls) hroots⟩)
  obtain ⟨⟨⟨roots, hruns⟩, htidy⟩, _⟩ := hleft.process (w := v.surrounded e) hv
  have hb := (h.serves (balanced_engaged hs ids)).1
  obtain ⟨_, _, hlater, _, hend⟩ := process_serves (w := v.surrounded e) hb he.latching
  have hlevel := (hend.resolve_left (he.not_raised hlater)).1
  exact (sane_runs hsane hruns).exact (htidy.quiet hlevel.active) hc

/-- A call that the flag does not stop gives notice of all jobs in their order. -/
theorem requests_of_call (hs : s.desk = .new threshold timed) (hw : s.work.Still)
    (hd : ids.Nodup) (hnew : ∀ id ∈ ids, ∃ j, s.job? id = some j ∧ j.output = none)
    (he : obs.Lowered e) :
    ∃ new, (((engaged s ids).surrounded e).process obs.recording).2.shared.env.2 =
        s.env.2 ++ new ∧
      new.map (fun p => some p.1.request) = ids.map fun id => (s.job? id).map Job.request := by
  obtain ⟨w, hw₀⟩ : ∃ w, w = (engaged s ids).surrounded e := ⟨_, rfl⟩
  have hshared : w.shared =
      { s with desk := { s.desk with toDo := s.desk.toDo ++ ids }, env := (e, s.env.2) } := by
    rw [hw₀, surrounded, mapShared, shared_engaged]
  have hb : w.shared.desk.Balanced 0 := hw₀ ▸ balanced_engaged hs ids
  have hlowered : obs.Lowered w.shared.env.1 := by rwa [hshared]
  have htodo : w.shared.desk.toDo = ids := by rw [hshared, hs]; rfl
  have hprogresses : w.shared.Progresses ids w.shared.env.2 (0 = 0) := by
    refine progresses_new htodo ?_ ?_ _
    · rw [hshared, hs]
      rfl
    · rw [hshared]
      exact hnew
  have hwork : w.shared.work = s.work := by rw [hshared]
  have hordered : InOrder 0 w := by
    refine ⟨hwork ▸ hw.coherent, hwork ▸ hw.tidy.known, hwork ▸ hw.listed, ?_⟩
    unfold Uncounted
    rw [hshared, hw.unsaturated, hs]
    rfl
  obtain ⟨_, _, hlater, _, hend⟩ := process_serves hb hlowered.latching
  obtain ⟨hlevel, hundisturbed, hempty, _⟩ := hend.resolve_left (hlowered.not_raised hlater)
  obtain ⟨hbetween, hdone, _⟩ := processWithin_between obs _ hb hordered hprogresses hd
  obtain ⟨done, new, _, horder, henv, hdelivers⟩ :=
    (completed_of_level hbetween hdone hlevel hempty).notices
  have hzero : w.shared.desk.counters.lastInterrupt = 0 := by
    rw [hshared, hs]
    rfl
  have hrequests := (kept_requests obs.recording s).process (w := w)
    (by rw [hshared]; exact fun _ => rfl)
  have hall : done = ids := horder (Eq.trans hundisturbed hzero)
  rw [← hw₀]
  refine ⟨new, henv.trans (by rw [hshared]), ?_⟩
  have hjobs := congrArg (List.map (Option.map Job.request)) hdelivers.jobs
  rw [List.map_map, List.map_map, hall] at hjobs
  exact hjobs.trans (List.map_congr_left fun id _ => hrequests id)

/-- One worker with a new dispatcher, over any contexts and for any jobs and threshold. In each call
the flag may be found set at any poll, and then stays set until the call returns. After any calls, a
call in which the flag is clear returns. It is left open in what order the relations of links are
come to. In the same order, everything is as if there had been no other call: contexts with their
marks and facts, jobs with their outputs, the notices of finished jobs in their order, queues,
reports, statistics, and all counters but those of passes and interruptions. In any other order,
over contexts at rest, the same is found out about each root, and notice is given of the same jobs
in the same order. -/
theorem stopped_calls_change_nothing (obs : JobObserver α σ) (s : Saturation α (σ × Notices α))
    {threshold : Nat} {timed : Bool} (hs : s.desk = .new threshold timed)
    (h : Calls obs (engaged s ids) v) (he : obs.Lowered e) (he₀ : obs.Lowered e₀) :
    let resumed := (v.surrounded e).process obs.recording
    let single (order : Layout) :=
      ((engaged (s.laidOut order) ids).surrounded e₀).process obs.recording
    resumed.1 = .returned ∧ (∀ order, (single order).1 = .returned) ∧
    resumed.2.results = (single s.work.layout).2.results ∧
    ∀ calls, Rested calls s.work → s.work.Still →
      (∀ j ∈ s.jobs.toList, j.root.index < (after calls).size) → ∀ order,
      (∀ n c d, resumed.2.shared.work.contextOf? n = some c →
        (single order).2.shared.work.contextOf? n = some d → SameFindings c d) ∧
      (ids.Nodup → (∀ id ∈ ids, ∃ j, s.job? id = some j ∧ j.output = none) →
        resumed.2.shared.env.2.requests = (single order).2.shared.env.2.requests) := by
  intro resumed single
  obtain ⟨hreturned, _, hresults⟩ := results_of_stopped_calls hs h he he₀
  refine ⟨hreturned, fun order => ?_, hresults, fun calls hrested hstill hroots order => ?_⟩
  · exact (results_of_stopped_calls (s := s.laidOut order) hs .none he₀ he₀).2.1
  have hsane := hrested.sane.1
  refine ⟨fun n c d hc hd => ?_, fun hnodup hnew => ?_⟩
  · obtain ⟨hci, hcx⟩ := exact_of_calls hs hsane hstill hroots h he hc
    obtain ⟨hdi, hdx⟩ := exact_of_calls (s := s.laidOut order) hs (hsane.laidOut order)
      (hstill.laidOut order) hroots .none he₀ hd
    have hin : c.inconsistent = d.inconsistent := Bool.eq_iff_iff.mpr (hci.trans hdi.symm)
    exact ⟨hin, fun hcon x => (hcx hcon x).trans (hdx (hin ▸ hcon) x).symm⟩
  · have hsame : resumed.2.shared.env.2 = (single s.work.layout).2.shared.env.2 :=
      congrArg (fun w : Worker α (Notices α) => w.shared.env) hresults
    obtain ⟨new, hnotices, hrequests⟩ := requests_of_call hs hstill hnodup hnew he₀
    obtain ⟨other, hnotices', hrequests'⟩ := requests_of_call (s := s.laidOut order) hs
      (hstill.laidOut order) hnodup hnew he₀
    have hequal : new.map (fun p => p.1.request) = other.map fun p => p.1.request := by
      refine List.map_injective_iff.mpr (Option.some_injective _) ?_
      rw [List.map_map, List.map_map]
      exact hrequests.trans hrequests'.symm
    have hsingle : (single s.work.layout).2.shared.env.2 = s.env.2 ++ new := hnotices
    have hother : (single order).2.shared.env.2 = s.env.2 ++ other := hnotices'
    rw [hsame, hsingle, hother, Notices.requests, Notices.requests, List.map_append,
      List.map_append, hequal]

end

/-- A ⊑ ∃r.F, A ⊑ ∃r.B, B ⊑ ∃s.F, F ⊑ ∃r.G, G ⊑ owl:Nothing, A ⊑ ∃r.P, P ⊑ ∃r.Q, Q ⊑ ∃r.X,
X ⊑ ∃r.Z, X ⊑ ∃r.A, Z ⊑ Y and ∃r.Y ⊑ D, the latest call first; A is node 2 and X node 6. -/
def crossed : List Call :=
  [.addSubclass ⟨21⟩ ⟨9⟩, .addSubclass ⟨7⟩ ⟨8⟩, .addSubclass ⟨6⟩ ⟨20⟩, .addSubclass ⟨6⟩ ⟨19⟩,
    .addSubclass ⟨11⟩ ⟨18⟩, .addSubclass ⟨10⟩ ⟨17⟩, .addSubclass ⟨2⟩ ⟨16⟩, .addSubclass ⟨5⟩ bottom,
    .addSubclass ⟨4⟩ ⟨15⟩, .addSubclass ⟨3⟩ ⟨13⟩, .addSubclass ⟨2⟩ ⟨14⟩, .addSubclass ⟨2⟩ ⟨12⟩,
    .addExistential ⟨0⟩ ⟨8⟩, .addExistential ⟨0⟩ ⟨2⟩, .addExistential ⟨0⟩ ⟨7⟩,
    .addExistential ⟨0⟩ ⟨6⟩, .addExistential ⟨0⟩ ⟨11⟩, .addExistential ⟨0⟩ ⟨10⟩,
    .addExistential ⟨0⟩ ⟨5⟩, .addExistential ⟨0⟩ ⟨3⟩, .addExistential ⟨1⟩ ⟨4⟩,
    .addExistential ⟨0⟩ ⟨4⟩, .addClass "Q", .addClass "P", .addClass "D", .addClass "Y",
    .addClass "Z", .addClass "X", .addClass "G", .addClass "F", .addClass "B", .addClass "A",
    .addProperty "s", .addProperty "r"]

/-- A is to be saturated. -/
def oneRoot : Saturation Unit (Option Nat × Notices Unit) where
  work := start (after crossed)
  jobs := #[.new ⟨2⟩ ()]
  desk := .new 0 false
  env := (none, [])

/-- The flag is set after a few contexts have been drained. -/
def stoppedOnce : Worker Unit (Option Nat × Notices Unit) :=
  (((engaged oneRoot [⟨0⟩]).surrounded (some 5)).process timer.recording).2

/-- A single call with the relation s before r. -/
def reordered : Worker Unit (Option Nat × Notices Unit) :=
  (((engaged (oneRoot.laidOut fun _ => [⟨1⟩, ⟨0⟩]) [⟨0⟩]).surrounded none).process
    timer.recording).2

/-- In the one order X is told by A that it is inconsistent before it gets ∃r.Y from Z; in the other
it gets that first. In both it is found inconsistent, and in the one order the stop changes
nothing. -/
theorem stopped_calls_change_nothing_crossed :
    Calls timer (engaged oneRoot [⟨0⟩]) stoppedOnce ∧
      stoppedOnce.shared.desk.inProgress = [⟨0⟩] ∧
      stoppedOnce.shared.work.state.active.length = 3 ∧
      (let resumed := ((stoppedOnce.surrounded none).process timer.recording).2
      resumed.results =
        (((engaged oneRoot [⟨0⟩]).surrounded none).process timer.recording).2.results ∧
      resumed.shared.env.2.requests = [(⟨2⟩, ())] ∧
      reordered.shared.env.2.requests = [(⟨2⟩, ())] ∧
      ∃ c d, resumed.shared.work.contextOf? ⟨6⟩ = some c ∧
        reordered.shared.work.contextOf? ⟨6⟩ = some d ∧ SameFindings c d ∧
        c.facts.subsumers = [⟨6⟩, ⟨19⟩, ⟨20⟩] ∧ d.facts.subsumers = [⟨6⟩, ⟨19⟩, ⟨20⟩, ⟨21⟩]) := by
  have hcalls : Calls timer (engaged oneRoot [⟨0⟩]) stoppedOnce :=
    .call .none (latching_timer (some 5))
  have hstate : oneRoot.work.state = State.new (after crossed) := by
    simp only [oneRoot, start]
  have hstill : oneRoot.work.Still := still_new hstate
  have hnone : Runs oneRoot.work [] oneRoot.work := .start
  have hrested : Rested crossed oneRoot.work := .fresh hstate hnone hstill.toAtRest
  obtain ⟨_, _, hsame, hother⟩ :=
    stopped_calls_change_nothing timer oneRoot rfl hcalls lowered_timer lowered_timer
  obtain ⟨hfindings, hrequests⟩ := hother crossed hrested hstill (by decide +kernel)
    fun _ => [⟨1⟩, ⟨0⟩]
  have hresumed : (((stoppedOnce.surrounded none).process timer.recording).2.shared.work.contextOf?
      ⟨6⟩).map (·.facts.subsumers) = some [⟨6⟩, ⟨19⟩, ⟨20⟩] := by
    decide +kernel
  have hreordered : (reordered.shared.work.contextOf? ⟨6⟩).map (·.facts.subsumers) =
      some [⟨6⟩, ⟨19⟩, ⟨20⟩, ⟨21⟩] := by
    decide +kernel
  obtain ⟨c, hc, hcs⟩ := Option.map_eq_some_iff.mp hresumed
  obtain ⟨d, hd, hds⟩ := Option.map_eq_some_iff.mp hreordered
  have hnotice : ((stoppedOnce.surrounded none).process timer.recording).2.shared.env.2.requests =
      [(⟨2⟩, ())] := by
    decide +kernel
  exact ⟨hcalls, by decide +kernel, by decide +kernel, hsame, hnotice,
    (hrequests (by decide) (by decide +kernel)).symm.trans hnotice, c, d, hc, hd,
    hfindings _ c d hc hd, hcs, hds⟩

end Worker

end Subsumption
