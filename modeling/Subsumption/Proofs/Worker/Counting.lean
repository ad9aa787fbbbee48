import Subsumption.Proofs.Worker.Keeping

/-! Contexts that are counted. The contexts that wait to be marked are those that have been counted
and not finished, and any others that waited from the beginning: these are never marked by a worker
that goes by its counters. -/
namespace Subsumption

variable {α σ : Type}

namespace RuleRun

open Workspace

variable {obs : JobObserver α σ} {timed : Bool} {r r' : RuleRun (Counters × σ)} {x y : Nat}
  {hand : Option ContextId} {b : Bool}

/-- The contexts that wait to be marked, against those that have been counted. -/
def Counts (x y : Nat) (r : RuleRun (Counters × σ)) : Prop :=
  r.work.state.unsaturated.length + x = r.env.1.contextsCreated + y

theorem env_produceAll {τ : Type} (r : RuleRun τ) (id : ContextId) (ks : List Conclusion) :
    (r.produceAll id ks).env = r.env := by
  induction ks generalizing r with
  | nil => rfl
  | cons k rest ih => exact ih (r.produce id k)

theorem Counts.produceAll (h : Counts x y r) (id : ContextId) (ks : List Conclusion) :
    Counts x y (r.produceAll id ks) := by
  unfold Counts
  rw [(receives_produceAll r id ks).unsaturated, env_produceAll]
  exact h

theorem Counts.obtain (h : Counts x y r) (root : NodeId) :
    Counts x y (r.obtain (Worker.ruleObserver obs) root).2 := by
  cases hf : r.work.state.find? root with
  | some id =>
    rw [obtain_of_some _ r hf]
    exact h
  | none =>
    obtain ⟨v, hv⟩ : ∃ v, v =
      (⟨(r.work.insertContext root).2.enlist r.work.nextId, r.stats, r.env⟩ :
        RuleRun (Counters × σ)).produceAll r.work.nextId
        (initialConclusions r.work.state.ontology root) := ⟨_, rfl⟩
    have ho : (r.obtain (Worker.ruleObserver obs) root).2 =
        v.notifyCreated (Worker.ruleObserver obs) r.work.nextId := by
      rw [hv, obtain_of_none _ r hf]
    have hreceives := receives_produceAll
      (⟨(r.work.insertContext root).2.enlist r.work.nextId, r.stats, r.env⟩ :
        RuleRun (Counters × σ)) r.work.nextId (initialConclusions r.work.state.ontology root)
    rw [← hv] at hreceives
    -- The new context is there, so notice of it is given, and it is counted.
    have hcontext : ∃ c, v.work.context? r.work.nextId = some c := by
      rw [hreceives.context?, if_pos rfl]
      change ∃ c, ((r.work.insertContext root).2.context? r.work.nextId).map _ = some c
      rw [context?_insertContext, if_pos rfl]
      exact ⟨_, rfl⟩
    obtain ⟨c, hc⟩ := hcontext
    have hlength : v.work.state.unsaturated.length = r.work.state.unsaturated.length + 1 := by
      rw [hreceives.unsaturated]
      simp
    have henv : v.env = r.env := by rw [hv, env_produceAll]
    rw [ho]
    simp only [notifyCreated, hc, Counts, Worker.ruleObserver, hlength, henv]
    unfold Counts at h
    omega

theorem Counts.perform (h : Counts x y r) (id : ContextId) (e : Effect) :
    Counts x y (r.perform (Worker.ruleObserver obs) timed id e) := by
  cases e with
  | own k =>
    have hunsaturated : (r.work.produce id k).state.unsaturated = r.work.state.unsaturated :=
      receives_produce.unsaturated
    simp only [RuleRun.perform, produce, Counts, hunsaturated]
    exact h
  | send root ks => exact (h.obtain root).produceAll _ ks
  | decomposed | applied | refuted => exact h

theorem Counts.effects (h : Counts x y r) (id : ContextId) (es : List Effect) :
    Counts x y (es.foldl (RuleRun.perform (Worker.ruleObserver obs) timed id) r) := by
  induction es generalizing r with
  | nil => exact h
  | cons e rest ih => exact ih (h.perform id e)

theorem Counts.apply (h : Counts x y r) (id : ContextId) (k : Conclusion) :
    Counts x y (r.apply (Worker.ruleObserver obs) timed id k) := by
  unfold RuleRun.apply
  dsimp only
  split
  · exact Counts.effects (by exact h) id _
  · exact h

theorem Counts.passes (h : Counts x y r)
    (hp : Passes (Worker.ruleObserver obs) timed hand r b r') : Counts x y r' := by
  have hpoll : ∀ {e e' : Counters × σ} {b : Bool}, (Worker.ruleObserver obs).poll e = (b, e') →
      e'.1 = e.1 := by
    intro e e' b he
    exact (congrArg (fun p => p.2.1) he).symm
  induction hp with
  | @process r id k work b r' hpop _ ih =>
    obtain ⟨rfl, _⟩ := context?_of_pop hpop
    refine ih (Counts.apply ?_ id k)
    exact h
  | layDown _ _ ih => exact ih h
  | stopped he =>
    unfold Counts
    rw [hpoll he]
    exact h
  | drained he =>
    unfold Counts
    rw [hpoll he]
    exact h
  | @take r env id work b r' he ht _ ih =>
    refine ih ?_
    obtain ⟨rest, _, rfl⟩ := active_of_take ht
    unfold Counts
    rw [hpoll he]
    exact h

end RuleRun

namespace Worker

variable {obs : JobObserver α σ} {w : Worker α σ} {n l : Nat}

/-- Of the contexts that wait to be marked, `l` have not been counted. -/
def Uncounted (l : Nat) (w : Worker α σ) : Prop :=
  w.shared.work.state.unsaturated.length + w.shared.desk.counters.contextsFinished
    = w.shared.desk.counters.contextsCreated + l

theorem uncounted_finishContexts (h : w.Uncounted l)
    (hn : w.shared.desk.counters.contextsFinished + n ≤ w.shared.desk.counters.contextsCreated) :
    (w.finishContexts n).Uncounted l := by
  induction n generalizing w with
  | zero => exact h
  | succ n ih =>
    have hcounters : (w.mapShared fun s => s.countContextFinished.markNext).shared.desk.counters =
        { w.shared.desk.counters with
          contextsFinished := w.shared.desk.counters.contextsFinished + 1 } := rfl
    have hlength : (w.mapShared fun s =>
        s.countContextFinished.markNext).shared.work.state.unsaturated.length + 1
        = w.shared.work.state.unsaturated.length := by
      have hmark : (w.mapShared fun s => s.countContextFinished.markNext).shared.work
          = w.shared.work.markNext.2 := rfl
      rw [hmark]
      unfold Workspace.markNext
      split
      · rename_i hu
        unfold Uncounted at h
        rw [hu, List.length_nil] at h
        omega
      · rename_i hu
        rw [Workspace.state_markSaturated, hu, List.length_cons]
    refine ih ?_ ?_
    · unfold Uncounted at h ⊢
      rw [hcounters]
      dsimp only
      omega
    · rw [hcounters]
      dsimp only
      omega

theorem uncounted_finishAll (h : w.Uncounted l) (hw : w.shared.desk.Balanced n) :
    (w.finishAll obs).Uncounted l := by
  have hdesk := desk_finishAll hw obs
  have hdeclare := desk_declare hw
  have hcontexts := hw.contexts
  have hcreated := hw.created
  obtain ⟨m, hm⟩ : ∃ m, m = w.declare.shared.desk.counters.contextsProcessed
    - w.declare.shared.desk.counters.contextsFinished := ⟨_, rfl⟩
  have hdeclared : w.declare.Uncounted l := by
    unfold Uncounted at h ⊢
    rw [hdeclare]
    exact h
  have hmarked : (w.declare.finishContexts m).Uncounted l := by
    refine uncounted_finishContexts hdeclared ?_
    rw [hm, hdeclare]
    dsimp only
    omega
  have hstate : (w.finishAll obs).shared.work.state
      = (w.declare.finishContexts m).shared.work.state := by
    rw [hm]
    exact (steady_state _).finishJobs (w := w.declare.finishContexts _) rfl _
  unfold Uncounted at hmarked ⊢
  rw [hstate, hdesk]
  rw [desk_finishContexts, hm, hdeclare] at hmarked
  rw [hm, hdeclare]
  dsimp only [Counters.settled] at hmarked ⊢
  omega

theorem uncounted_withRules {r : RuleRun (Counters × σ)} {x : Nat}
    (hx : w.shared.desk.counters.contextsFinished = x) (h : RuleRun.Counts x l r)
    (ho : Opened w.shared.desk.counters r.env.1) : (w.withRules r).Uncounted l := by
  have hfinished : r.env.1.contextsFinished = w.shared.desk.counters.contextsFinished := by
    rw [ho.others]
  unfold Uncounted
  change r.work.state.unsaturated.length + r.env.1.contextsFinished = _
  rw [hfinished, hx]
  exact h

theorem uncounted_handIn (h : w.Uncounted l) (id : JobId) : (w.handIn obs id).Uncounted l := by
  have hcounts : RuleRun.Counts (w.announced id).shared.desk.counters.contextsFinished l
      (w.announced id).ruleRun := h
  rw [handIn_eq]
  exact uncounted_withRules rfl (hcounts.obtain _) (opened_handIn obs w id).1

end Worker

end Subsumption
