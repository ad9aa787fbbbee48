import Subsumption.Proofs.Termination
import Subsumption.Worker

/-! What the surroundings have to do with a pass. They say when the pass is stopped, and nothing
else: what has been stopped goes on, in a later pass, as if it had not been. -/
namespace Subsumption

/-! ### Other surroundings -/

namespace RuleRun

open Workspace

variable {σ τ : Type} {R : σ → τ → Prop} {obs : RuleObserver σ} {obs' : RuleObserver τ}
  {timed : Bool} {r r' : RuleRun σ} {s s' : RuleRun τ} {id : ContextId} {hand : Option ContextId}
  {b : Bool}

/-- Two runs that differ in nothing but their surroundings, which correspond. -/
structure Alike (R : σ → τ → Prop) (r : RuleRun σ) (s : RuleRun τ) : Prop where
  work : s.work = r.work
  stats : s.stats = r.stats
  env : R r.env s.env

/-- Both surroundings take the notice of a new context in the same way. -/
def TakeNotice (R : σ → τ → Prop) (obs : RuleObserver σ) (obs' : RuleObserver τ) : Prop :=
  ∀ c e t, R e t → R (obs.created c e) (obs'.created c t)

theorem Alike.produceAll (h : Alike R r s) (id : ContextId) (ks : List Conclusion) :
    Alike R (r.produceAll id ks) (s.produceAll id ks) := by
  induction ks generalizing r s with
  | nil => exact h
  | cons k rest ih =>
    have hone : Alike R (r.produce id k) (s.produce id k) :=
      ⟨congrArg (·.produce id k) h.work, congrArg (·.countProduced k.kind) h.stats, h.env⟩
    exact ih hone

theorem Alike.notifyCreated (h : Alike R r s) (hn : TakeNotice R obs obs') (id : ContextId) :
    Alike R (r.notifyCreated obs id) (s.notifyCreated obs' id) := by
  unfold RuleRun.notifyCreated
  rw [h.work]
  split
  · exact ⟨rfl, h.stats, hn _ _ _ h.env⟩
  · exact h

theorem Alike.obtain (h : Alike R r s) (hn : TakeNotice R obs obs') (root : NodeId) :
    (s.obtain obs' root).1 = (r.obtain obs root).1 ∧
      Alike R (r.obtain obs root).2 (s.obtain obs' root).2 := by
  unfold RuleRun.obtain
  rw [h.work]
  split
  · exact ⟨rfl, h⟩
  · refine ⟨rfl, Alike.notifyCreated (Alike.produceAll ?_ _ _) hn _⟩
    exact ⟨rfl, h.stats, h.env⟩

theorem Alike.perform (h : Alike R r s) (hn : TakeNotice R obs obs') (id : ContextId) (e : Effect) :
    Alike R (r.perform obs timed id e) (s.perform obs' timed id e) := by
  cases e with
  | own k =>
    exact ⟨congrArg (·.produce id k) h.work, congrArg (·.countProduced k.kind) h.stats, h.env⟩
  | send root ks =>
    obtain ⟨hid, hsend⟩ := h.obtain hn root
    simp only [RuleRun.perform, hid]
    exact hsend.produceAll _ ks
  | decomposed => exact ⟨h.work, congrArg (·.countDecomposition timed) h.stats, h.env⟩
  | applied kind => exact ⟨h.work, congrArg (·.countRule timed kind) h.stats, h.env⟩
  | refuted root =>
    exact ⟨congrArg (fun w => w.report (.contextInconsistent (w.label root))) h.work, h.stats,
      h.env⟩

theorem Alike.effects (h : Alike R r s) (hn : TakeNotice R obs obs') (id : ContextId)
    (es : List Effect) :
    Alike R (es.foldl (RuleRun.perform obs timed id) r)
      (es.foldl (RuleRun.perform obs' timed id) s) := by
  induction es generalizing r s with
  | nil => exact h
  | cons e rest ih => exact ih (h.perform hn id e)

theorem Alike.apply (h : Alike R r s) (hn : TakeNotice R obs obs') (id : ContextId)
    (k : Conclusion) : Alike R (r.apply obs timed id k) (s.apply obs' timed id k) := by
  unfold RuleRun.apply
  simp only [h.work]
  split
  · rename_i c _
    have hderived : Alike R
        ⟨r.work.modify id fun _ => (c.derive r.work.state.ontology (r.work.layout id) k).1,
          r.stats.countProcessed k.kind, r.env⟩
        ⟨r.work.modify id fun _ => (c.derive r.work.state.ontology (r.work.layout id) k).1,
          s.stats.countProcessed k.kind, s.env⟩ :=
      ⟨rfl, congrArg (·.countProcessed k.kind) h.stats, h.env⟩
    exact hderived.effects hn id _
  · exact ⟨rfl, congrArg (·.countProcessed k.kind) h.stats, h.env⟩

/-- A pass under any surroundings, stopped or not, and a pass under calm ones that goes on from
there make up a pass under calm surroundings. -/
theorem Passes.resumes (hp : Passes obs timed hand r b r') (hn : TakeNotice R obs obs')
    (hpoll : ∀ e t, R e t → R (obs.poll e).2 t) (hcalm : ∀ t, obs'.poll t = (false, t))
    (h : Alike R r s) : ∃ s', Alike R r' s' ∧
      ∀ s'', Passes obs' timed none s' false s'' → Passes obs' timed hand s false s'' := by
  induction hp generalizing s with
  | @process r id k work b r' hpop _ ih =>
    have hpop' : s.work.pop? id = some (k, work) := h.work ▸ hpop
    have hrest : Alike R { r with work } { s with work } := ⟨rfl, h.stats, h.env⟩
    obtain ⟨s', hs', hgo⟩ := ih (hrest.apply hn id k)
    exact ⟨s', hs', fun s'' hs'' => .process hpop' (hgo s'' hs'')⟩
  | @layDown r id b r' hpop _ ih =>
    have hdown : Alike R { r with work := r.work.setActive id false }
        { s with work := s.work.setActive id false } :=
      ⟨congrArg (·.setActive id false) h.work, h.stats, h.env⟩
    obtain ⟨s', hs', hgo⟩ := ih hdown
    exact ⟨s', hs', fun s'' hs'' => .layDown (h.work ▸ hpop) (hgo s'' hs'')⟩
  | @stopped r env hp =>
    have henv : R env s.env := by
      have := hpoll _ _ h.env
      rwa [hp] at this
    exact ⟨s, ⟨h.work, h.stats, henv⟩, fun _ hs => hs⟩
  | @drained r env hp =>
    have henv : R env s.env := by
      have := hpoll _ _ h.env
      rwa [hp] at this
    exact ⟨s, ⟨h.work, h.stats, henv⟩, fun _ hs => hs⟩
  | @take r env id work b r' hp ht _ ih =>
    have henv : R env s.env := by
      have := hpoll _ _ h.env
      rwa [hp] at this
    have htake : Alike R ⟨work, r.stats.countContext, env⟩ ⟨work, s.stats.countContext, s.env⟩ :=
      ⟨rfl, congrArg (·.countContext) h.stats, henv⟩
    obtain ⟨s', hs', hgo⟩ := ih htake
    exact ⟨s', hs', fun s'' hs'' => .take (hcalm _) (h.work ▸ ht) (hgo s'' hs'')⟩

/-- What polls and notices of new contexts keep of the surroundings is kept by a pass, up to the
last poll. -/
theorem Passes.env {P : σ → Prop} (hp : Passes obs timed hand r b r')
    (hn : ∀ c e, P e → P (obs.created c e)) (hpoll : ∀ e, P e → P (obs.poll e).2) (h : P r.env) :
    ∃ e, P e ∧ obs.poll e = (b, r'.env) := by
  have hsame : TakeNotice (fun e (_ : Unit) => P e) obs ⟨fun t => (false, t), fun _ t => t⟩ :=
    fun c e _ he => hn c e he
  induction hp with
  | @process r id k work _ _ _ _ ih =>
    have hr : Alike (fun e (_ : Unit) => P e) { r with work } ⟨work, r.stats, ()⟩ := ⟨rfl, rfl, h⟩
    exact ih (hr.apply hsame id k).env
  | layDown _ _ ih => exact ih h
  | stopped hp => exact ⟨_, h, hp⟩
  | drained hp => exact ⟨_, h, hp⟩
  | @take r env _ _ _ _ hp _ _ ih =>
    refine ih ?_
    have := hpoll _ h
    rwa [hp] at this

end RuleRun

/-! ### The flag -/

/-- Notices of finished jobs, the oldest first, with the context that is the job's output. -/
abbrev Notices (α : Type) := List (Job α × Context)

namespace JobObserver

variable {α σ : Type} (obs : JobObserver α σ) {e e' e'' : σ}

/-- The same surroundings, and a record of all notices. -/
def recording : JobObserver α (σ × Notices α) where
  poll := fun (e, l) => ((obs.poll e).1, ((obs.poll e).2, l))
  finished := fun j c (e, l) => (obs.finished j c e, l ++ [(j, c)])

/-- Surroundings that are nothing but a record of all notices, where the flag is never set. -/
def recorder : JobObserver α (Notices α) where
  poll := fun l => (false, l)
  finished := fun j c l => l ++ [(j, c)]

/-- What the surroundings can come to by polls and notices. -/
inductive Later (e : σ) : σ → Prop
  | refl : Later e e
  | poll {e' : σ} (h : Later e e') : Later e (obs.poll e').2
  | finished {e' : σ} (h : Later e e') (j : Job α) (c : Context) : Later e (obs.finished j c e')

/-- The flag is set and stays set. -/
def Raised (e : σ) : Prop := ∀ e', obs.Later e e' → (obs.poll e').1 = true

/-- The flag is clear and stays clear. -/
def Lowered (e : σ) : Prop := ∀ e', obs.Later e e' → (obs.poll e').1 = false

/-- Once the flag is found set, it stays set. -/
def Latching (e : σ) : Prop :=
  ∀ e', obs.Later e e' → (obs.poll e').1 = true → obs.Raised (obs.poll e').2

variable {obs}

theorem Later.trans (h : obs.Later e e') (h' : obs.Later e' e'') : obs.Later e e'' := by
  induction h' with
  | refl => exact h
  | poll _ ih => exact ih.poll
  | finished _ j c ih => exact ih.finished j c

theorem Later.of_recording {x y : σ × Notices α} (h : obs.recording.Later x y) :
    obs.Later x.1 y.1 := by
  induction h with
  | refl => exact .refl
  | poll _ ih => exact ih.poll
  | finished _ j c ih => exact ih.finished j c

theorem Raised.later (h : obs.Raised e) (hl : obs.Later e e') : obs.Raised e' :=
  fun e'' h' => h e'' (hl.trans h')

theorem Latching.later (h : obs.Latching e) (hl : obs.Later e e') : obs.Latching e' :=
  fun e'' h' => h e'' (hl.trans h')

theorem Lowered.latching (h : obs.Lowered e) : obs.Latching e := by
  intro e' hl hset
  rw [h e' hl] at hset
  cases hset

theorem Lowered.not_raised (h : obs.Lowered e) (hl : obs.Later e e') : ¬ obs.Raised e' := by
  intro hr
  have hset := hr e' .refl
  rw [h e' hl] at hset
  cases hset

end JobObserver

end Subsumption
