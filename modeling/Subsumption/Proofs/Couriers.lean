import Mathlib.Logic.Function.Basic
import Subsumption.State

/-! Workers that deal with the queues of a state. Any number of them push conclusions into the
queues of contexts and empty these queues. What else they do is left open, but every access to a
queue or to a token is a step of its own. -/
namespace Subsumption

/-! ### Workers -/

/-- Where a worker is in emptying queues. -/
inductive Station where
  /-- Not at work; when it was last, it left because it saw the active queue empty. -/
  | away
  /-- Has no context in hand; a worker that is stopped is so here. -/
  | idle
  | draining (id : ContextId)
  /-- Has seen the queue of the context empty, and is going to release the token. -/
  | closing (id : ContextId)
  /-- Has released the token, and is going to look at the queue again. -/
  | rechecking (id : ContextId)
  /-- Has found something there, and is going to try and take the token back. -/
  | retaking (id : ContextId)
deriving DecidableEq, Repr

namespace Station

/-- Whether a worker may open contexts and push conclusions there. -/
def isProducing : Station → Bool
  | .idle | .draining _ => true
  | _ => false

/-- The context that the worker drains, or has not finished giving back. -/
def context? : Station → Option ContextId
  | .away | .idle => none
  | .draining id | .closing id | .rechecking id | .retaking id => some id

/-- The worker has given the token of the context back, and is not done with it yet. -/
def GivesBack (p : Station) (id : ContextId) : Prop := p = .rechecking id ∨ p = .retaking id

end Station

/-- What is left to do for the conclusion that a worker has pushed last. -/
inductive Errand where
  | none
  /-- To try and take the token of its context. -/
  | activate (id : ContextId)
  /-- To queue its context, whose token has been taken. -/
  | enqueue (id : ContextId)
deriving DecidableEq, Repr

/-- The context that is still to be activated or queued. -/
def Errand.context? : Errand → Option ContextId
  | .none => Option.none
  | .activate id | .enqueue id => some id

/-- A worker, as far as queues and tokens go. -/
structure Courier where
  station : Station
  errand : Errand
deriving DecidableEq, Repr

/-- The two ways in which a worker may hold a token. -/
inductive Hand where
  | drains
  | queues
deriving DecidableEq, Repr

theorem Hand.funext {f g : Hand → Option ContextId} (hd : f .drains = g .drains)
    (hq : f .queues = g .queues) : f = g := by
  ext1 h
  cases h
  · exact hd
  · exact hq

namespace Courier

variable (c : Courier)

/-- The context whose token is in a hand of the worker. -/
def held : Hand → Option ContextId
  | .drains =>
    match c.station with
    | .draining id | .closing id => some id
    | _ => none
  | .queues =>
    match c.errand with
    | .enqueue id => some id
    | _ => none

/-- The worker drains the context or has not finished giving it back, or it has not finished the
attempt to have it queued. -/
def Minds (id : ContextId) : Prop := c.station.context? = some id ∨ c.errand.context? = some id

variable {c}

theorem minds_of_held {h : Hand} {id : ContextId} (hid : c.held h = some id) : c.Minds id := by
  obtain ⟨p, e⟩ := c
  cases h with
  | drains => cases p <;> simp_all [held, Minds, Station.context?]
  | queues => cases e <;> simp_all [held, Minds, Errand.context?]

end Courier

/-- What is put on record of a worker: that it puts a conclusion into the queue of a context, or
takes one from there, or gives the token of the context back. -/
inductive Deal where
  | pushed (id : ContextId) (k : Conclusion)
  | popped (id : ContextId) (k : Conclusion)
  | released (id : ContextId)
deriving DecidableEq, Repr

namespace Deal

def pushedTo? (id : ContextId) : Deal → Option Conclusion
  | .pushed x k => if x = id then some k else none
  | _ => none

def poppedFrom? (id : ContextId) : Deal → Option Conclusion
  | .popped x k => if x = id then some k else none
  | _ => none

end Deal

/-- What is put on record of all workers, the earliest deal first. -/
abbrev Record (ι : Type) := List (ι × Deal)

namespace Record

variable {ι : Type}

/-- The conclusions pushed for a context, in the order of the pushes. -/
def pushes (id : ContextId) (rs : Record ι) : List Conclusion :=
  rs.filterMap fun r => r.2.pushedTo? id

/-- The conclusions popped from a context, in the order of the pops. -/
def pops (id : ContextId) (rs : Record ι) : List Conclusion :=
  rs.filterMap fun r => r.2.poppedFrom? id

/-- The worker that was the last to give the token of a context back. -/
def lastHolder? (id : ContextId) (rs : Record ι) : Option ι :=
  (rs.filterMap fun r => if r.2 = .released id then some r.1 else none).getLast?

variable {id x : ContextId} {k : Conclusion} {i : ι} {rs rs' : Record ι}

@[simp] theorem pushes_nil : pushes id ([] : Record ι) = [] := rfl

@[simp] theorem pops_nil : pops id ([] : Record ι) = [] := rfl

@[simp] theorem pushes_append : pushes id (rs ++ rs') = pushes id rs ++ pushes id rs' :=
  List.filterMap_append

@[simp] theorem pops_append : pops id (rs ++ rs') = pops id rs ++ pops id rs' :=
  List.filterMap_append

@[simp] theorem pushes_pushed : pushes id [(i, .pushed x k)] = if x = id then [k] else [] := by
  simp only [pushes, List.filterMap_cons, Deal.pushedTo?]
  split <;> simp_all

@[simp] theorem pushes_popped : pushes id [(i, .popped x k)] = [] := rfl

@[simp] theorem pushes_released : pushes id [(i, .released x)] = [] := rfl

@[simp] theorem pops_popped : pops id [(i, .popped x k)] = if x = id then [k] else [] := by
  simp only [pops, List.filterMap_cons, Deal.poppedFrom?]
  split <;> simp_all

@[simp] theorem pops_pushed : pops id [(i, .pushed x k)] = [] := rfl

@[simp] theorem pops_released : pops id [(i, .released x)] = [] := rfl

theorem lastHolder?_released : lastHolder? id (rs ++ [(i, .released id)]) = some i := by
  simp [lastHolder?]

theorem lastHolder?_append (h : ∀ r ∈ rs', r.2 ≠ .released id) :
    lastHolder? id (rs ++ rs') = lastHolder? id rs := by
  have hnone : (rs'.filterMap fun r => if r.2 = .released id then some r.1 else none) = [] := by
    refine List.filterMap_eq_nil_iff.mpr fun r hr => ?_
    rw [if_neg (h r hr)]
  rw [lastHolder?, List.filterMap_append, hnone, List.append_nil, ← lastHolder?]

end Record

/-! ### Steps -/

/-- A workspace and the workers that deal with its queues. -/
structure Traffic (ι : Type) where
  work : Workspace
  couriers : ι → Courier

namespace Traffic

/-- A step of the worker `i`, with what it puts on record. -/
inductive Move {ι : Type} (i : ι) (w : Workspace) :
    Courier → Record ι → Workspace → Courier → Prop
  | arrive : Move i w ⟨.away, .none⟩ [] w ⟨.idle, .none⟩
  | leave (h : w.takeActive? = none) : Move i w ⟨.idle, .none⟩ [] w ⟨.away, .none⟩
  -- Producing.
  | opened {p root} (hp : p.isProducing = true) (h : w.state.find? root = none) :
    Move i w ⟨p, .none⟩ [] (w.insertContext root).2 ⟨p, .none⟩
  | push {p n id k} (hp : p.isProducing = true) (h : w.state.find? n = some id) :
    Move i w ⟨p, .none⟩ [(i, .pushed id k)] (w.modify id (·.push k)) ⟨p, .activate id⟩
  | outrun {p id} (h : w.isActive id = true) : Move i w ⟨p, .activate id⟩ [] w ⟨p, .none⟩
  | activate {p id} (h : w.isActive id = false) :
    Move i w ⟨p, .activate id⟩ [] (w.setActive id true) ⟨p, .enqueue id⟩
  | enqueue {p id} : Move i w ⟨p, .enqueue id⟩ [] (w.enqueue id) ⟨p, .none⟩
  -- Draining.
  | take {id v} (h : w.takeActive? = some (id, v)) :
    Move i w ⟨.idle, .none⟩ [] v ⟨.draining id, .none⟩
  | pop {id k v} (h : w.pop? id = some (k, v)) :
    Move i w ⟨.draining id, .none⟩ [(i, .popped id k)] v ⟨.draining id, .none⟩
  | drained {id} (h : w.pop? id = none) :
    Move i w ⟨.draining id, .none⟩ [] w ⟨.closing id, .none⟩
  -- Giving the token back.
  | release {id} :
    Move i w ⟨.closing id, .none⟩ [(i, .released id)] (w.setActive id false)
      ⟨.rechecking id, .none⟩
  | settle {id} (h : w.hasPending id = false) :
    Move i w ⟨.rechecking id, .none⟩ [] w ⟨.idle, .none⟩
  | goBack {id} (h : w.hasPending id = true) :
    Move i w ⟨.rechecking id, .none⟩ [] w ⟨.retaking id, .none⟩
  | forgo {id} (h : w.isActive id = true) :
    Move i w ⟨.retaking id, .none⟩ [] w ⟨.idle, .none⟩
  | retake {id} (h : w.isActive id = false) :
    Move i w ⟨.retaking id, .none⟩ [] (w.setActive id true) ⟨.draining id, .none⟩

/-- Whatever else is done to the contexts: their queues and tokens are left alone, and so are the
active queue and the map of contexts. -/
structure Aside (w w' : Workspace) : Prop where
  active : w'.state.active = w.state.active
  contexts : w'.state.contexts = w.state.contexts
  kept : ∀ id, (w'.context? id).map (fun d => (d.root, d.active, d.pending)) =
    (w.context? id).map fun d => (d.root, d.active, d.pending)

/-- A step of a worker, or something else. -/
inductive Step {ι : Type} [DecidableEq ι] (t : Traffic ι) : Record ι → Traffic ι → Prop
  | move (i : ι) {rs w c} (h : Move i t.work (t.couriers i) rs w c) :
    Step t rs ⟨w, Function.update t.couriers i c⟩
  | aside {w} (h : Aside t.work w) : Step t [] { t with work := w }

/-- A run, with its record. -/
inductive Runs {ι : Type} [DecidableEq ι] (t₀ : Traffic ι) : Record ι → Traffic ι → Prop
  | start : Runs t₀ [] t₀
  | step {rs t rs' t'} (h : Runs t₀ rs t) (hs : Step t rs' t') : Runs t₀ (rs ++ rs') t'

/-- No worker has come yet. -/
def new (ι : Type) (w : Workspace) : Traffic ι := ⟨w, fun _ => ⟨.away, .none⟩⟩

end Traffic

end Subsumption
