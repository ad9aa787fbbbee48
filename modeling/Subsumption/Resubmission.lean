import Subsumption.State

/-!
Starting over after an ontology has changed. The new state keeps the saturated contexts whose roots
are not invalidated. A kept context into which a dropped root is linked is copied without that link,
so that the root gets all propagations again when it links anew; all others are shared with the old
state.
-/
namespace Subsumption.Workspace

variable (w : Workspace)

/-- The roots with a context that goes over to the new state. -/
def keptRoots (invalidated : List NodeId) : List NodeId :=
  (w.state.contexts.filter fun (root, id) =>
    ((w.context? id).map (·.saturated)).getD false && !invalidated.contains root).map (·.1)

/-- Carries one context over: the new place of the root, and the store with a copy if need be. -/
def carry (kept : List NodeId) (store : Store) (id : ContextId) : ContextId × Store :=
  match store[id.index]? with
  | some c =>
    match c.withoutSources? kept with
    | some copy => (⟨store.size⟩, store.push copy)
    | none => (id, store)
  | none => (id, store)

/-- Carries contexts over one after the other. -/
def carryAll (kept : List NodeId) :
    List (NodeId × ContextId) → Store → List (NodeId × ContextId) × Store
  | [], store => ([], store)
  | (root, id) :: rest, store =>
    if kept.contains root then
      let (place, store) := carry kept store id
      let (others, store) := carryAll kept rest store
      ((root, place) :: others, store)
    else carryAll kept rest store

/-- The workspace of the new state over the changed ontology. Both states live in its store. -/
def resubmission (o : Ontology) (invalidated : List NodeId) : Workspace :=
  let kept := w.keptRoots invalidated
  let (contexts, store) := carryAll kept w.state.contexts w.store
  { store
    state := { State.new o with contexts }
    events := w.events ++
      [.contextsKept contexts.length w.state.size invalidated.eraseDups.length
        (store.size - w.store.size)]
    layout := w.layout }

end Subsumption.Workspace
