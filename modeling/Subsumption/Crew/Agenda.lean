import Subsumption.Saturation

/-!
Agendas: what follows from a conclusion, or from the request for a root, cut into atomic actions.
Each action touches one queue, one token, one counter or the map of contexts. Carrying out an action
may put further actions in front of the remaining ones.
-/
namespace Subsumption

inductive Action where
  /-- Look a root up in the map of contexts, adding a new context if it has none; the conclusions
  are for that context. -/
  | locate (root : NodeId) (ks : List Conclusion)
  /-- Queue a new context for being marked saturated. -/
  | enlist (id : ContextId)
  /-- Count a new context. -/
  | countCreated
  /-- Queue a conclusion. -/
  | push (id : ContextId) (k : Conclusion)
  /-- Try to take the activation token of a context. -/
  | activate (id : ContextId)
  /-- Queue a context whose token has been taken. -/
  | enqueue (id : ContextId)
  | countDecomposition
  | countRule (kind : RuleKind)
  | reportRefuted (root : NodeId)
deriving DecidableEq, Repr

abbrev Agenda := List Action

namespace Agenda

/-- The action that an effect in the context `self` comes down to. -/
def ofEffect (self : ContextId) : Effect → Action
  | .own k => .push self k
  | .send root ks => .locate root ks
  | .decomposed => .countDecomposition
  | .applied kind => .countRule kind
  | .refuted root => .reportRefuted root

variable {α σ : Type} (s : Saturation α σ) (stats : RuleStatistics)

/-- Carries out one action: the shared data, the worker's counts and the actions put in front. -/
def perform : Action → Saturation α σ × RuleStatistics × Agenda
  | .locate root ks =>
    match s.work.state.find? root with
    | some id => (s, stats, ks.map (.push id))
    | none =>
      let (id, work) := s.work.insertContext root
      ({ s with work }, stats,
        [.enlist id] ++ (RuleRun.initialConclusions work.state.ontology root).map (.push id)
          ++ [.countCreated] ++ ks.map (.push id))
  | .enlist id => ({ s with work := s.work.enlist id }, stats, [])
  | .countCreated => (s.countCreated, stats, [])
  | .push id k =>
    ({ s with work := s.work.modify id (·.push k) }, stats.countProduced k.kind, [.activate id])
  | .activate id =>
    if s.work.isActive id then (s, stats, [])
    else ({ s with work := s.work.setActive id true }, stats, [.enqueue id])
  | .enqueue id => ({ s with work := s.work.enqueue id }, stats, [])
  | .countDecomposition => (s, stats.countDecomposition s.desk.timed, [])
  | .countRule kind => (s, stats.countRule s.desk.timed kind, [])
  | .reportRefuted root =>
    (s.report (.contextInconsistent (s.work.label root)), stats, [])

end Agenda

end Subsumption
