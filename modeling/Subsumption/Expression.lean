import Subsumption.Ids

/-!
Class expressions whose parts are numbered nodes. An intersection keeps its conjuncts in the order
of their numbers, so that both ways of writing it are one expression.
-/
namespace Subsumption

/-- The form of a node; `top` is owl:Thing and `bottom` is owl:Nothing. -/
inductive Expression where
  | named (name : String)
  | top
  | bottom
  | intersection (first second : NodeId)
  | existential (property : PropertyId) (filler : NodeId)
deriving DecidableEq, Inhabited, Repr

namespace Expression

/-- The intersection of two nodes, the smaller number first. -/
def meet (a b : NodeId) : Expression :=
  if a.value ≤ b.value then .intersection a b else .intersection b a

def isNamed : Expression → Bool
  | .named _ => true
  | _ => false

theorem meet_comm (a b : NodeId) : meet a b = meet b a := by
  unfold meet
  by_cases h : a.value ≤ b.value <;> by_cases k : b.value ≤ a.value
  · have e : a = b := by
      cases a; cases b
      exact congrArg NodeId.mk (UInt32.le_antisymm h k)
    subst e
    rfl
  · simp [h, k]
  · simp [h, k]
  · exact absurd (UInt32.le_total a.value b.value) (by simp [h, k])

end Expression

end Subsumption
