import Subsumption.Facts
import Subsumption.Conclusion

/-!
Contexts: everything known about one root. A context holds the facts derived for its root and the
conclusions still to be processed, oldest first. Its activation token is taken while it waits in the
active queue or is being drained, so that it is never in two hands.
-/
namespace Subsumption

structure Context where
  root : NodeId
  saturated : Bool
  inconsistent : Bool
  /-- Whether the activation token is taken. -/
  active : Bool
  pending : List Conclusion
  facts : Facts
deriving DecidableEq, Inhabited, Repr

namespace Context

variable (c : Context)

def fresh (root : NodeId) : Context := ⟨root, false, false, false, [], .empty⟩

def push (k : Conclusion) : Context := { c with pending := c.pending ++ [k] }

/-- Takes the oldest pending conclusion away. -/
def popped : Context := { c with pending := c.pending.tail }

/-- Whether every source linked to the root is among the kept ones. -/
def sourcesWithin (kept : List NodeId) : Bool := c.facts.backward.all (kept.contains ·.2)

/-- A copy without the links from sources outside `kept`, idle and with nothing pending; there is no
need for one if all sources are kept. -/
def withoutSources? (kept : List NodeId) : Option Context :=
  if c.sourcesWithin kept then none
  else some { c with active := false, pending := [], facts := c.facts.keepSources kept }

end Context

end Subsumption
