/-!
Tallies: one count for each of finitely many kinds. A tally is known by its counts, so each
operation has one law, which says what it does to the count of every kind.
-/
namespace Subsumption

structure Tally (n : Nat) where
  counts : Vector Nat n
deriving DecidableEq, Repr

namespace Tally

variable {n : Nat} (t u : Tally n) (i j : Fin n)

def zero : Tally n := ⟨.replicate n 0⟩

instance : Inhabited (Tally n) := ⟨zero⟩

def get : Nat := t.counts[i]

/-- Counts one more of a kind. -/
def bump : Tally n := ⟨t.counts.set i (t.counts[i] + 1)⟩

/-- Counts of two tallies taken together. -/
def add : Tally n := ⟨t.counts.zipWith (· + ·) u.counts⟩

def toList : List Nat := t.counts.toList

def total : Nat := t.toList.foldr (· + ·) 0

@[simp] theorem get_zero : (zero : Tally n).get i = 0 := by
  simp [zero, get]

theorem get_bump : (t.bump i).get j = if i = j then t.get j + 1 else t.get j := by
  simp only [bump, get, Fin.getElem_fin, Vector.getElem_set, Fin.ext_iff]
  split
  · rename_i h
    simp [h]
  · rfl

@[simp] theorem get_add : (t.add u).get i = t.get i + u.get i := by
  simp [add, get]

end Tally

end Subsumption
