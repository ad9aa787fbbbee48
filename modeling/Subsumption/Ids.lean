/-!
Numbers that name things. Nodes, properties and disjointness axioms are numbered densely in the
order in which an ontology meets them; each kind of number has a type of its own, so that one
cannot be taken for another. Numbers are words of 32 bits, also in serialized form.
-/
namespace Subsumption

/-- The number of a class expression. -/
structure NodeId where
  value : UInt32
deriving DecidableEq, Inhabited, Repr

/-- The number of an object property. -/
structure PropertyId where
  value : UInt32
deriving DecidableEq, Inhabited, Repr

/-- The number of a disjointness axiom. -/
structure DisjointnessId where
  value : UInt32
deriving DecidableEq, Inhabited, Repr

namespace NodeId

variable (n : NodeId)

def index : Nat := n.value.toNat

/-- The number of the entry at position `i` of a table. -/
def ofIndex (i : Nat) : NodeId := ⟨UInt32.ofNat i⟩

def text : String := "#" ++ toString n.index

theorem index_ofIndex {i : Nat} (h : i < UInt32.size) : (ofIndex i).index = i := by
  simp only [index, ofIndex, UInt32.toNat_ofNat']
  exact Nat.mod_eq_of_lt h

@[simp] theorem ofIndex_index : ofIndex n.index = n := by
  simp [index, ofIndex]

theorem index_lt : n.index < UInt32.size := n.value.toNat_lt

theorem index_inj {n m : NodeId} : n.index = m.index ↔ n = m := by
  constructor
  · intro h
    rw [← ofIndex_index n, ← ofIndex_index m, h]
  · rintro rfl
    rfl

end NodeId

namespace PropertyId

variable (p : PropertyId)

def index : Nat := p.value.toNat

/-- The number of the entry at position `i` of a table. -/
def ofIndex (i : Nat) : PropertyId := ⟨UInt32.ofNat i⟩

def text : String := "p" ++ toString p.index

theorem index_ofIndex {i : Nat} (h : i < UInt32.size) : (ofIndex i).index = i := by
  simp only [index, ofIndex, UInt32.toNat_ofNat']
  exact Nat.mod_eq_of_lt h

@[simp] theorem ofIndex_index : ofIndex p.index = p := by
  simp [index, ofIndex]

theorem index_lt : p.index < UInt32.size := p.value.toNat_lt

theorem index_inj {p q : PropertyId} : p.index = q.index ↔ p = q := by
  constructor
  · intro h
    rw [← ofIndex_index p, ← ofIndex_index q, h]
  · rintro rfl
    rfl

end PropertyId

namespace DisjointnessId

variable (d : DisjointnessId)

def index : Nat := d.value.toNat

/-- The number of the entry at position `i` of a table. -/
def ofIndex (i : Nat) : DisjointnessId := ⟨UInt32.ofNat i⟩

def text : String := "d" ++ toString d.index

theorem index_ofIndex {i : Nat} (h : i < UInt32.size) : (ofIndex i).index = i := by
  simp only [index, ofIndex, UInt32.toNat_ofNat']
  exact Nat.mod_eq_of_lt h

@[simp] theorem ofIndex_index : ofIndex d.index = d := by
  simp [index, ofIndex]

end DisjointnessId

end Subsumption
