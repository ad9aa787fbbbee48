/-!
Forms: the tree in which values are written down, made of numbers, texts, lists and objects. Here
are the ways in which a reader takes a form apart. A record may be written as an object, whose
further fields are ignored, or as the list of its fields in order. A case of a choice is written as
its name, with its content if it has any, and the fields of a case are always named.
-/
namespace Subsumption

inductive Form where
  | null
  | bool (b : Bool)
  | integer (n : Int)
  /-- A number with decimal places. -/
  | decimal (digits : Int) (places : Nat)
  | text (s : String)
  | list (items : List Form)
  | object (fields : List (String × Form))
deriving Inhabited, Repr

namespace Form

/-- A number of 32 bits; a number with decimal places is not one, whatever its value. -/
def word? : Form → Option UInt32
  | .integer n => if 0 ≤ n ∧ n.toNat < UInt32.size then some (UInt32.ofNat n.toNat) else none
  | _ => none

def text? : Form → Option String
  | .text s => some s
  | _ => none

def items? : Form → Option (List Form)
  | .list items => some items
  | _ => none

/-- The fields of a record, in the order of their names. -/
def fields? (names : List String) : Form → Option (List Form)
  | .object fields => names.mapM fun name => fields.lookup name
  | .list items => if items.length = names.length then some items else none
  | _ => none

/-- The name of a case and its content. -/
def case? : Form → Option (String × Option Form)
  | .text name => some (name, none)
  | .object [(name, content)] => some (name, some content)
  | _ => none

/-- The name of a case that has no content. -/
def plainCase? (f : Form) : Option String :=
  match f.case? with
  | some (name, none) => some name
  | some (name, some .null) => some name
  | _ => none

def ofWord (w : UInt32) : Form := .integer w.toNat

/-- A case with the fields of its content. -/
def ofCase (name : String) (fields : List (String × Form)) : Form :=
  .object [(name, .object fields)]

theorem word?_ofWord (w : UInt32) : (ofWord w).word? = some w := by
  have h : 0 ≤ (w.toNat : Int) ∧ (w.toNat : Int).toNat < UInt32.size :=
    ⟨Int.natCast_nonneg _, w.toNat_lt⟩
  rw [ofWord, word?, if_pos h, Int.toNat_natCast, UInt32.ofNat_toNat]

end Form

/-- Values with a written form. -/
class Serial (α : Type) where
  form : α → Form
  read? : Form → Option α

namespace Serial

variable {α : Type} [Serial α]

/-- Reads a record of one field. -/
def readOne? {β : Type} (field : String) (f : Form) (make : α → β) : Option β :=
  match f.fields? [field] with
  | some [a] => (read? a).map make
  | _ => none

/-- Reads a record of two fields, each in its own way. -/
def readTwo? {α β γ : Type} (first second : String) (a : Form → Option α) (b : Form → Option β)
    (f : Form) (make : α → β → γ) : Option γ :=
  match f.fields? [first, second] with
  | some [x, y] => do
    let x ← a x
    let y ← b y
    some (make x y)
  | _ => none

/-- Reads a record of three fields, each in its own way. -/
def readThree? {α β γ δ : Type} (first second third : String) (a : Form → Option α)
    (b : Form → Option β) (c : Form → Option γ) (f : Form) (make : α → β → γ → δ) : Option δ :=
  match f.fields? [first, second, third] with
  | some [x, y, z] => do
    let x ← a x
    let y ← b y
    let z ← c z
    some (make x y z)
  | _ => none

/-- Reads a list, all of whose items have to be readable. -/
def readList? (f : Form) : Option (List α) :=
  f.items?.bind fun items => items.mapM read?

def formList (xs : List α) : Form := .list (xs.map form)

instance : Serial (List α) := ⟨formList, readList?⟩

instance : Serial UInt32 := ⟨Form.ofWord, Form.word?⟩

instance : Serial String := ⟨.text, Form.text?⟩

end Serial

end Subsumption
