/-!
TOML values, and tables that grow line by line. A table remembers how it came about, because that
decides how it may grow: a table written in braces is complete, a table made by dotted keys grows by
dotted keys only, and a table may have one header.
-/
namespace Subsumption.Toml

/-- How a table came about. -/
inductive TableOrigin where
  /-- Written in braces. -/
  | inline
  /-- Made by a dotted key that leads through it. -/
  | dotted
  /-- Made by a header that leads through it. -/
  | implied
  /-- Opened by a header of its own. -/
  | header
deriving DecidableEq, Repr

/-- Of floats and of dates and times only the kind is kept. -/
inductive Value where
  | text (s : String)
  | integer (n : Int)
  /-- What was taken for an integer, but is none. -/
  | illegible
  | float
  | boolean (b : Bool)
  | moment
  | list (items : List Value)
  | table (origin : TableOrigin) (entries : List (String × Value))
  /-- A list of tables, each opened by a header of its own. -/
  | tables (elements : List (List (String × Value)))
deriving Repr, Inhabited

abbrev Entries := List (String × Value)

namespace Entries

/-- Changes the value of a key that is there. -/
def replace (t : Entries) (key : String) (v : Value) : Entries :=
  t.map fun e => if e.1 = key then (key, v) else e

/-- Enters a value under a dotted key, whose last part must be new. -/
def insert? : List String → Value → Entries → Option Entries
  | [], _, _ => none
  | [key], v, t => if (t.lookup key).isSome then none else some (t ++ [(key, v)])
  | key :: rest, v, t =>
    match t.lookup key with
    | none => (insert? rest v []).map fun u => t ++ [(key, .table .dotted u)]
    | some (.table origin u) =>
      if origin = .dotted ∨ origin = .implied then
        (insert? rest v u).map fun u => t.replace key (.table origin u)
      else none
    | some _ => none

/-- Goes along the parts of a header, making the tables that are missing, and changes the table at
the end. A list of tables stands for its last element. -/
def within? (change : Entries → Option Entries) : List String → Entries → Option Entries
  | [], t => change t
  | key :: rest, t =>
    match t.lookup key with
    | none => (within? change rest []).map fun u => t ++ [(key, .table .implied u)]
    | some (.table origin u) =>
      if origin = .inline then none
      else (within? change rest u).map fun u => t.replace key (.table origin u)
    | some (.tables elements) =>
      (within? change rest (elements.getLast?.getD [])).map fun u =>
        t.replace key (.tables (elements.dropLast ++ [u]))
    | some _ => none

/-- Opens a table by its header: it is new, or was only implied so far. -/
def openTable? (path : List String) (t : Entries) : Option Entries :=
  match path.getLast? with
  | none => none
  | some key =>
    t.within? (fun u =>
      match u.lookup key with
      | none => some (u ++ [(key, .table .header [])])
      | some (.table .implied v) => some (u.replace key (.table .header v))
      | some _ => none) path.dropLast

/-- Opens a further element of a list of tables. -/
def openElement? (path : List String) (t : Entries) : Option Entries :=
  match path.getLast? with
  | none => none
  | some key =>
    t.within? (fun u =>
      match u.lookup key with
      | none => some (u ++ [(key, .tables [[]])])
      | some (.tables elements) => some (u.replace key (.tables (elements ++ [[]])))
      | some _ => none) path.dropLast

end Entries

end Subsumption.Toml
