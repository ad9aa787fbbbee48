import Subsumption.Toml.Text

/-!
TOML documents, version 1.1. A document is a sequence of lines, each an entry, a header or empty;
the lines are read one by one and entered into the table of the document.
-/
namespace Subsumption.Toml

/-- Skips blanks, line ends and comments; says whether the text begins within a comment. -/
def skipGaps : Bool → List Char → List Char
  | _, [] => []
  | true, '\r' :: '\n' :: cs => skipGaps false cs
  | true, c :: cs =>
    if c == '\n' then skipGaps false cs
    else if isLineChar c then skipGaps true cs
    else c :: cs
  | false, '\r' :: '\n' :: cs => skipGaps false cs
  | false, c :: cs =>
    if isBlank c || c == '\n' then skipGaps false cs
    else if c == '#' then skipGaps true cs
    else c :: cs

/-- How deep lists and tables may be nested within a value, and how many parts a key may have. -/
def maxDepth : Nat := 80

mutual

/-- Reads a value in which lists and tables may be nested as deep as `depth` says. The first number
counts nested values and items, and the length of the text is enough. -/
def readValue? : Nat → (depth : Nat) → List Char → Option (Value × List Char)
  | 0, _, _ => none
  | n + 1, depth, cs =>
    match cs, depth with
    | '[' :: _, 0 => none
    | '\x7b' :: _, 0 => none
    | '[' :: cs, d + 1 => (readItems? n d cs).map fun (items, cs) => (.list items, cs)
    | '\x7b' :: cs, d + 1 => (readEntries? n d [] cs).map fun (t, cs) => (.table .inline t, cs)
    | cs, _ =>
      match cs.head? with
      | some '"' | some '\'' => (readText? cs).map fun (s, cs) => (.text s, cs)
      | _ => readScalar? cs

/-- Reads the items of a list up to its bracket; a comma may follow the last one. -/
def readItems? : Nat → (depth : Nat) → List Char → Option (List Value × List Char)
  | 0, _, _ => none
  | n + 1, depth, cs =>
    match skipGaps false cs with
    | ']' :: cs => some ([], cs)
    | cs => do
      let (v, cs) ← readValue? n depth cs
      match skipGaps false cs with
      | ']' :: cs => some ([v], cs)
      | ',' :: cs =>
        let (vs, cs) ← readItems? n depth cs
        some (v :: vs, cs)
      | _ => none

/-- Reads the entries of a table up to its brace; a comma may follow the last one. Line ends and
comments may stand everywhere but within a key of several parts. -/
def readEntries? : Nat → (depth : Nat) → Entries → List Char → Option (Entries × List Char)
  | 0, _, _, _ => none
  | n + 1, depth, t, cs =>
    match skipGaps false cs with
    | '\x7d' :: cs => some (t, cs)
    | cs => do
      let (path, cs) ← readPath? maxDepth cs
      let cs ← char? '=' (skipGaps false cs)
      let (v, cs) ← readValue? n depth (skipGaps false cs)
      let t ← t.insert? path v
      match skipGaps false cs with
      | '\x7d' :: cs => some (t, cs)
      | ',' :: cs => readEntries? n depth t cs
      | _ => none

end

inductive Line where
  | empty
  | entry (path : List String) (v : Value)
  | table (path : List String)
  | element (path : List String)
deriving Repr

/-- What a line says, and what follows it. -/
def readContent? (cs : List Char) : Option (Line × List Char) :=
  match skipBlanks cs with
  | [] => some (.empty, [])
  | '[' :: '[' :: cs => do
    let (path, cs) ← readPath? maxDepth cs
    let cs ← char? ']' (← char? ']' cs)
    some (.element path, cs)
  | '[' :: cs => do
    let (path, cs) ← readPath? maxDepth cs
    let cs ← char? ']' cs
    some (.table path, cs)
  | c :: cs =>
    if c == '#' || c == '\n' || c == '\r' then some (.empty, c :: cs)
    else do
      let (path, cs) ← readPath? maxDepth (c :: cs)
      let cs ← char? '=' cs
      let cs := skipBlanks cs
      let (v, cs) ← readValue? (cs.length + 1) maxDepth cs
      some (.entry path v, cs)

def skipComment : List Char → List Char
  | '#' :: cs => cs.dropWhile isLineChar
  | cs => cs

/-- Reads lines until the text ends. -/
def readLines? : Nat → List Char → Option (List Line)
  | 0, _ => none
  | n + 1, cs => do
    let (line, cs) ← readContent? cs
    match skipComment (skipBlanks cs) with
    | [] => some [line]
    | cs =>
      let cs ← newline? cs
      let lines ← readLines? n cs
      some (line :: lines)

/-- Enters lines into a table; entries go where the latest header says. -/
def enter? : List String → Entries → List Line → Option Entries
  | _, t, [] => some t
  | here, t, .empty :: lines => enter? here t lines
  | here, t, .entry path v :: lines => do
    let t ← t.within? (·.insert? path v) here
    enter? here t lines
  | _, t, .table path :: lines => do
    let t ← t.openTable? path
    enter? path t lines
  | _, t, .element path :: lines => do
    let t ← t.openElement? path
    enter? path t lines

/-- The table of a document. A byte-order mark in front is skipped. -/
def read? (s : String) : Option Entries :=
  let cs :=
    match s.toList with
    | '\ufeff' :: cs => cs
    | cs => cs
  (readLines? (cs.length + 1) cs).bind (enter? [] [])

end Subsumption.Toml
