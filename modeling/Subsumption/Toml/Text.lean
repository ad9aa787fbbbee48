import Subsumption.Toml.Scalar

/-!
TOML texts and keys. A text stands in double quotes, where a backslash begins an escape, or in
single quotes, where it does not; either quote three times opens a text of several lines. A key is a
bare word or a text of one line, and keys joined by dots make a path.

Every reader takes the text after the opening quote and gives what follows the closing one. The
numbers that count down are lengths of the text, which every step shortens.
-/
namespace Subsumption.Toml

/-- A character that may stand in a line: no control character but the tabulator. -/
def isLineChar (c : Char) : Bool := c == '\t' || (32 ≤ c.toNat && c.toNat != 127)

/-- Reads the end of a line. -/
def newline? : List Char → Option (List Char)
  | '\n' :: cs => some cs
  | '\r' :: '\n' :: cs => some cs
  | _ => none

/-- Skips blanks and line ends. -/
def skipLines : List Char → List Char
  | [] => []
  | '\r' :: '\n' :: cs => skipLines cs
  | c :: cs => if isBlank c || c == '\n' then skipLines cs else c :: cs

/-- The character whose code point is written with `n` hexadecimal digits. -/
def codePoint? (n : Nat) (cs : List Char) : Option (Char × List Char) :=
  let ds := cs.take n
  let v := ofDigits 16 ds
  if ds.length = n ∧ ds.all (isDigitOf 16) ∧ v.isValidChar then some (.ofNat v, cs.drop n) else none

/-- Reads an escape after its backslash. -/
def escape? : List Char → Option (Char × List Char)
  | 'b' :: cs => some ('\x08', cs)
  | 't' :: cs => some ('\t', cs)
  | 'n' :: cs => some ('\n', cs)
  | 'f' :: cs => some ('\x0c', cs)
  | 'r' :: cs => some ('\r', cs)
  | 'e' :: cs => some ('\x1b', cs)
  | '"' :: cs => some ('"', cs)
  | '\\' :: cs => some ('\\', cs)
  | 'x' :: cs => codePoint? 2 cs
  | 'u' :: cs => codePoint? 4 cs
  | 'U' :: cs => codePoint? 8 cs
  | _ => none

/-- A text in double quotes. -/
def quoted? : Nat → List Char → Option (List Char × List Char)
  | 0, _ => none
  | _ + 1, [] => none
  | _ + 1, '"' :: cs => some ([], cs)
  | n + 1, '\\' :: cs => do
    let (c, cs) ← escape? cs
    let (s, cs) ← quoted? n cs
    some (c :: s, cs)
  | n + 1, c :: cs =>
    if isLineChar c then (quoted? n cs).map fun (s, cs) => (c :: s, cs) else none

/-- A text in single quotes. -/
def verbatim? : List Char → Option (List Char × List Char)
  | [] => none
  | '\'' :: cs => some ([], cs)
  | c :: cs => if isLineChar c then (verbatim? cs).map fun (s, cs) => (c :: s, cs) else none

/-- The end of a text of several lines: three quotes, before which two more may belong to the text.
Gives the quotes that belong to it. -/
def closing? (q : Char) (cs : List Char) : Option (List Char × List Char) :=
  let run := (cs.take 5).takeWhile (· == q)
  if run.length < 3 then none else some (run.drop 3, cs.drop run.length)

/-- A line end after a backslash, with the blanks in front of it. -/
def brokenLine? (cs : List Char) : Option (List Char) :=
  (newline? (skipBlanks cs)).map skipLines

/-- A text of several lines in double quotes. -/
def quotedLines? : Nat → List Char → Option (List Char × List Char)
  | 0, _ => none
  | _ + 1, [] => none
  | n + 1, '"' :: cs =>
    match closing? '"' ('"' :: cs) with
    | some closed => some closed
    | none => (quotedLines? n cs).map fun (s, cs) => ('"' :: s, cs)
  | n + 1, '\\' :: cs =>
    match brokenLine? cs with
    | some cs => quotedLines? n cs
    | none => do
      let (c, cs) ← escape? cs
      let (s, cs) ← quotedLines? n cs
      some (c :: s, cs)
  | n + 1, c :: cs =>
    match newline? (c :: cs) with
    | some cs => (quotedLines? n cs).map fun (s, cs) => ('\n' :: s, cs)
    | none => if isLineChar c then (quotedLines? n cs).map fun (s, cs) => (c :: s, cs) else none

/-- A text of several lines in single quotes. -/
def verbatimLines? : Nat → List Char → Option (List Char × List Char)
  | 0, _ => none
  | _ + 1, [] => none
  | n + 1, '\'' :: cs =>
    match closing? '\'' ('\'' :: cs) with
    | some closed => some closed
    | none => (verbatimLines? n cs).map fun (s, cs) => ('\'' :: s, cs)
  | n + 1, c :: cs =>
    match newline? (c :: cs) with
    | some cs => (verbatimLines? n cs).map fun (s, cs) => ('\n' :: s, cs)
    | none => if isLineChar c then (verbatimLines? n cs).map fun (s, cs) => (c :: s, cs) else none

/-- A line end right after the opening quotes does not belong to the text. -/
def skipNewline (cs : List Char) : List Char := (newline? cs).getD cs

/-- Reads a text with its quotes, if there is one. -/
def readText? (cs : List Char) : Option (String × List Char) :=
  let result :=
    match cs with
    | '"' :: '"' :: '"' :: cs => quotedLines? (cs.length + 1) (skipNewline cs)
    | '"' :: cs => quoted? (cs.length + 1) cs
    | '\'' :: '\'' :: '\'' :: cs => verbatimLines? (cs.length + 1) (skipNewline cs)
    | '\'' :: cs => verbatim? cs
    | _ => none
  result.map fun (s, cs) => (String.ofList s, cs)

def isBareChar (c : Char) : Bool := c.isAlphanum || c == '_' || c == '-'

/-- Reads one key. -/
def readKey? (cs : List Char) : Option (String × List Char) :=
  let result :=
    match cs with
    | '"' :: cs => quoted? (cs.length + 1) cs
    | '\'' :: cs => verbatim? cs
    | cs =>
      let key := cs.takeWhile isBareChar
      if key.isEmpty then none else some (key, cs.dropWhile isBareChar)
  result.map fun (s, cs) => (String.ofList s, cs)

/-- Reads keys joined by dots, not more of them than the number says; blanks may stand around
them. -/
def readPath? : Nat → List Char → Option (List String × List Char)
  | 0, _ => none
  | n + 1, cs => do
    let (key, cs) ← readKey? (skipBlanks cs)
    match skipBlanks cs with
    | '.' :: cs =>
      let (keys, cs) ← readPath? n cs
      some (key :: keys, cs)
    | cs => some ([key], cs)

end Subsumption.Toml
