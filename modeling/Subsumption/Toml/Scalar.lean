import Subsumption.Toml.Value

/-!
TOML numbers, truth values, dates and times. Each is a word, and a date may have a time of day as a
second word. A word that begins as an integer is taken for one, whatever follows its first
underscore; that it is none only shows where its value is wanted.
-/
namespace Subsumption.Toml

def isBlank (c : Char) : Bool := c == ' ' || c == '\t'

def skipBlanks (cs : List Char) : List Char := cs.dropWhile isBlank

/-- The characters that end a word. -/
def wordEnds : List Char := ['=', ',', '[', ']', '\x7b', '\x7d', ' ', '\t', '#', '\r', '\n']

def isWordChar (c : Char) : Bool := !wordEnds.contains c

/-- Whether a text goes on with a further word after some blanks; a dot or a quote does not begin
one. -/
def goesOn (cs : List Char) : Bool :=
  match skipBlanks cs with
  | [] => false
  | c :: _ => isWordChar c && c != '.' && c != '"' && c != '\''

/-- The words at the beginning of a text, with the blanks between them, and what follows. -/
def words : List Char → List Char × List Char
  | [] => ([], [])
  | c :: cs =>
    if isWordChar c || (isBlank c && goesOn cs) then
      let (word, rest) := words cs
      (c :: word, rest)
    else ([], c :: cs)

/-! ### Numbers -/

/-- The value of a hexadecimal digit, in either case. -/
def digitValue (c : Char) : Nat :=
  if c.isDigit then c.toNat - '0'.toNat
  else if 'a' ≤ c ∧ c ≤ 'f' then c.toNat - 'a'.toNat + 10
  else if 'A' ≤ c ∧ c ≤ 'F' then c.toNat - 'A'.toNat + 10
  else 16

def isDigitOf (radix : Nat) (c : Char) : Bool := digitValue c < radix

/-- The number that digits make. -/
def ofDigits (radix : Nat) (ds : List Char) : Nat :=
  ds.foldl (fun n c => n * radix + digitValue c) 0

/-- A number in a given radix. -/
def natural? (radix : Nat) (ds : List Char) : Option Nat :=
  if ds ≠ [] ∧ ds.all (isDigitOf radix) then some (ofDigits radix ds) else none

def unsign : List Char → List Char
  | '+' :: cs => cs
  | '-' :: cs => cs
  | cs => cs

/-- A decimal number, which may have a sign. -/
def integer? : List Char → Option Int
  | '-' :: ds => (natural? 10 ds).map fun n => -(n : Int)
  | cs => (natural? 10 (unsign cs)).map Int.ofNat

/-- Whether a digit follows each underscore and precedes it; `may` says whether one precedes the
text. -/
def isGrouped (isDigit : Char → Bool) : (may : Bool) → List Char → Bool
  | _, [] => true
  | may, '_' :: cs => may && (cs.head?.map isDigit).getD false && isGrouped isDigit false cs
  | _, c :: cs => isGrouped isDigit (isDigit c) cs

/-- Underscores stand between digits. -/
def hasGroups (isDigit : Char → Bool) (cs : List Char) : Bool := isGrouped isDigit false cs

/-- The value of an integer, if it has one. -/
def integerValue (n : Option Int) : Value := (n.map .integer).getD .illegible

def dropUnderscores (cs : List Char) : List Char := cs.filter (· != '_')

/-- An integer with a radix, after the letter for it; there need not be any digit. -/
def prefixed? (radix : Nat) (cs : List Char) : Option Value :=
  let ds := dropUnderscores cs
  if ds.all (isDigitOf radix) && hasGroups (isDigitOf radix) cs then
    some (integerValue ((natural? radix ds).map Int.ofNat))
  else none

def isGroupChar (c : Char) : Bool := c.isDigit || c == '_'

/-- What follows digits and underscores, of which there is one digit at least. -/
def skipDigits? (cs : List Char) : Option (List Char) :=
  if (cs.takeWhile isGroupChar).any Char.isDigit then some (cs.dropWhile isGroupChar) else none

/-- The whole part of a float has no superfluous zeros in front. -/
def skipWhole? (cs : List Char) : Option (List Char) :=
  let whole := cs.takeWhile isGroupChar
  if whole.head? = some '0' ∧ 1 < (dropUnderscores whole).length then none else skipDigits? cs

/-- Reads decimal places, if there are any. -/
def skipPlaces? : List Char → Option (List Char)
  | '.' :: cs => skipDigits? cs
  | cs => some cs

/-- Reads an exponent, if there is one; zeros may stand in front of it. -/
def skipExponent? : List Char → Option (List Char)
  | 'e' :: cs => skipDigits? (unsign cs)
  | 'E' :: cs => skipDigits? (unsign cs)
  | cs => some cs

/-- A float without its sign, but for the places of underscores. -/
def isFloat (cs : List Char) : Bool :=
  (((skipWhole? cs).bind skipPlaces?).bind skipExponent?) == some []

def hasSuperfluousZero (cs : List Char) : Bool := cs.head? == some '0' && cs != ['0']

/-! ### Dates and times -/

/-- Reads a number of exactly `n` digits. -/
def fixed? (n : Nat) (cs : List Char) : Option (Nat × List Char) :=
  let ds := cs.take n
  if ds.length = n ∧ ds.all Char.isDigit then some (ofDigits 10 ds, cs.drop n) else none

def char? (c : Char) : List Char → Option (List Char)
  | d :: cs => if d = c then some cs else none
  | [] => none

def isLeapYear (y : Nat) : Bool := y % 4 == 0 && (y % 100 != 0 || y % 400 == 0)

def daysIn (y m : Nat) : Nat :=
  if m = 2 then (if isLeapYear y then 29 else 28)
  else if m = 4 ∨ m = 6 ∨ m = 9 ∨ m = 11 then 30 else 31

/-- Reads a date and gives what follows it. -/
def date? (cs : List Char) : Option (List Char) := do
  let (y, cs) ← fixed? 4 cs
  let (m, cs) ← fixed? 2 (← char? '-' cs)
  let (d, cs) ← fixed? 2 (← char? '-' cs)
  if 1 ≤ m ∧ m ≤ 12 ∧ 1 ≤ d ∧ d ≤ daysIn y m then some cs else none

/-- Reads the decimal places of a second, if there are any. -/
def secondPlaces? : List Char → Option (List Char)
  | '.' :: cs =>
    if (cs.takeWhile Char.isDigit).isEmpty then none else some (cs.dropWhile Char.isDigit)
  | cs => some cs

/-- Reads a time of day, of which the seconds may be left out. -/
def time? (cs : List Char) : Option (List Char) := do
  let (h, cs) ← fixed? 2 cs
  let (m, cs) ← fixed? 2 (← char? ':' cs)
  if 24 ≤ h ∨ 60 ≤ m then none
  else
    match cs with
    | ':' :: cs =>
      let (s, cs) ← fixed? 2 cs
      if 60 < s then none else secondPlaces? cs
    | cs => some cs

/-- Reads the distance from universal time, if it is given. -/
def offset? : List Char → Option (List Char)
  | 'Z' :: cs => some cs
  | 'z' :: cs => some cs
  | c :: cs =>
    if c = '+' ∨ c = '-' then do
      let (h, cs) ← fixed? 2 cs
      let (m, cs) ← fixed? 2 (← char? ':' cs)
      if 24 ≤ h ∨ 60 ≤ m then none else some cs
    else some (c :: cs)
  | [] => some []

def isMoment (cs : List Char) : Bool :=
  match date? cs with
  | some [] => true
  | some (c :: rest) =>
    (c == 'T' || c == 't' || c == ' ') && ((time? rest).bind offset?) == some []
  | none => time? cs == some []

/-! ### Scalars -/

/-- The value of a word that begins as a number; `cs` is the word without its sign. -/
def numeral? (word cs : List Char) : Option Value :=
  match cs.dropWhile Char.isDigit with
  | [] => if cs = [] ∨ hasSuperfluousZero cs then none else some (integerValue (integer? word))
  | c :: rest =>
    if c = '-' ∨ c = ':' then (if isMoment word then some .moment else none)
    else if rest.contains ' ' then none
    else if (c :: rest).any ['.', 'e', 'E'].contains then
      if isFloat cs && hasGroups Char.isDigit word then some .float else none
    else if c = '_' ∧ !hasSuperfluousZero cs ∧ hasGroups (isDigitOf 16) word then
      some (integerValue (integer? (dropUnderscores word)))
    else none

/-- The value of a word, or of a date and a time. -/
def scalar? (cs : List Char) : Option Value :=
  if cs = ['t', 'r', 'u', 'e'] then some (.boolean true)
  else if cs = ['f', 'a', 'l', 's', 'e'] then some (.boolean false)
  else if unsign cs = ['i', 'n', 'f'] ∨ unsign cs = ['n', 'a', 'n'] then some .float
  else
    match cs with
    | '0' :: 'x' :: ds => prefixed? 16 ds
    | '0' :: 'o' :: ds => prefixed? 8 ds
    | '0' :: 'b' :: ds => prefixed? 2 ds
    | _ => numeral? cs (unsign cs)

/-- Reads a scalar at the beginning of a text. -/
def readScalar? (cs : List Char) : Option (Value × List Char) :=
  let (word, rest) := words cs
  (scalar? word).map (·, rest)

end Subsumption.Toml
