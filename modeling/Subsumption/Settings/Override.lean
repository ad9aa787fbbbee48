import Subsumption.Settings
import Subsumption.Text.Blank
import Subsumption.Text.Quoted

/-!
The number of workers from the environment. The value counts if, without the white space at its
ends, it is a positive number of 64 bits in decimal digits, with a plus sign or without; any other
value is ignored with a warning.
-/
namespace Subsumption.Settings

/-- The name of the variable. -/
def workersVariable : String := "SATURATE_WORKERS"

/-- The number that decimal digits make. -/
def digitsValue (ds : List Char) : Nat :=
  ds.foldl (fun n c => 10 * n + (c.toNat - '0'.toNat)) 0

/-- One plus sign may stand in front of a number. -/
def dropPlus : List Char → List Char
  | '+' :: cs => cs
  | cs => cs

/-- The number of workers that a value stands for. -/
def workersOf? (value : String) : Option UInt64 :=
  let ds := dropPlus (Text.trim value.toList)
  if ds ≠ [] ∧ ds.all Char.isDigit ∧ 0 < digitsValue ds ∧ digitsValue ds ≤ largest then
    some (.ofNat (digitsValue ds))
  else none

/-- Why something was not taken as it was given. -/
inductive Warning where
  | ignoredOverride (value : String)
  | fallback (reason : String)
deriving DecidableEq, Repr

def Warning.message : Warning → String
  | .ignoredOverride value => "Ignoring invalid " ++ workersVariable ++ "=" ++ Text.quote value
  | .fallback reason => reason

/-- Settings after a look into the environment, where the variable may not be set. -/
def override (s : Settings) : Option String → Settings × List Warning
  | none => (s, [])
  | some value =>
    match workersOf? value with
    | some workers => ({ s with workers }, [])
    | none => (s, [.ignoredOverride value])

end Subsumption.Settings
