import Subsumption.Text.Extending
import Subsumption.Text.Unprintable

/-!
Texts as they are shown in messages: between double quotes, on one line, and with every character
that could not be told from others written as an escape.
-/
namespace Subsumption.Text

/-- A character by its code point. -/
def codePoint (c : Char) : String :=
  "\\u\x7b" ++ String.ofList (Nat.toDigits 16 c.toNat) ++ "\x7d"

/-- What stands for a character between quotes. A single quote stands for itself. -/
def quoteChar (c : Char) : String :=
  match c with
  | '\x00' => "\\0"
  | '\t' => "\\t"
  | '\r' => "\\r"
  | '\n' => "\\n"
  | '"' => "\\\""
  | '\\' => "\\\\"
  | c => if isExtending c || isUnprintable c then codePoint c else String.singleton c

def quote (s : String) : String :=
  "\"" ++ String.join (s.toList.map quoteChar) ++ "\""

end Subsumption.Text
