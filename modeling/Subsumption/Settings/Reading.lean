import Subsumption.Settings.Override
import Subsumption.Toml.Document

/-!
Settings from a file. The file is a TOML document with the keys `workers`, `threshold.base`,
`threshold.per_worker` and `statistics.rule_timings`, all of them optional and no others. A table may
also be given as the list of its values in that order.
-/
namespace Subsumption.Settings

open Toml (Value Entries)

/-- The values of a record: those of a table by key, where no other key may stand, or those of a
list by place. A value that is missing is not an error. -/
def valuesOf? (keys : List String) : Value → Option (List (Option Value))
  | .table _ entries =>
    if entries.all fun e => keys.contains e.1 then some (keys.map fun k => entries.lookup k)
    else none
  | .list items => some ((List.range keys.length).map fun i => items[i]?)
  | _ => none

/-- A number of 64 bits. -/
def word? : Value → Option UInt64
  | .integer n => if 0 ≤ n ∧ n ≤ largest then some (.ofNat n.toNat) else none
  | _ => none

def truth? : Value → Option Bool
  | .boolean b => some b
  | _ => none

/-- A value that is there must be readable; one that is not there is as in the standard settings. -/
def orStandard? {α : Type} (read : Value → Option α) (standard : α) : Option Value → Option α
  | none => some standard
  | some v => read v

def threshold? (v : Value) : Option (UInt64 × UInt64) :=
  match valuesOf? ["base", "per_worker"] v with
  | some [base, perWorker] => do
    let base ← orStandard? word? standardThreshold.1 base
    let perWorker ← orStandard? word? standardThreshold.2 perWorker
    some (base, perWorker)
  | _ => none

def statistics? (v : Value) : Option Bool :=
  match valuesOf? ["rule_timings"] v with
  | some [timings] => orStandard? truth? standardTimings timings
  | _ => none

/-- The settings that the table of a document holds. -/
def ofEntries? (host : Machine) (t : Entries) : Option Settings :=
  match valuesOf? ["workers", "threshold", "statistics"] (.table .header t) with
  | some [workers, threshold, statistics] => do
    let workers ← orStandard? word? host.workers workers
    let (base, perWorker) ← orStandard? threshold? standardThreshold threshold
    let ruleTimings ← orStandard? statistics? standardTimings statistics
    some ⟨workers, base, perWorker, ruleTimings⟩
  | _ => none

/-! ### Failures -/

/-- Why a file gives no text. -/
inductive ReadFailure where
  | missing
  | directory
  | notUtf8
  | other (reason : String)
deriving DecidableEq, Repr

def ReadFailure.message : ReadFailure → String
  | .missing => "No such file or directory (os error 2)"
  | .directory => "Is a directory (os error 21)"
  | .notUtf8 => "stream did not contain valid UTF-8"
  | .other reason => reason

inductive SettingsError where
  | read (path : String) (why : ReadFailure)
  | parse (path : String)
  | noWorkers
deriving DecidableEq, Repr

/-- The text of a failure. What is wrong with a document is written `<toml>`. -/
def SettingsError.message : SettingsError → String
  | .read path why => "failed to read config at " ++ path ++ ": " ++ why.message
  | .parse path => "failed to parse config at " ++ path ++ ": <toml>"
  | .noWorkers => "invalid config: workers must be at least 1"

/-- The warning that the standard settings are used instead. -/
def SettingsError.fallback (e : SettingsError) : Warning :=
  .fallback (e.message ++ "; using default saturation config")

/-- Settings without workers are of no use. -/
def validate (s : Settings) : Except SettingsError Settings :=
  if s.workers = 0 then .error .noWorkers else .ok s

/-- The settings of a document. That it cannot be read is told before that there are no workers. -/
def parse (host : Machine) (path text : String) : Except SettingsError Settings :=
  match (Toml.read? text).bind (ofEntries? host) with
  | none => .error (.parse path)
  | some s => s.validate

/-! ### Files -/

/-- What is found at the path of a file. -/
inductive SettingsFile where
  | absent
  | directory
  | unreadable (reason : String)
  | bytes (content : ByteArray)

namespace SettingsFile

def text? : SettingsFile → Except ReadFailure String
  | .absent => .error .missing
  | .directory => .error .directory
  | .unreadable reason => .error (.other reason)
  | .bytes content =>
    match String.fromUTF8? content with
    | some s => .ok s
    | none => .error .notUtf8

def isPresent : SettingsFile → Bool
  | .absent => false
  | _ => true

end SettingsFile

/-- The settings of a file, with the number of workers from the environment if there is a valid
one. -/
def loadFrom (host : Machine) (path : String) (file : SettingsFile) (env : Option String) :
    Except SettingsError (Settings × List Warning) :=
  match file.text? with
  | .error why => .error (.read path why)
  | .ok text =>
    match parse host path text with
    | .error e => .error e
    | .ok s => .ok (s.override env)

/-- Settings in any case: without a file the standard ones with a look into the environment, and
instead of a file that fails the standard ones as they are. -/
def load (host : Machine) (path : String) (file : SettingsFile) (env : Option String) :
    Settings × List Warning :=
  if file.isPresent then
    match loadFrom host path file env with
    | .ok r => r
    | .error e => (standard host, [e.fallback])
  else (standard host).override env

/-- Where the file of settings is below a home directory. -/
def pathBelow (home : String) : String := home ++ "/.saturate/config.toml"

end Subsumption.Settings
