import MetricLayer.Settings.Basic
import MetricLayer.Toml.Reader

/-!
# Settings as TOML

Settings are kept in a TOML document with a table for each section. Keys and sections that are not
known are skipped, though no number in them may be broken, and what is not written keeps its own
value.
-/

namespace MetricLayer

/-- Why settings cannot be taken from a file. -/
inductive SettingsError where
  /-- There is no file. -/
  | notFound
  /-- The file is no text. -/
  | unreadable
  /-- The text is no document of settings. -/
  | malformed
  /-- The settings cannot be used. -/
  | invalid (reason : String)
  deriving DecidableEq, Repr

namespace SettingsError

/-- What is wrong with settings that cannot be used. -/
def message? : SettingsError → Option String
  | invalid reason => some s!"Invalid configuration: {reason}"
  | _ => none

end SettingsError

namespace Toml.Value

/-- A truth value. -/
def asBool? : Value → Option Bool
  | bool b => some b
  | _ => none

/-- A whole number from zero up to and including a bound. -/
def asNat? (bound : Nat) : Value → Option Nat
  | integer (.ofNat n) => if n ≤ bound then some n else none
  | _ => none

/-- Whether a value has no parts. -/
def isVacant : Value → Bool
  | array items => items.isEmpty
  | tables items => items.isEmpty
  | table _ members => members.isEmpty
  | _ => false

/-- The name of a value of an enumeration: a string, or the only key of a table, whose value is an
empty array or table. -/
def variant? : Value → Option String
  | string s => some s
  | table _ [(key, v)] => if v.isVacant then some key else none
  | _ => none

/-- The fields of a record: a table with field names, whose other members must be whole; an array in
the order of the fields, of which the rest is not looked at; or a date or time, which names no
field. -/
def fields? (names : List String) : Value → Option (List (String × Value))
  | table _ members =>
    if members.all fun (key, v) => names.contains key || v.isWhole then some members else none
  | array items => some (names.zip items)
  | tables items => some (names.zip items)
  | moment => some []
  | _ => none

end Toml.Value

/-- A field of a record with a value of its own when it is not written. -/
def Toml.field {α : Type} (fields : List (String × Toml.Value)) (name : String)
    (decode : Toml.Value → Option α) (default : α) : Option α :=
  match fields.lookup name with
  | some v => decode v
  | none => some default

namespace WalkRules

def ofToml? (v : Toml.Value) : Option WalkRules := do
  let fields ← v.fields? ["max_path_depth", "allow_reverse_joins"]
  let default : WalkRules := {}
  let maxDepth ←
    Toml.field fields "max_path_depth" (Toml.Value.asNat? (UInt64.size - 1)) default.maxDepth
  let reverseJoins ←
    Toml.field fields "allow_reverse_joins" Toml.Value.asBool? default.reverseJoins
  return { maxDepth, reverseJoins }

end WalkRules

namespace ReviewRules

def ofToml? (v : Toml.Value) : Option ReviewRules := do
  let fields ← v.fields? ["rejection", "report_ambiguous_joins", "check_include_cycles"]
  let default : ReviewRules := {}
  let policy ←
    Toml.field fields "rejection"
      (fun v => v.variant?.bind (Json.ofName? Policy.all Policy.name)) default.policy
  let ambiguousJoins ←
    Toml.field fields "report_ambiguous_joins" Toml.Value.asBool? default.ambiguousJoins
  let includeCycles ←
    Toml.field fields "check_include_cycles" Toml.Value.asBool? default.includeCycles
  return { policy, ambiguousJoins, includeCycles }

end ReviewRules

namespace Settings

/-- The settings of a document. -/
def ofMembers? (members : List (String × Toml.Value)) : Option Settings := do
  let sections ← (Toml.Value.table .header members).fields? ["compiler", "validator"]
  let walk ← Toml.field sections "compiler" WalkRules.ofToml? {}
  let review ← Toml.field sections "validator" ReviewRules.ofToml? {}
  return { walk, review }

/-- Settings under which no path could be walked cannot be used. -/
def validate (s : Settings) : Except SettingsError Settings :=
  if s.walk.maxDepth = 0 then .error (.invalid "compiler.max_path_depth must be at least 1")
  else .ok s

/-- Reads settings from TOML text. -/
def ofText (text : String) : Except SettingsError Settings :=
  match (Toml.ofText? text).bind ofMembers? with
  | some s => s.validate
  | none => .error .malformed

/-- Reads settings from the bytes of a file, if there is one. -/
def ofFile (bytes : Option ByteArray) : Except SettingsError Settings :=
  match bytes with
  | none => .error .notFound
  | some bytes =>
    match String.fromUTF8? bytes with
    | some text => ofText text
    | none => .error .unreadable

/-- A truth value in TOML. -/
def boolText (b : Bool) : String := if b then "true" else "false"

/-- The settings as TOML text. -/
def toText (s : Settings) : String :=
  String.join
    (["[compiler]", s!"max_path_depth = {s.walk.maxDepth}",
        "allow_reverse_joins = " ++ boolText s.walk.reverseJoins, "", "[validator]",
        "rejection = \"" ++ s.review.policy.name ++ "\"",
        "report_ambiguous_joins = " ++ boolText s.review.ambiguousJoins,
        "check_include_cycles = " ++ boolText s.review.includeCycles].map fun line => line ++ "\n")

end Settings

end MetricLayer
