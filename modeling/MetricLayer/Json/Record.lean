import MetricLayer.Json.Basic

/-!
# Records in JSON

How a record with named fields is found in a JSON value. A record is an object, whose unknown keys
are skipped and whose known keys must not repeat, or an array of its fields in their declared order,
of which the last may be missing. A value of an enumeration is its name alone, or an object with
that name as the only key and null as its value.
-/

namespace MetricLayer.Json

/-- The known fields of a record that were written, and whether they were written with names. -/
structure Fields where
  named : Bool
  given : List (String × Json)

/-- The fields of a record with the given field names. -/
def fields? (names : List String) : Json → Option Fields
  | object members =>
    let known := members.filter fun m => names.contains m.1
    if (known.map Prod.fst).Nodup then some ⟨true, known⟩ else none
  | array items => if items.length ≤ names.length then some ⟨false, names.zip items⟩ else none
  | _ => none

namespace Fields

variable {α : Type}

/-- A field that must be written. -/
def required (f : Fields) (name : String) (decode : Json → Option α) : Option α :=
  (f.given.lookup name).bind decode

/-- A field with a value of its own when it is not written. -/
def withDefault (f : Fields) (name : String) (decode : Json → Option α) (default : α) : Option α :=
  match f.given.lookup name with
  | some x => decode x
  | none => some default

/-- A field that may be null; it may be left out of an object, but not of an array. -/
def nullable (f : Fields) (name : String) (decode : Json → Option (Option α)) :
    Option (Option α) :=
  match f.given.lookup name with
  | some x => decode x
  | none => if f.named then some none else none

end Fields

/-! ## Values of the fields -/

/-- A truth value. -/
def asBool? : Json → Option Bool
  | bool b => some b
  | _ => none

/-- A string. -/
def asString? : Json → Option String
  | string s => some s
  | _ => none

/-- A whole number from zero up to and including a bound. -/
def asNat? (bound : Nat) : Json → Option Nat
  | integer false n => if n ≤ bound then some n else none
  | _ => none

/-- Null, or a value of another kind. -/
def orNull {α : Type} (decode : Json → Option α) : Json → Option (Option α)
  | null => some none
  | x => (decode x).map some

/-- An array, each item read in the same way. -/
def asList? {α : Type} (decode : Json → Option α) : Json → Option (List α)
  | array items => items.mapM decode
  | _ => none

/-- The name of a value of an enumeration. -/
def variant? : Json → Option String
  | string s => some s
  | object [(name, null)] => some name
  | _ => none

/-- The name of a value of an enumeration where an empty object may stand for null. -/
def looseVariant? : Json → Option String
  | object [(name, object [])] => some name
  | x => variant? x

/-- The value of an enumeration with a given name. -/
def ofName? {α : Type} (all : List α) (name : α → String) (s : String) : Option α :=
  all.find? fun x => name x = s

end MetricLayer.Json
