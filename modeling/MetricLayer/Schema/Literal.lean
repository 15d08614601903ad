import MetricLayer.Json.Printer
import MetricLayer.Schema.Kind

/-!
# Literals

The constants that conditions compare fields with. In SQL text a string stands between single
quotes, and each single quote inside it is doubled; `quote` writes it so and `unquote?` reads it.
-/

namespace MetricLayer.Schema

/-- A constant in a condition. -/
inductive Literal where
  | bool (b : Bool)
  | number (x : Binary64)
  | string (s : String)
  deriving DecidableEq, Repr

namespace Literal

/-! ## SQL strings -/

/-- A text with each single quote doubled. -/
def doubleQuotes : List Char → List Char
  | [] => []
  | c :: cs => if c = '\'' then '\'' :: '\'' :: doubleQuotes cs else c :: doubleQuotes cs

/-- A text with each two single quotes side by side made one, from the left. -/
def halveQuotes : List Char → List Char
  | '\'' :: '\'' :: cs => '\'' :: halveQuotes cs
  | c :: cs => c :: halveQuotes cs
  | [] => []

/-- A text as a SQL string. -/
def quote (s : String) : String := String.ofList ('\'' :: (doubleQuotes s.toList ++ ['\'']))

/-! ## Properties -/

/-- The literal in SQL text. -/
def text : Literal → String
  | bool b => if b then "true" else "false"
  | number x => x.text .display
  | string s => quote s

/-- The name of the literal's own type. -/
def typeName : Literal → String
  | bool _ => "boolean"
  | number _ => "number"
  | string _ => "string"

/-- Whether the literal fits a field of a type. Times are written as strings. -/
def fits : Literal → ValueType → Bool
  | bool _, .boolean => true
  | number _, .number => true
  | string _, .string => true
  | string _, .time => true
  | _, _ => false

/-- Whether two literals are the same constant, numbers being compared as numbers. -/
def equals : Literal → Literal → Bool
  | bool a, bool b => a = b
  | number x, number y => x.equals y
  | string s, string t => s = t
  | _, _ => false

end Literal

end MetricLayer.Schema
