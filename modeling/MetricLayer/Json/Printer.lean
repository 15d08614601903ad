import MetricLayer.Json.Basic
import MetricLayer.Number.Layout

/-!
# Writing JSON text

Two spellings of a value: compact, without any blanks, and indented, with one item to a line and two
blanks to a level. Strings escape the quote, the backslash and the control characters below the
space and nothing else.
-/

namespace MetricLayer.Json

/-- A lower-case hexadecimal digit. -/
def hexDigit (n : Nat) : Char := Nat.digitChar n

/-- A character inside a string. -/
def escapeChar (c : Char) : List Char :=
  if c = '"' then ['\\', '"']
  else if c = '\\' then ['\\', '\\']
  else if c = '\x08' then ['\\', 'b']
  else if c = '\x0c' then ['\\', 'f']
  else if c = '\n' then ['\\', 'n']
  else if c = '\r' then ['\\', 'r']
  else if c = '\t' then ['\\', 't']
  else if c.toNat < 0x20 then
    ['\\', 'u', '0', '0', hexDigit (c.toNat / 16), hexDigit (c.toNat % 16)]
  else [c]

/-- A string with its quotes. -/
def quoted (s : String) : List Char := '"' :: (s.toList.flatMap escapeChar ++ ['"'])

/-- A whole number with its sign. -/
def integerText (negative : Bool) (size : Nat) : List Char :=
  if negative then '-' :: Nat.toDigits 10 size else Nat.toDigits 10 size

/-- A value without parts. -/
def leafText : Json → List Char
  | bool true => "true".toList
  | bool false => "false".toList
  | integer negative size => integerText negative size
  | real x => (x.text .json).toList
  | string s => quoted s
  | _ => "null".toList

/-! ## Compact text -/

/-- A value without any blanks, in front of a text. -/
def compact : Json → List Char → List Char
  | array items, rest => '[' :: compactItems items (']' :: rest)
  | object members, rest => '\x7b' :: compactMembers members ('\x7d' :: rest)
  | leaf, rest => leafText leaf ++ rest
where
  compactItems : List Json → List Char → List Char
    | [], rest => rest
    | [x], rest => x.compact rest
    | x :: xs, rest => x.compact (',' :: compactItems xs rest)
  compactMembers : List (String × Json) → List Char → List Char
    | [], rest => rest
    | [(key, x)], rest => quoted key ++ ':' :: x.compact rest
    | (key, x) :: ms, rest => quoted key ++ ':' :: x.compact (',' :: compactMembers ms rest)

/-- The compact text of a value. -/
def compactText (x : Json) : String := String.ofList (x.compact [])

/-! ## Indented text -/

/-- The start of a new line at a level. -/
def lineStart (level : Nat) : List Char := '\n' :: List.replicate (2 * level) ' '

/-- A value at a level, one item to a line, in front of a text; an empty array or object stays on
its line. -/
def indented (level : Nat) : Json → List Char → List Char
  | array [], rest => '[' :: ']' :: rest
  | array items, rest =>
    '[' :: indentedItems (level + 1) items (lineStart level ++ ']' :: rest)
  | object [], rest => '\x7b' :: '\x7d' :: rest
  | object members, rest =>
    '\x7b' :: indentedMembers (level + 1) members (lineStart level ++ '\x7d' :: rest)
  | leaf, rest => leafText leaf ++ rest
where
  indentedItems (level : Nat) : List Json → List Char → List Char
    | [], rest => rest
    | [x], rest => lineStart level ++ x.indented level rest
    | x :: xs, rest =>
      lineStart level ++ x.indented level (',' :: indentedItems level xs rest)
  indentedMembers (level : Nat) : List (String × Json) → List Char → List Char
    | [], rest => rest
    | [(key, x)], rest =>
      lineStart level ++ (quoted key ++ ':' :: ' ' :: x.indented level rest)
    | (key, x) :: ms, rest =>
      lineStart level ++
        (quoted key ++ ':' :: ' ' :: x.indented level (',' :: indentedMembers level ms rest))

/-- The indented text of a value. -/
def indentedText (x : Json) : String := String.ofList (x.indented 0 [])

end MetricLayer.Json
