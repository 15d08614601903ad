import MetricLayer.Json.Basic
import MetricLayer.Number.Scaling

/-!
# Reading JSON text

Each reader takes the characters that are left and gives a value and what follows it, or nothing if
the text breaks the grammar. The grammar is the strict one: no leading zeros, no trailing commas, no
raw control characters in strings, nothing but blanks after the document.
-/

namespace MetricLayer.Json

/-- The blanks of JSON: space, tabulator, line feed and carriage return. -/
def isSpace (c : Char) : Bool := c = ' ' || c = '\t' || c = '\n' || c = '\r'

/-- A text without its leading blanks. -/
def skipSpace (cs : List Char) : List Char := cs.dropWhile isSpace

/-! ## Strings -/

/-- A piece of a string: a character, or half of a surrogate pair. -/
inductive Piece where
  | char (c : Char)
  | half (unit : Nat)
  deriving DecidableEq, Repr

/-- The value of a hexadecimal digit. -/
def hexValue? (c : Char) : Option Nat :=
  if '0' ≤ c ∧ c ≤ '9' then some (c.toNat - '0'.toNat)
  else if 'a' ≤ c ∧ c ≤ 'f' then some (c.toNat - 'a'.toNat + 10)
  else if 'A' ≤ c ∧ c ≤ 'F' then some (c.toNat - 'A'.toNat + 10)
  else none

/-- The value of four hexadecimal digits. -/
def hexUnit? (a b c d : Char) : Option Nat := do
  let a ← hexValue? a
  let b ← hexValue? b
  let c ← hexValue? c
  let d ← hexValue? d
  return ((a * 16 + b) * 16 + c) * 16 + d

/-- The piece that a 16-bit unit stands for. -/
def Piece.ofUnit (unit : Nat) : Piece :=
  if 0xD800 ≤ unit ∧ unit < 0xE000 then .half unit else .char (Char.ofNat unit)

/-- The character that the letter after a backslash stands for. -/
def escaped? (c : Char) : Option Char :=
  if c = '"' ∨ c = '\\' ∨ c = '/' then some c
  else if c = 'b' then some '\x08'
  else if c = 'f' then some '\x0c'
  else if c = 'n' then some '\n'
  else if c = 'r' then some '\r'
  else if c = 't' then some '\t'
  else none

/-- The pieces of a string up to its closing quote, which is consumed. -/
def pieces : List Char → Option (List Piece × List Char)
  | [] => none
  | c :: cs =>
    if c = '"' then some ([], cs)
    else if c = '\\' then
      match cs with
      | 'u' :: a :: b :: c :: d :: rest => do
        let unit ← hexUnit? a b c d
        let (ps, rest) ← pieces rest
        return (Piece.ofUnit unit :: ps, rest)
      | e :: rest => do
        let x ← escaped? e
        let (ps, rest) ← pieces rest
        return (.char x :: ps, rest)
      | [] => none
    else if c.toNat < 0x20 then none
    else do
      let (ps, rest) ← pieces cs
      return (.char c :: ps, rest)

/-- The characters of a string, halves of surrogate pairs put together; none if one stands alone. -/
def joinPieces : List Piece → Option (List Char)
  | [] => some []
  | .char c :: ps => (joinPieces ps).map (c :: ·)
  | .half high :: .half low :: ps =>
    if high < 0xDC00 ∧ 0xDC00 ≤ low then
      (joinPieces ps).map (Char.ofNat (0x10000 + (high - 0xD800) * 0x400 + (low - 0xDC00)) :: ·)
    else none
  | .half _ :: _ => none

/-- A string after its opening quote: its characters, if they are a text, and what follows. -/
def stringBody (cs : List Char) : Option (Option String × List Char) := do
  let (ps, rest) ← pieces cs
  return ((joinPieces ps).map String.ofList, rest)

/-! ## Numbers -/

/-- The leading digits of a text, at least one, and what follows them. -/
def digits1? (cs : List Char) : Option (List Char × List Char) :=
  let digits := cs.takeWhile Char.isDigit
  if digits.isEmpty then none else some (digits, cs.dropWhile Char.isDigit)

/-- The whole part of a number: zero alone, or digits that do not begin with zero. -/
def wholePart? : List Char → Option (List Char × List Char)
  | '0' :: rest => some (['0'], rest)
  | cs => digits1? cs

/-- The digits after a point, if there is one. -/
def fractionPart? : List Char → Option (Option (List Char) × List Char)
  | '.' :: cs => (digits1? cs).map fun (ds, rest) => (some ds, rest)
  | cs => some (none, cs)

/-- The digits of an exponent with the sign in front of them. -/
def exponentDigits? : List Char → Option (Int × List Char)
  | '-' :: cs => (digits1? cs).map fun (ds, rest) => (-(Nat.ofDigitChars 10 ds 0 : Int), rest)
  | '+' :: cs => (digits1? cs).map fun (ds, rest) => ((Nat.ofDigitChars 10 ds 0 : Int), rest)
  | cs => (digits1? cs).map fun (ds, rest) => ((Nat.ofDigitChars 10 ds 0 : Int), rest)

/-- The exponent after its mark, if there is one. -/
def exponentPart? : List Char → Option (Option Int × List Char)
  | c :: cs =>
    if c = 'e' ∨ c = 'E' then (exponentDigits? cs).map fun (e, rest) => (some e, rest)
    else some (none, c :: cs)
  | [] => some (none, [])

/-- The value of a number: whole if it is written so and fits 64 bits, else a double that is read by
scaling, and `broken` if that leaves the finite doubles. -/
def ofNumberParts (negative : Bool) (whole : List Char) (fraction : Option (List Char))
    (exponent : Option Int) : Json :=
  let (size, left) := Decimal.appendDigits 0 whole
  if fraction.isNone && exponent.isNone && left = 0 then .integer negative size
  else
    match (Decimal.leading whole (fraction.getD []) (exponent.getD 0)).scaled? with
    | some size => .real (.finite negative size)
    | none => .broken

/-- A number without its sign. -/
def unsignedNumber (negative : Bool) (cs : List Char) : Option (Json × List Char) := do
  let (whole, rest) ← wholePart? cs
  let (fraction, rest) ← fractionPart? rest
  let (exponent, rest) ← exponentPart? rest
  return (ofNumberParts negative whole fraction exponent, rest)

/-- A number. -/
def number : List Char → Option (Json × List Char)
  | '-' :: cs => unsignedNumber true cs
  | cs => unsignedNumber false cs

/-! ## Values -/

/-- An object of the given members, broken if one of its keys is no text. -/
def ofMembers (members : List (Option String × Json)) : Json :=
  match members.mapM fun (key, x) => key.map fun k => (k, x) with
  | some members => .object members
  | none => .broken

mutual

/-- A value. The first argument bounds how many readers may be at work at once. -/
def value : Nat → List Char → Option (Json × List Char)
  | 0, _ => none
  | fuel + 1, cs =>
    match skipSpace cs with
    | '\x7b' :: rest =>
      match skipSpace rest with
      | '\x7d' :: rest => some (.object [], rest)
      | rest => (members fuel rest).map fun (ms, rest) => (ofMembers ms, rest)
    | '[' :: rest =>
      match skipSpace rest with
      | ']' :: rest => some (.array [], rest)
      | rest => (items fuel rest).map fun (xs, rest) => (.array xs, rest)
    | '"' :: rest =>
      (stringBody rest).map fun (s, rest) =>
        (match s with
          | some s => .string s
          | none => .broken,
          rest)
    | 'n' :: 'u' :: 'l' :: 'l' :: rest => some (.null, rest)
    | 't' :: 'r' :: 'u' :: 'e' :: rest => some (.bool true, rest)
    | 'f' :: 'a' :: 'l' :: 's' :: 'e' :: rest => some (.bool false, rest)
    | rest => number rest

/-- The items of an array, at least one, up to its closing bracket. -/
def items : Nat → List Char → Option (List Json × List Char)
  | 0, _ => none
  | fuel + 1, cs =>
    match value fuel cs with
    | none => none
    | some (x, rest) =>
      match skipSpace rest with
      | ',' :: rest => (items fuel rest).map fun (xs, rest) => (x :: xs, rest)
      | ']' :: rest => some ([x], rest)
      | _ => none

/-- The members of an object, at least one, up to its closing brace. -/
def members : Nat → List Char → Option (List (Option String × Json) × List Char)
  | 0, _ => none
  | fuel + 1, cs =>
    match skipSpace cs with
    | '"' :: rest =>
      match stringBody rest with
      | none => none
      | some (key, rest) =>
        match skipSpace rest with
        | ':' :: rest =>
          match value fuel rest with
          | none => none
          | some (x, rest) =>
            match skipSpace rest with
            | ',' :: rest => (members fuel rest).map fun (ms, rest) => ((key, x) :: ms, rest)
            | '\x7d' :: rest => some ([(key, x)], rest)
            | _ => none
        | _ => none
    | _ => none

end

/-- Reads a whole text as one value. Each character opens at most two readers, so the bound is
never what stops the reading. -/
def ofChars? (cs : List Char) : Option Json :=
  match value (2 * cs.length + 2) cs with
  | some (x, rest) => if (skipSpace rest).isEmpty then some x else none
  | none => none

/-- Reads a whole text as one value. -/
def ofText? (text : String) : Option Json := ofChars? text.toList

end MetricLayer.Json
