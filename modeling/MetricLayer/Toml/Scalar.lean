import MetricLayer.Number.Decimal
import MetricLayer.Toml.Basic

/-!
# Plain values in TOML

Truth values, numbers, dates and times: the values that are written without quotes or brackets. A
number is told from other text by its first digits and by a few marks after them. If the rest then
turns out to hold something else than digits, or the number to be out of range, it is `broken`.
-/

namespace MetricLayer.Toml

/-! ## Digits -/

/-- The value of a hexadecimal digit in either case. -/
def digitValue (c : Char) : Nat :=
  if c.isDigit then c.toNat - '0'.toNat else c.toLower.toNat - 'a'.toNat + 10

/-- Whether a character is a digit in a base of at most sixteen. -/
def isDigitIn (base : Nat) (c : Char) : Bool :=
  (c.isDigit || ('a' ≤ c.toLower && c.toLower ≤ 'f')) && digitValue c < base

/-- The value of digits in a base. -/
def digitsValue (base : Nat) (ds : List Char) : Nat :=
  ds.foldl (fun n c => n * base + digitValue c) 0

/-- Whether each underscore of a text stands between two digits, where `afterDigit` tells whether
there is a digit in front of the text. -/
def separates (isDigit : Char → Bool) (afterDigit : Bool) : List Char → Bool
  | [] => true
  | [c] => c ≠ '_'
  | c :: d :: cs =>
    if c = '_' then afterDigit && isDigit d && separates isDigit true cs
    else separates isDigit (isDigit c) (d :: cs)

/-- A text without its underscores. -/
def withoutUnderscores (cs : List Char) : List Char := cs.filter (· ≠ '_')

/-- The digits at the beginning of a text, at least one, without the underscores among them, and
what follows. -/
def digitRun? (cs : List Char) : Option (List Char × List Char) :=
  let ds := withoutUnderscores (cs.takeWhile fun c => c.isDigit || c = '_')
  if ds.isEmpty then none else some (ds, cs.dropWhile fun c => c.isDigit || c = '_')

/-! ## Numbers -/

/-- An integer, broken unless it is within the widths that are read. -/
def ofInteger (n : Int) : Value :=
  if -(1 <<< 127) ≤ n && n < 1 <<< 128 then .integer n else .broken

/-- An integer in another base: digits of that base and the underscores that separate them. -/
def basedInteger? (base : Nat) (cs : List Char) : Option Value :=
  if cs.all (fun c => isDigitIn base c || c = '_') && separates (isDigitIn 16) false cs then
    let ds := withoutUnderscores cs
    some (if ds.isEmpty then .broken else ofInteger (digitsValue base ds : Nat))
  else none

/-- The digits after the mark of an exponent as a number, and what follows. -/
def exponent? (cs : List Char) : Option (Int × List Char) :=
  match cs with
  | '-' :: rest => (digitRun? rest).map fun (ds, rest) => (-(digitsValue 10 ds : Int), rest)
  | '+' :: rest => (digitRun? rest).map fun (ds, rest) => ((digitsValue 10 ds : Int), rest)
  | rest => (digitRun? rest).map fun (ds, rest) => ((digitsValue 10 ds : Int), rest)

/-- A number with a fraction or an exponent, without its sign. It does not begin with a zero that
another digit of its whole part follows. -/
def fractional? (negative : Bool) (cs : List Char) : Option Value := do
  let (whole, rest) ← digitRun? cs
  if cs.head? = some '0' && 1 < whole.length then none
  else
    let (decimals, rest) ←
      match rest with
      | '.' :: rest => digitRun? rest
      | rest => some ([], rest)
    let (exponent, rest) ←
      match rest with
      | c :: rest => if c = 'e' || c = 'E' then exponent? rest else none
      | [] => some (0, [])
    if rest.isEmpty then
      let d : Decimal := ⟨digitsValue 10 (whole ++ decimals), exponent - decimals.length⟩
      let x := d.toBinary64 negative
      some (if x.isFinite then .float x else .broken)
    else none

/-- An integer without its sign, broken unless it is made of decimal digits. -/
def decimalInteger (negative : Bool) (cs : List Char) : Value :=
  let ds := withoutUnderscores cs
  if ds.all Char.isDigit then
    let n : Int := digitsValue 10 ds
    ofInteger (if negative then -n else n)
  else .broken

/-- A number without its sign. Behind its first digits a point or the mark of an exponent makes it
fractional; else an underscore makes it an integer, whatever follows, and the underscores of an
integer may separate hexadecimal digits. -/
def number? (negative : Bool) (cs : List Char) : Option Value :=
  let rest := cs.dropWhile Char.isDigit
  if cs.isEmpty || rest.contains ' ' then none
  else if rest.any fun c => c = '.' || c = 'e' || c = 'E' then
    if separates Char.isDigit false cs then fractional? negative cs else none
  else if rest.isEmpty || rest.head? = some '_' then
    if (cs.head? = some '0' && cs.length ≠ 1) || !separates (isDigitIn 16) false cs then none
    else some (decimalInteger negative cs)
  else none

/-- A number after its sign, or a word for infinity or for not-a-number. -/
def signed? (negative : Bool) (cs : List Char) : Option Value :=
  if cs = "inf".toList then some (.float (.infinite negative))
  else if cs = "nan".toList then some (.float .nan)
  else number? negative cs

/-! ## Dates and times -/

/-- A number of exactly two digits at the beginning of a text, and what follows it. -/
def twoDigits? : List Char → Option (Nat × List Char)
  | a :: b :: rest =>
    if a.isDigit && b.isDigit then some (Nat.ofDigitChars 10 [a, b] 0, rest) else none
  | _ => none

/-- How many days a month has. -/
def daysInMonth (year month : Nat) : Nat :=
  if month = 2 then
    if year % 4 = 0 && (year % 100 ≠ 0 || year % 400 = 0) then 29 else 28
  else if month = 4 || month = 6 || month = 9 || month = 11 then 30
  else 31

/-- What follows a date. -/
def dropDate? (cs : List Char) : Option (List Char) := do
  let (century, cs) ← twoDigits? cs
  let (year, cs) ← twoDigits? cs
  match cs with
  | '-' :: cs =>
    let (month, cs) ← twoDigits? cs
    match cs with
    | '-' :: cs =>
      let (day, cs) ← twoDigits? cs
      if 1 ≤ month && month ≤ 12 && 1 ≤ day && day ≤ daysInMonth (century * 100 + year) month then
        some cs
      else none
    | _ => none
  | _ => none

/-- What follows hours and minutes. -/
def dropHourMinute? (cs : List Char) : Option (List Char) := do
  let (hour, cs) ← twoDigits? cs
  match cs with
  | ':' :: cs =>
    let (minute, cs) ← twoDigits? cs
    if hour ≤ 23 && minute ≤ 59 then some cs else none
  | _ => none

/-- What follows a time, whose seconds and their fraction may be left out. -/
def dropTime? (cs : List Char) : Option (List Char) := do
  let cs ← dropHourMinute? cs
  match cs with
  | ':' :: cs =>
    let (second, cs) ← twoDigits? cs
    if 60 < second then none
    else
      match cs with
      | '.' :: c :: rest => if c.isDigit then some (rest.dropWhile Char.isDigit) else none
      | '.' :: [] => none
      | rest => some rest
  | rest => some rest

/-- Whether a text is an offset from universal time, or empty. -/
def isOffset : List Char → Bool
  | [] => true
  | [c] => c = 'Z' || c = 'z'
  | c :: cs => (c = '+' || c = '-') && dropHourMinute? cs = some []

/-- Whether a text is a date, a time, or a date with a time. -/
def isMoment (cs : List Char) : Bool :=
  match dropDate? cs with
  | some [] => true
  | some (c :: rest) =>
    (c = 'T' || c = 't' || c = ' ') &&
      match dropTime? rest with
      | some rest => isOffset rest
      | none => false
  | none => dropTime? cs = some []

/-! ## Plain values -/

/-- Reads a plain value. -/
def plain? (cs : List Char) : Option Value :=
  if cs = "true".toList then some (.bool true)
  else if cs = "false".toList then some (.bool false)
  else if isMoment cs then some .moment
  else
    match cs with
    | '+' :: rest => signed? false rest
    | '-' :: rest => signed? true rest
    | '0' :: 'x' :: rest => basedInteger? 16 rest
    | '0' :: 'o' :: rest => basedInteger? 8 rest
    | '0' :: 'b' :: rest => basedInteger? 2 rest
    | _ => signed? false cs

/-- The characters of words: all but blanks, line ends, points and the marks of the grammar. -/
def isWordChar (c : Char) : Bool :=
  !(c = ' ' || c = '\t' || c = '\n' || c = '\r' || c = '.' || c = ',' || c = '=' || c = '#' ||
    c = '[' || c = ']' || c = '\x7b' || c = '\x7d')

/-- The text of a plain value, and what follows it: words and points, and blanks if a word without a
quote in front comes after them. The first argument tells whether there is a blank in front. -/
def plainText (afterBlank : Bool) : List Char → List Char × List Char
  | [] => ([], [])
  | c :: cs =>
    if c = ' ' || c = '\t' then
      match plainText true cs with
      | ([], _) => ([], c :: cs)
      | (text, rest) => (c :: text, rest)
    else if isWordChar c && !(afterBlank && (c = '"' || c = '\'')) || c = '.' && !afterBlank then
      let (text, rest) := plainText false cs
      (c :: text, rest)
    else ([], c :: cs)

/-- The plain value at the beginning of a text and what follows it. -/
def plainPrefix? (cs : List Char) : Option (Value × List Char) :=
  let (text, rest) := plainText false cs
  (plain? text).map fun v => (v, rest)

end MetricLayer.Toml
