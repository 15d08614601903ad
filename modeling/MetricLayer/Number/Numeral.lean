import MetricLayer.Number.Decimal

/-!
# Numerals

How a number is written in a condition: an optional sign, then digits with an optional point among
or beside them and an optional exponent, or a word for infinity or for not-a-number.
-/

namespace MetricLayer.Numeral

/-- The ASCII lower case of a text. -/
def lower (cs : List Char) : List Char := cs.map Char.toLower

/-- The leading digits of a text and what follows them. -/
def spanDigits (cs : List Char) : List Char × List Char :=
  (cs.takeWhile Char.isDigit, cs.dropWhile Char.isDigit)

/-- Digits to the end of a text, at least one, as a number. -/
def digits? (cs : List Char) : Option Nat :=
  if cs ≠ [] ∧ cs.all Char.isDigit then some (Nat.ofDigitChars 10 cs 0) else none

/-- An exponent from its mark to the end of a text; no text at all stands for exponent zero. -/
def exponent? : List Char → Option Int
  | [] => some 0
  | c :: cs =>
    if c = 'e' ∨ c = 'E' then
      match cs with
      | '-' :: rest => (digits? rest).map fun n => -(n : Int)
      | '+' :: rest => (digits? rest).map fun n => (n : Int)
      | rest => (digits? rest).map fun n => (n : Int)
    else none

/-- Digits, a point and an exponent without a sign, as a decimal. At least one digit must stand
before or after the point. -/
def decimal? (cs : List Char) : Option Decimal :=
  let (whole, rest) := spanDigits cs
  let (fraction, rest) :=
    match rest with
    | '.' :: rest => spanDigits rest
    | rest => ([], rest)
  if whole = [] ∧ fraction = [] then none
  else
    (exponent? rest).map fun e =>
      ⟨Nat.ofDigitChars 10 (whole ++ fraction) 0, e - fraction.length⟩

/-- A number without a sign, given the sign in front of it. -/
def unsigned? (negative : Bool) (cs : List Char) : Option Binary64 :=
  match decimal? cs with
  | some d => some (d.toBinary64 negative)
  | none =>
    let word := String.ofList (lower cs)
    if word = "inf" ∨ word = "infinity" then some (.infinite negative)
    else if word = "nan" then some .nan
    else none

/-- Reads a whole text as a number. -/
def read? : List Char → Option Binary64
  | '-' :: cs => unsigned? true cs
  | '+' :: cs => unsigned? false cs
  | cs => unsigned? false cs

end MetricLayer.Numeral
