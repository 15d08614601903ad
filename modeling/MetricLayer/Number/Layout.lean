import MetricLayer.Number.Shortest

/-!
# Number texts

Two spellings of a double: for people, always positional and as short as possible, and for JSON
documents, where a number of ordinary size shows a fraction and any other shows an exponent.
-/

namespace MetricLayer

/-- What a spelling of doubles decides beyond the digits themselves. -/
structure NumberStyle where
  /-- Which of two equally short and equally near decimals is written. -/
  tie : Tie
  /-- Whether a number is written without an exponent, by the place of its decimal point. -/
  positional : Int → Bool
  /-- What follows a positional number that has no fraction. -/
  wholeEnding : String
  /-- How the number zero is written. -/
  zero : String
  /-- How a number that is not finite is written, by its sign if it is infinite. -/
  nonFinite : Option Bool → String

namespace NumberStyle

/-- The spelling for people never has an exponent and shows a fraction only if there is one. -/
def display : NumberStyle where
  tie := .away
  positional := fun _ => true
  wholeEnding := ""
  zero := "0"
  nonFinite
    | none => "NaN"
    | some negative => if negative then "-inf" else "inf"

/-- In JSON a number from `10 ^ (-5)` up to but not including `10 ^ 16` is positional with at least
one decimal, any other has an exponent with its sign, and one that is not finite is `null`. -/
def json : NumberStyle where
  tie := .toEven
  positional := fun point => -5 < point && point ≤ 16
  wholeEnding := ".0"
  zero := "0.0"
  nonFinite := fun _ => "null"

end NumberStyle

namespace Decimal

/-- Digits and the power of ten of the last one, written without an exponent. -/
def positional (wholeEnding : String) (digits : List Char) (exponent : Int) : List Char :=
  match exponent with
  | .ofNat zeros => digits ++ List.replicate zeros '0' ++ wholeEnding.toList
  | .negSucc e =>
    let decimals := e + 1
    if decimals < digits.length then
      digits.take (digits.length - decimals) ++ '.' :: digits.drop (digits.length - decimals)
    else '0' :: '.' :: (List.replicate (decimals - digits.length) '0' ++ digits)

/-- Digits and the place of the decimal point before the first, written with one digit before the
point and a signed exponent. -/
def scientific (digits : List Char) (point : Int) : List Char :=
  let mantissa :=
    match digits with
    | [] => []
    | [c] => [c]
    | c :: rest => c :: '.' :: rest
  let exponent :=
    match point - 1 with
    | .ofNat n => '+' :: Nat.toDigits 10 n
    | .negSucc n => '-' :: Nat.toDigits 10 (n + 1)
  mantissa ++ 'e' :: exponent

end Decimal

namespace Magnitude

/-- A size in a given spelling. -/
def text (style : NumberStyle) (m : Magnitude) : List Char :=
  if m.significand = 0 then style.zero.toList
  else
    let (digits, exponent) := (m.shortest style.tie).significant
    let point := exponent + digits.length
    if style.positional point then Decimal.positional style.wholeEnding digits exponent
    else Decimal.scientific digits point

end Magnitude

namespace Binary64

/-- A number in a given spelling. -/
def text (style : NumberStyle) : Binary64 → String
  | nan => style.nonFinite none
  | infinite negative => style.nonFinite (some negative)
  | finite negative size =>
    String.ofList (if negative then '-' :: size.text style else size.text style)

end Binary64

end MetricLayer
