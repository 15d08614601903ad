/-!
# Double-precision numbers

The values of the 64-bit binary format, written as whole numbers. A finite number is its sign and
its size, and the size is `significand * 2 ^ shift` steps of `2 ^ (-1074)`, the smallest positive
size there is. The bounds in `Magnitude` leave each size exactly one spelling, so two sizes are
equal as numbers exactly if they are equal as values of the type.
-/

namespace MetricLayer

/-- The size of a finite number, `significand * 2 ^ shift` steps of `2 ^ (-1074)`. -/
structure Magnitude where
  significand : Nat
  shift : Nat
  significand_lt : significand < 1 <<< 53 := by decide
  normal : 1 <<< 52 ≤ significand ∨ shift = 0 := by decide
  shift_le : shift ≤ 2045 := by decide
  deriving DecidableEq, Repr

/-- A number of the 64-bit binary format; all not-a-number patterns are one value. -/
inductive Binary64 where
  | nan
  | infinite (negative : Bool)
  | finite (negative : Bool) (size : Magnitude)
  deriving DecidableEq, Repr

namespace Magnitude

/-- The size zero. -/
def zero : Magnitude where
  significand := 0
  shift := 0

/-- The size as a number of steps of `2 ^ (-1074)`. -/
def steps (m : Magnitude) : Nat := m.significand <<< m.shift

/-- The size with the given spelling, if the spelling keeps the format's bounds. -/
def ofParts? (significand shift : Nat) : Option Magnitude :=
  if h : significand < 1 <<< 53 ∧ (1 <<< 52 ≤ significand ∨ shift = 0) ∧ shift ≤ 2045 then
    some ⟨significand, shift, h.1, h.2.1, h.2.2⟩
  else none

/-- The quotient of two whole numbers rounded to the nearest, a tie to the even neighbour. -/
def divideToEven (num den : Nat) : Nat :=
  let quotient := num / den
  let rest := num % den
  if 2 * rest < den then quotient
  else if den < 2 * rest then quotient + 1
  else quotient + quotient % 2

/-- The size nearest to `num / den` steps, a tie going to the even significand; none if that is
beyond the largest finite size. -/
def ofRatio? (num den : Nat) : Option Magnitude :=
  let whole := num / den
  let shift := if whole < 1 <<< 53 then 0 else Nat.log2 whole - 52
  let significand := divideToEven num (den <<< shift)
  if significand = 1 <<< 53 then ofParts? (1 <<< 52) (shift + 1) else ofParts? significand shift

end Magnitude

namespace Binary64

/-- Whether a number is neither infinite nor not-a-number. -/
def isFinite : Binary64 → Bool
  | finite _ _ => true
  | _ => false

/-- Equality of numbers: the two zeros are equal, and not-a-number equals nothing. -/
def equals : Binary64 → Binary64 → Bool
  | infinite a, infinite b => a = b
  | finite a x, finite b y => x = y && (a = b || x.significand = 0)
  | _, _ => false

end Binary64

end MetricLayer
