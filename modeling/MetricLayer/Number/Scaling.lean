import MetricLayer.Number.Decimal

/-!
# Reading decimals by scaling

The reading of a decimal that costs no more than two roundings in the ordinary case: as many of its
leading digits as fit 64 bits become a double, which is multiplied or divided by a power of ten.
Each step goes to the nearest double, so the result may lie beside the double nearest to the
decimal. It is that double whenever the digits and the power of ten are doubles themselves.
-/

namespace MetricLayer

namespace Magnitude

/-- The size nearest to the product of two sizes, none if it is beyond the largest finite size. -/
def times? (a b : Magnitude) : Option Magnitude := ofRatio? (a.steps * b.steps) (1 <<< 1074)

/-- The size nearest to the quotient of a size by a size other than zero, none if it is beyond the
largest finite size. -/
def over? (a b : Magnitude) : Option Magnitude := ofRatio? (a.steps <<< 1074) b.steps

/-- The exponent of the largest power of ten among the finite sizes. -/
def maxTenPower : Nat := 308

/-- The size nearest to a power of ten. -/
def tenPower? (e : Nat) : Option Magnitude := Decimal.magnitude? ⟨1, e⟩

/-- A size multiplied by a power of ten. -/
def timesTenPower? (m : Magnitude) (e : Nat) : Option Magnitude :=
  if e ≤ maxTenPower then (tenPower? e).bind m.times?
  else if m.significand = 0 then some m
  else none

/-- A size divided by a power of ten, a power beyond the finite sizes being taken in several steps
of which each is rounded. -/
def overTenPower? (m : Magnitude) (e : Nat) : Option Magnitude :=
  if e ≤ maxTenPower then (tenPower? e).bind m.over?
  else if m.significand = 0 then some m
  else
    ((tenPower? maxTenPower).bind m.over?).bind fun quotient =>
      quotient.overTenPower? (e - maxTenPower)
termination_by e
decreasing_by simp only [maxTenPower] at *; omega

end Magnitude

namespace Decimal

/-- Puts digits behind a number as long as it fits 64 bits, and counts the digits that are left. -/
def appendDigits (n : Nat) : List Char → Nat × Nat
  | [] => (n, 0)
  | c :: cs =>
    let longer := n * 10 + (c.toNat - '0'.toNat)
    if longer < UInt64.size then appendDigits longer cs else (n, cs.length + 1)

/-- The leading digits of a decimal that fit 64 bits, with the power of ten of the last of them. The
digits of the fraction are put behind those of the whole part that fit, whether any of the whole
part is left or not. -/
def leading (whole fraction : List Char) (exponent : Int) : Decimal :=
  let (digits, wholeLeft) := appendDigits 0 whole
  let (digits, fractionLeft) := appendDigits digits fraction
  ⟨digits, exponent + wholeLeft - (fraction.length - fractionLeft : Nat)⟩

/-- The double nearest to the digits, scaled by the power of ten; none if that is beyond the largest
finite size. -/
def scaled? (d : Decimal) : Option Magnitude :=
  (magnitude? ⟨d.digits, 0⟩).bind fun m =>
    match d.exponent with
    | .ofNat e => m.timesTenPower? e
    | .negSucc e => m.overTenPower? (e + 1)

end Decimal

end MetricLayer
