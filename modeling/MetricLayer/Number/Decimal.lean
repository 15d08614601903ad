import MetricLayer.Number.Binary64

/-!
# Decimals

A decimal `digits * 10 ^ exponent` and the double nearest to it, found in exact whole-number
arithmetic.
-/

namespace MetricLayer

/-- The decimal `digits * 10 ^ exponent`. -/
structure Decimal where
  digits : Nat
  exponent : Int
  deriving DecidableEq, Repr

namespace Decimal

/-- How many decimal digits a number has; zero has one. -/
def digitCount (n : Nat) : Nat := (Nat.toDigits 10 n).length

/-- The decimal as a quotient of whole numbers, counted in steps of `2 ^ (-1074)`. -/
def ratio (d : Decimal) : Nat × Nat :=
  match d.exponent with
  | .ofNat e => ((d.digits * Nat.pow 10 e) <<< 1074, 1)
  | .negSucc e => (d.digits <<< 1074, Nat.pow 10 (e + 1))

/-- The size nearest to a decimal, none if it is beyond the largest finite size. A decimal of at
least `10 ^ 310` is beyond it, and one below `10 ^ (-330)` is nearest to zero, so powers of ten
outside that range are never computed. -/
def magnitude? (d : Decimal) : Option Magnitude :=
  let point := d.exponent + digitCount d.digits
  if d.digits = 0 ∨ point < -330 then some .zero
  else if 310 < point then none
  else Magnitude.ofRatio? d.ratio.1 d.ratio.2

/-- The double nearest to a signed decimal, infinite if it is beyond the finite ones. -/
def toBinary64 (negative : Bool) (d : Decimal) : Binary64 :=
  match d.magnitude? with
  | some size => .finite negative size
  | none => .infinite negative

end Decimal

namespace Binary64

/-- The double nearest to a whole number. -/
def ofNat (negative : Bool) (n : Nat) : Binary64 := Decimal.toBinary64 negative ⟨n, 0⟩

/-- The double nearest to an integer. -/
def ofInt : Int → Binary64
  | .ofNat n => ofNat false n
  | .negSucc n => ofNat true (n + 1)

end Binary64

end MetricLayer
