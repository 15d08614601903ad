import MetricLayer.Number.Decimal

/-!
# The shortest decimal of a double

A double is written with the fewest digits that are read back as the same double, where reading goes
to the nearest. For each number of digits from one to seventeen the two neighbours of the value on
that decimal grid are read back; the first grid with a hit wins, and of two hits the nearer one.
What is returned was read back, so that it reads back needs no argument about how many digits
suffice.
-/

namespace MetricLayer

/-- Which of two shortest decimals is taken when the value lies exactly between them. -/
inductive Tie where
  | toEven
  | away
  deriving DecidableEq, Repr

namespace Magnitude

/-- The exact value of a size as a decimal. -/
def exact (m : Magnitude) : Decimal := ⟨m.steps * Nat.pow 5 1074, -1074⟩

/-- The exponent `k` with `10 ^ (k - 1) ≤ m < 10 ^ k`, for a size other than zero. -/
def point (m : Magnitude) : Int :=
  (Decimal.digitCount (m.steps * Nat.pow 10 400 / 1 <<< 1074) : Int) - 400

/-- The nearer of the two neighbours of a size on the grid of multiples of `10 ^ exponent` that are
read back as that size. -/
def neighbour? (tie : Tie) (m : Magnitude) (exponent : Int) : Option Decimal :=
  let (num, den) : Nat × Nat :=
    match exponent with
    | .ofNat e => (m.steps, Nat.pow 10 e <<< 1074)
    | .negSucc e => (m.steps * Nat.pow 10 (e + 1), 1 <<< 1074)
  let low := num / den
  let rest := num % den
  let upFirst : Bool :=
    if 2 * rest = den then
      match tie with
      | .toEven => low % 2 = 1
      | .away => true
    else den < 2 * rest
  let below : Decimal := ⟨low, exponent⟩
  let above : Decimal := ⟨low + 1, exponent⟩
  (if upFirst then [above, below] else [below, above]).find? (·.magnitude? = some m)

/-- A decimal of the fewest digits that is read back as the size. -/
def shortest (tie : Tie) (m : Magnitude) : Decimal :=
  let k := m.point
  ((List.range 17).findSome? fun n => m.neighbour? tie (k - (n + 1 : Nat))).getD m.exact

end Magnitude

namespace Decimal

/-- Drops trailing zeros of a list of digits that is given last digit first, and counts them. -/
def dropZeros : List Char → List Char × Nat
  | [] => ([], 0)
  | c :: cs => if c = '0' then ((dropZeros cs).1, (dropZeros cs).2 + 1) else (c :: cs, 0)

/-- The digits of a decimal without trailing zeros, and the power of ten of the last one. -/
def significant (d : Decimal) : List Char × Int :=
  let (reversed, zeros) := dropZeros (Nat.toDigits 10 d.digits).reverse
  (reversed.reverse, d.exponent + zeros)

end Decimal

end MetricLayer
