import MetricLayer.Number.Shortest
import Mathlib.Tactic.Ring

/-!
# Rounding to doubles

The double nearest to a quotient depends on its value alone (`ofRatio?_congr`), so decimals of one
value are nearest to one double, however many zeros their digits end with (`magnitude?_shift`). A
double is nearest to itself (`ofRatio?_steps`), and therefore its shortest decimal is one that is
nearest to it (`magnitude?_shortest`): either it was found to be, or it is the exact value.
-/

namespace MetricLayer

namespace Magnitude

/-! ## Quotients -/

theorem divideToEven_mul (num den : Nat) {c : Nat} (hc : 0 < c) :
    divideToEven (num * c) (den * c) = divideToEven num den := by
  have hquotient : num * c / (den * c) = num / den := Nat.mul_div_mul_right num den hc
  have hrest : num * c % (den * c) = num % den * c := Nat.mul_mod_mul_right c num den
  have hless : ∀ a b, a * c < b * c ↔ a < b := fun a b => Nat.mul_lt_mul_right hc
  simp only [divideToEven, hquotient, hrest, ← Nat.mul_assoc, hless]

theorem divideToEven_one (n : Nat) : divideToEven n 1 = n := by
  simp [divideToEven, Nat.mod_one]

theorem ofRatio?_mul (num den : Nat) {c : Nat} (hc : 0 < c) :
    ofRatio? (num * c) (den * c) = ofRatio? num den := by
  have hquotient : num * c / (den * c) = num / den := Nat.mul_div_mul_right num den hc
  have hshift : ∀ shift, (den * c) <<< shift = (den <<< shift) * c := by
    intro shift
    rw [Nat.shiftLeft_eq, Nat.shiftLeft_eq, Nat.mul_right_comm]
  simp only [ofRatio?, hquotient, hshift, divideToEven_mul _ _ hc]

theorem ofRatio?_congr {num den num' den' : Nat} (hden : 0 < den) (hden' : 0 < den')
    (h : num * den' = num' * den) : ofRatio? num den = ofRatio? num' den' := by
  rw [← ofRatio?_mul num den hden', ← ofRatio?_mul num' den' hden, h, Nat.mul_comm den]

theorem steps_eq (m : Magnitude) : m.steps = m.significand * 2 ^ m.shift := Nat.shiftLeft_eq _ _

theorem shift_eq (m : Magnitude) :
    (if m.steps < 1 <<< 53 then 0 else Nat.log2 m.steps - 52) = m.shift := by
  have hlt : m.significand < 2 ^ 53 := m.significand_lt
  rw [Nat.one_shiftLeft, steps_eq]
  rcases m.normal with hle | hzero
  · rw [Nat.one_shiftLeft] at hle
    have hne : m.significand ≠ 0 := Nat.ne_of_gt (Nat.lt_of_lt_of_le (by decide) hle)
    have hlog : Nat.log2 (m.significand * 2 ^ m.shift) = 52 + m.shift := by
      rw [Nat.log2_eq_iff (Nat.mul_ne_zero hne (Nat.two_pow_pos _).ne'), Nat.pow_add,
        Nat.add_right_comm, Nat.pow_add]
      exact ⟨Nat.mul_le_mul_right _ hle, Nat.mul_lt_mul_of_pos_right hlt (Nat.two_pow_pos _)⟩
    rw [hlog]
    split
    · rename_i hsmall
      -- a significand of full length leaves no room for a shift below the bound
      have : m.significand * 2 ^ m.shift < m.significand * 2 := by
        calc m.significand * 2 ^ m.shift < 2 ^ 52 * 2 := hsmall
          _ ≤ m.significand * 2 := Nat.mul_le_mul_right _ hle
      have hpow : 2 ^ m.shift < 2 ^ 1 := Nat.lt_of_mul_lt_mul_left this
      have := (Nat.pow_lt_pow_iff_right (by decide : 1 < 2)).1 hpow
      omega
    · omega
  · rw [hzero, Nat.pow_zero, Nat.mul_one, if_pos hlt]

theorem ofRatio?_steps (m : Magnitude) : ofRatio? m.steps 1 = some m := by
  have hparts : ofParts? m.significand m.shift = some m := by
    rw [ofParts?, dif_pos ⟨m.significand_lt, m.normal, m.shift_le⟩]
  have hexact : divideToEven m.steps (1 <<< m.shift) = m.significand := by
    rw [steps_eq, Nat.shiftLeft_eq, divideToEven_mul _ _ (Nat.two_pow_pos _), divideToEven_one]
  have hbound : m.significand ≠ 1 <<< 53 := Nat.ne_of_lt m.significand_lt
  simp only [ofRatio?, Nat.div_one, shift_eq, hexact, hbound, if_false, hparts]

theorem eq_zero_of_steps {m : Magnitude} (h : m.steps = 0) : m = zero := by
  rw [steps_eq] at h
  have hsignificand : m.significand = 0 :=
    (Nat.mul_eq_zero.1 h).resolve_right (Nat.two_pow_pos _).ne'
  have hshift : m.shift = 0 := by
    rcases m.normal with hle | hzero
    · rw [hsignificand] at hle
      exact absurd hle (by decide)
    · exact hzero
  cases m
  simp_all [zero]

end Magnitude

namespace Decimal

/-! ## Digits -/

theorem digitCount_le_iff {n k : Nat} (hk : 0 < k) : digitCount n ≤ k ↔ n < 10 ^ k :=
  Nat.length_toDigits_le_iff (by decide) hk

theorem digitCount_mul_pow {n : Nat} (hn : 0 < n) (k : Nat) :
    digitCount (n * 10 ^ k) = digitCount n + k := by
  induction k with
  | zero => rw [Nat.pow_zero, Nat.mul_one, Nat.add_zero]
  | succ k ih =>
    have hpos : 0 < n * 10 ^ k := Nat.mul_pos hn (Nat.pow_pos (by decide))
    have hdigits := Nat.toDigits_append_toDigits (b := 10) (by decide) hpos (d := 0) (by decide)
    have hnext : n * 10 ^ (k + 1) = 10 * (n * 10 ^ k) + 0 := by ring
    unfold digitCount at ih ⊢
    rw [hnext, ← hdigits, List.length_append, ih]
    rfl

/-! ## The nearest double -/

theorem shiftLeft_eq_mul_one (n k : Nat) : n <<< k = n * (1 <<< k) := by
  rw [Nat.one_shiftLeft, Nat.shiftLeft_eq]

theorem ratio_eq (d : Decimal) :
    d.ratio = (d.digits * 10 ^ d.exponent.toNat * (1 <<< 1074), 10 ^ (-d.exponent).toNat) := by
  obtain ⟨digits, e | e⟩ := d
  · have hpositive : (Int.ofNat e).toNat = e := rfl
    have hnegative : (-Int.ofNat e).toNat = 0 := by simp
    simp only [ratio, Nat.pow_eq, hpositive, hnegative, Nat.pow_zero]
    rw [shiftLeft_eq_mul_one]
  · have hpositive : (Int.negSucc e).toNat = 0 := rfl
    have hnegative : (-Int.negSucc e).toNat = e + 1 := rfl
    simp only [ratio, Nat.pow_eq, hpositive, hnegative, Nat.pow_zero, Nat.mul_one]
    rw [shiftLeft_eq_mul_one]

/-- Decimals of one value are quotients of one value. -/
theorem ofRatio?_ratio_shift (n k : Nat) (e : Int) :
    Magnitude.ofRatio? (ratio ⟨n * 10 ^ k, e⟩).1 (ratio ⟨n * 10 ^ k, e⟩).2 =
      Magnitude.ofRatio? (ratio ⟨n, e + k⟩).1 (ratio ⟨n, e + k⟩).2 := by
  have hexponents : k + e.toNat + (-(e + k)).toNat = (e + k).toNat + (-e).toNat := by
    omega
  have hpowers : (10 : Nat) ^ k * 10 ^ e.toNat * 10 ^ (-(e + k)).toNat =
      10 ^ (e + k).toNat * 10 ^ (-e).toNat := by
    rw [← Nat.pow_add, ← Nat.pow_add, ← Nat.pow_add, hexponents]
  rw [ratio_eq, ratio_eq]
  refine Magnitude.ofRatio?_congr (Nat.pow_pos (by decide)) (Nat.pow_pos (by decide)) ?_
  -- how many steps make one does not matter, and the number is too large to be worked out
  generalize 1 <<< 1074 = one
  calc n * 10 ^ k * 10 ^ e.toNat * one * 10 ^ (-(e + k)).toNat
      = n * one * (10 ^ k * 10 ^ e.toNat * 10 ^ (-(e + k)).toNat) := by ac_rfl
    _ = n * one * (10 ^ (e + k).toNat * 10 ^ (-e).toNat) := by rw [hpowers]
    _ = n * 10 ^ (e + k).toNat * one * 10 ^ (-e).toNat := by ac_rfl

theorem magnitude?_shift (n k : Nat) (e : Int) :
    magnitude? ⟨n * 10 ^ k, e⟩ = magnitude? ⟨n, e + k⟩ := by
  rcases Nat.eq_zero_or_pos n with rfl | hn
  · simp [magnitude?]
  · have hpoint : e + (digitCount (n * 10 ^ k) : Nat) = e + k + (digitCount n : Nat) := by
      rw [digitCount_mul_pow hn]
      push_cast
      ring
    have hzero : n * 10 ^ k = 0 ↔ n = 0 := by
      simp
    simp only [magnitude?, hpoint, hzero, ofRatio?_ratio_shift]

end Decimal

namespace Magnitude

/-! ## The shortest decimal -/

theorem steps_lt (m : Magnitude) {top : Nat} (h : m.shift ≤ top) : m.steps < 2 ^ (53 + top) := by
  rw [steps_eq, Nat.pow_add]
  calc m.significand * 2 ^ m.shift < 2 ^ 53 * 2 ^ m.shift :=
        Nat.mul_lt_mul_of_pos_right m.significand_lt (Nat.two_pow_pos _)
    _ ≤ 2 ^ 53 * 2 ^ top := Nat.mul_le_mul_left _ (Nat.pow_le_pow_right (by decide) h)

theorem ofRatio?_shift (m : Magnitude) {c : Nat} (hc : 0 < c) (k : Nat) :
    ofRatio? ((m.steps * c) <<< k) (c <<< k) = some m := by
  rw [Nat.shiftLeft_eq, Nat.shiftLeft_eq, ofRatio?_mul _ _ (Nat.two_pow_pos k), ← ofRatio?_steps m,
    ← ofRatio?_mul m.steps 1 hc, Nat.one_mul]

theorem ratio_of_neg (n : Nat) {k : Nat} (hk : 0 < k) :
    Decimal.ratio ⟨n, -(k : Int)⟩ = (n <<< 1074, Nat.pow 10 k) := by
  cases k with
  | zero => exact absurd hk (Nat.lt_irrefl 0)
  | succ k => rfl

/-- What a step is multiplied by to be written in decimals: with a name it is not worked out. -/
@[irreducible] def fives : Nat := Nat.pow 5 1074

theorem exact_eq (m : Magnitude) : m.exact = ⟨m.steps * fives, -((1074 : Nat) : Int)⟩ := by
  unfold fives
  rfl

theorem fives_mul : fives * 2 ^ 1074 = 10 ^ 1074 := by
  unfold fives
  decide +kernel

theorem shiftLeft_of_mul {a k : Nat} (h : a * 2 ^ k = 10 ^ k) : a <<< k = Nat.pow 10 k := by
  rw [Nat.shiftLeft_eq, h, Nat.pow_eq]

theorem ratio_exact (m : Magnitude) :
    m.exact.ratio = ((m.steps * fives) <<< 1074, fives <<< 1074) := by
  rw [exact_eq, ratio_of_neg _ (by decide), shiftLeft_of_mul fives_mul]

theorem le_fives : 10 ^ 743 ≤ fives := by
  unfold fives
  decide +kernel

theorem mul_fives_lt : 2 ^ (53 + 2045) * fives < 10 ^ 1384 := by
  unfold fives
  decide +kernel

/-- The exact value of a size is read back as it. -/
theorem magnitude?_exact (m : Magnitude) : m.exact.magnitude? = some m := by
  have hfives : 0 < fives := Nat.lt_of_lt_of_le (Nat.pow_pos (by decide)) le_fives
  have hratio : ofRatio? m.exact.ratio.1 m.exact.ratio.2 = some m := by
    rw [ratio_exact]
    exact ofRatio?_shift m hfives 1074
  have hdigits : m.exact.digits = m.steps * fives := by
    rw [exact_eq]
  have hexponent : m.exact.exponent = -1074 := by
    rw [exact_eq]
    rfl
  rcases Nat.eq_zero_or_pos m.steps with hzero | hpos
  · have hnone : m.exact.digits = 0 := by
      rw [hdigits, hzero, Nat.zero_mul]
    rw [Decimal.magnitude?, if_pos (Or.inl hnone), eq_zero_of_steps hzero]
  · have hlow : ¬ Decimal.digitCount m.exact.digits ≤ 743 := by
      rw [hdigits, Decimal.digitCount_le_iff (by decide), Nat.not_lt]
      exact le_fives.trans (Nat.le_mul_of_pos_left _ hpos)
    have hhigh : Decimal.digitCount m.exact.digits ≤ 1384 := by
      rw [hdigits, Decimal.digitCount_le_iff (by decide)]
      exact (Nat.mul_le_mul_right _ (Nat.le_of_lt (m.steps_lt m.shift_le))).trans_lt mul_fives_lt
    have hpositive : m.exact.digits ≠ 0 := by
      rw [hdigits]
      exact (Nat.mul_pos hpos hfives).ne'
    have hinside : ¬ (m.exact.digits = 0 ∨
        m.exact.exponent + (Decimal.digitCount m.exact.digits : Nat) < -330) := by
      omega
    have hbelow : ¬ 310 < m.exact.exponent + (Decimal.digitCount m.exact.digits : Nat) := by
      omega
    simp only [Decimal.magnitude?, if_neg hinside, if_neg hbelow, hratio]

theorem magnitude?_of_neighbour? {tie : Tie} {m : Magnitude} {e : Int} {d : Decimal}
    (h : m.neighbour? tie e = some d) : d.magnitude? = some m := by
  have := List.find?_some h
  simpa using this

/-- The shortest decimal of a size is read back as it. -/
theorem magnitude?_shortest (tie : Tie) (m : Magnitude) :
    (m.shortest tie).magnitude? = some m := by
  simp only [shortest]
  rcases h : (List.range 17).findSome? fun n => m.neighbour? tie (m.point - (n + 1 : Nat)) with
    - | d
  · rw [Option.getD_none]
    exact magnitude?_exact m
  · obtain ⟨n, -, hn⟩ := List.exists_of_findSome?_eq_some h
    rw [Option.getD_some]
    exact magnitude?_of_neighbour? hn

end Magnitude

end MetricLayer
