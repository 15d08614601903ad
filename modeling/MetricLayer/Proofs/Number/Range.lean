import MetricLayer.Proofs.Number.Rounding
import Mathlib.Algebra.Order.Field.Rat
import Mathlib.Algebra.Order.GroupWithZero.Basic
import Mathlib.Tactic.Linarith

/-!
# The range of doubles

Rounding goes up from halfway on where the upper neighbour is even (`le_divideToEven_iff`). So the
quotients that are beyond the largest finite size are those from halfway between it and the next
power of two on (`ofRatio?_eq_none_iff`), and the decimals that no finite double is nearest to are
those of at least `2 ^ 1024 - 2 ^ 970` (`magnitude?_eq_none_iff`).
-/

namespace MetricLayer

namespace Magnitude

variable {num den k : Nat}

theorem divideToEven_le (h : num < k * den) : divideToEven num den ≤ k := by
  have hquotient : num / den < k := Nat.div_lt_of_lt_mul (Nat.mul_comm k den ▸ h)
  simp only [divideToEven]
  split_ifs <;> omega

theorem half_div (num : Nat) (hden : 0 < den) :
    (2 * num + den) / (2 * den) = num / den + if 2 * (num % den) < den then 0 else 1 := by
  have hrest : num % den < den := Nat.mod_lt num hden
  have hparts : 2 * num + den = 2 * den * (num / den) + (2 * (num % den) + den) := by
    have hnum : den * (num / den) + num % den = num := Nat.div_add_mod num den
    linarith
  rw [hparts, Nat.mul_add_div (Nat.mul_pos (by decide) hden)]
  congr 1
  split_ifs with hlow
  · exact Nat.div_eq_of_lt (by linarith)
  · exact Nat.div_eq_of_lt_le (by linarith) (by linarith)

/-- A tie goes to an even number, so what is rounded to it or beyond begins halfway below it. -/
theorem le_divideToEven_iff (hden : 0 < den) (hk : k % 2 = 0) :
    k ≤ divideToEven num den ↔ 2 * k * den ≤ 2 * num + den := by
  have hle : 2 * k * den ≤ 2 * num + den ↔ k ≤ (2 * num + den) / (2 * den) := by
    rw [Nat.le_div_iff_mul_le (Nat.mul_pos (by decide) hden), Nat.mul_left_comm, Nat.mul_assoc]
  rw [hle, half_div num hden]
  simp only [divideToEven]
  split_ifs <;> omega

/-- The shift that rounding finds leaves a significand of 53 binary digits, or is zero. -/
theorem shift_bounds (whole : Nat) :
    let shift := if whole < 1 <<< 53 then 0 else Nat.log2 whole - 52
    whole < 2 ^ 53 * 2 ^ shift ∧ (shift = 0 ∨ 2 ^ 52 * 2 ^ shift ≤ whole) := by
  intro shift
  by_cases hsmall : whole < 1 <<< 53
  · have hshift : shift = 0 := if_pos hsmall
    rw [hshift, Nat.pow_zero, Nat.mul_one]
    exact ⟨hsmall, Or.inl rfl⟩
  · have hshift : shift = Nat.log2 whole - 52 := if_neg hsmall
    have hlarge : 2 ^ 53 ≤ whole := Nat.not_lt.1 hsmall
    have hne : whole ≠ 0 := by
      rintro rfl
      simp at hlarge
    have hlog : 53 ≤ Nat.log2 whole := (Nat.le_log2 hne).2 hlarge
    rw [← Nat.pow_add, ← Nat.pow_add, hshift]
    have hup : 53 + (Nat.log2 whole - 52) = Nat.log2 whole + 1 := by omega
    have hdown : 52 + (Nat.log2 whole - 52) = Nat.log2 whole := by omega
    rw [hup, hdown]
    exact ⟨Nat.lt_log2_self, Or.inr (Nat.log2_self_le hne)⟩

theorem exists_shift (num : Nat) (hden : 0 < den) :
    ∃ shift, num < 2 ^ 53 * (den * 2 ^ shift) ∧
      (shift = 0 ∨ 2 ^ 52 * (den * 2 ^ shift) ≤ num) ∧
      ofRatio? num den =
        if divideToEven num (den * 2 ^ shift) = 2 ^ 53 then ofParts? (2 ^ 52) (shift + 1)
        else ofParts? (divideToEven num (den * 2 ^ shift)) shift := by
  obtain ⟨hhigh, hlow⟩ := shift_bounds (num / den)
  have hdef : ∀ shift, shift = (if num / den < 1 <<< 53 then 0 else Nat.log2 (num / den) - 52) →
      ofRatio? num den =
        if divideToEven num (den * 2 ^ shift) = 2 ^ 53 then ofParts? (2 ^ 52) (shift + 1)
        else ofParts? (divideToEven num (den * 2 ^ shift)) shift := by
    rintro shift rfl
    rw [← Nat.shiftLeft_eq]
    rfl
  refine ⟨_, ?_, hlow.imp_right fun h => ?_, hdef _ rfl⟩
  · rw [Nat.mul_left_comm, Nat.mul_comm]
    exact (Nat.div_lt_iff_lt_mul hden).1 hhigh
  · rw [Nat.mul_left_comm, Nat.mul_comm]
    exact (Nat.le_div_iff_mul_le hden).1 h

theorem ofParts?_eq_none_iff {significand shift : Nat} :
    ofParts? significand shift = none ↔
      ¬ (significand < 2 ^ 53 ∧ (2 ^ 52 ≤ significand ∨ shift = 0) ∧ shift ≤ 2045) := by
  unfold ofParts?
  rw [dite_eq_right_iff]
  simp [Nat.one_shiftLeft]

/-- The quotients beyond the largest finite size are those from halfway between it and the next
power of two on. There are `2 ^ 1074` steps in one. -/
theorem ofRatio?_eq_none_iff (num : Nat) (hden : 0 < den) :
    ofRatio? num den = none ↔ (2 ^ 54 - 1) * (den * 2 ^ (970 + 1074)) ≤ num := by
  obtain ⟨shift, hhigh, hlow, hdef⟩ := exists_shift num hden
  have hscaled : 0 < den * 2 ^ shift := Nat.mul_pos hden (Nat.two_pow_pos _)
  have hle : divideToEven num (den * 2 ^ shift) ≤ 2 ^ 53 := divideToEven_le hhigh
  have hge : shift = 0 ∨ 2 ^ 52 ≤ divideToEven num (den * 2 ^ shift) :=
    hlow.imp_right fun h => (le_divideToEven_iff hscaled (by decide)).2 (by linarith)
  have hfull : 2 ^ 53 ≤ divideToEven num (den * 2 ^ shift) ↔
      (2 ^ 54 - 1) * (den * 2 ^ shift) ≤ 2 * num := by
    rw [le_divideToEven_iff hscaled (by decide)]
    omega
  have hnone : ofRatio? num den = none ↔
      2045 < shift ∨ shift = 2045 ∧ (2 ^ 54 - 1) * (den * 2 ^ shift) ≤ 2 * num := by
    rw [hdef, ← hfull]
    split_ifs <;> rw [ofParts?_eq_none_iff] <;> omega
  have hpower : ∀ n, den * 2 ^ (n + 1) = 2 * (den * 2 ^ n) := fun n => by ring
  have hmono : ∀ {m n}, m ≤ n → den * 2 ^ m ≤ den * 2 ^ n := fun h =>
    Nat.mul_le_mul_left _ (Nat.pow_le_pow_right (by decide) h)
  have hpositive : ∀ n, 0 < den * 2 ^ n := fun n => Nat.mul_pos hden (Nat.two_pow_pos n)
  have hpos := hpositive (970 + 1074)
  rw [hnone]
  rcases Nat.lt_trichotomy shift 2045 with hshift | rfl | hshift
  · have hbelow : den * 2 ^ shift ≤ den * 2 ^ (970 + 1074) := hmono (by omega)
    generalize den * 2 ^ (970 + 1074) = unit at hpos hbelow ⊢
    omega
  · have hexponent : 2045 = 970 + 1074 + 1 := rfl
    rw [hexponent, hpower]
    generalize den * 2 ^ (970 + 1074) = unit at hpos ⊢
    omega
  · have habove : den * 2 ^ (970 + 1074 + 1 + 1) ≤ den * 2 ^ shift := hmono (by omega)
    rw [hpower (970 + 1074 + 1), hpower (970 + 1074)] at habove
    generalize den * 2 ^ (970 + 1074) = unit at hpos habove ⊢
    omega

end Magnitude

namespace Decimal

variable {d : Decimal} {n : Nat}

/-- The number that a decimal stands for. -/
def value (d : Decimal) : ℚ := d.digits * 10 ^ d.exponent

theorem le_value_iff :
    (n : ℚ) ≤ d.value ↔ n * 10 ^ (-d.exponent).toNat ≤ d.digits * 10 ^ d.exponent.toNat := by
  have hpos : (0 : ℚ) < 10 ^ (-d.exponent).toNat := pow_pos (by norm_num) _
  have hsplit : (10 : ℚ) ^ d.exponent = 10 ^ d.exponent.toNat / 10 ^ (-d.exponent).toNat := by
    rw [← zpow_natCast, ← zpow_natCast, ← zpow_sub₀ (by norm_num)]
    congr 1
    omega
  rw [value, hsplit, ← mul_div_assoc, le_div_iff₀ hpos]
  exact_mod_cast Iff.rfl

/-- Halfway between the largest finite double and the next power of two. It has a name so that it is
not worked out. -/
@[irreducible] def limit : Nat := (2 ^ 54 - 1) * 2 ^ 970

theorem limit_eq : limit = (2 ^ 54 - 1) * 2 ^ 970 := by
  unfold limit
  rfl

theorem cast_limit : (limit : ℚ) = 2 ^ 1024 - 2 ^ 970 := by
  have hcast : ∀ n, (((2 ^ 54 - 1) * 2 ^ n : Nat) : ℚ) = 2 ^ (54 + n) - 2 ^ n := by
    intro n
    push_cast
    ring
  rw [limit_eq]
  exact hcast 970

theorem limit_pos : 0 < limit := by
  rw [limit_eq]
  decide +kernel

theorem limit_le : limit ≤ 10 ^ 310 := by
  rw [limit_eq]
  decide +kernel

theorem lt_limit_of_point (h : d.digits = 0 ∨ d.exponent + (digitCount d.digits : Nat) < -330) :
    d.digits * 10 ^ d.exponent.toNat < limit * 10 ^ (-d.exponent).toNat := by
  have hpos : 0 < limit * 10 ^ (-d.exponent).toNat :=
    Nat.mul_pos limit_pos (Nat.pow_pos (by decide))
  rcases h with hzero | hlow
  · rwa [hzero, Nat.zero_mul]
  · have hdigits : d.digits < 10 ^ digitCount d.digits :=
      (digitCount_le_iff (List.length_pos_iff.2 Nat.toDigits_ne_nil)).1 (Nat.le_refl _)
    have hexponents : digitCount d.digits + d.exponent.toNat ≤ (-d.exponent).toNat := by omega
    calc d.digits * 10 ^ d.exponent.toNat
        < 10 ^ digitCount d.digits * 10 ^ d.exponent.toNat :=
          Nat.mul_lt_mul_of_pos_right hdigits (Nat.pow_pos (by decide))
      _ = 10 ^ (digitCount d.digits + d.exponent.toNat) := (Nat.pow_add _ _ _).symm
      _ ≤ 10 ^ (-d.exponent).toNat := Nat.pow_le_pow_right (by decide) hexponents
      _ ≤ limit * 10 ^ (-d.exponent).toNat := Nat.le_mul_of_pos_left _ limit_pos

theorem limit_le_of_point (hne : d.digits ≠ 0)
    (h : 310 < d.exponent + (digitCount d.digits : Nat)) :
    limit * 10 ^ (-d.exponent).toNat ≤ d.digits * 10 ^ d.exponent.toNat := by
  have hdigits : 10 ^ (digitCount d.digits - 1) ≤ d.digits := by
    rcases Nat.eq_zero_or_pos (digitCount d.digits - 1) with hone | hmore
    · rw [hone]
      exact Nat.pos_of_ne_zero hne
    · refine Nat.not_lt.1 fun hlt => ?_
      have hle := (digitCount_le_iff hmore).2 hlt
      omega
  have hexponents : 310 + (-d.exponent).toNat ≤ digitCount d.digits - 1 + d.exponent.toNat := by
    omega
  calc limit * 10 ^ (-d.exponent).toNat
      ≤ 10 ^ 310 * 10 ^ (-d.exponent).toNat :=
        Nat.mul_le_mul_right (10 ^ (-d.exponent).toNat) limit_le
    _ = 10 ^ (310 + (-d.exponent).toNat) := by rw [Nat.pow_add]
    _ ≤ 10 ^ (digitCount d.digits - 1 + d.exponent.toNat) :=
        Nat.pow_le_pow_right (by decide) hexponents
    _ = 10 ^ (digitCount d.digits - 1) * 10 ^ d.exponent.toNat := Nat.pow_add _ _ _
    _ ≤ d.digits * 10 ^ d.exponent.toNat := Nat.mul_le_mul_right _ hdigits

theorem ofRatio?_ratio_eq_none_iff :
    Magnitude.ofRatio? d.ratio.1 d.ratio.2 = none ↔
      limit * 10 ^ (-d.exponent).toNat ≤ d.digits * 10 ^ d.exponent.toNat := by
  have hsteps : ∀ den m n,
      (2 ^ 54 - 1) * (den * 2 ^ (m + n)) = (2 ^ 54 - 1) * 2 ^ m * den * 2 ^ n := by
    intro den m n
    rw [Nat.pow_add]
    ac_rfl
  rw [ratio_eq, Magnitude.ofRatio?_eq_none_iff _ (Nat.pow_pos (by decide)), hsteps _ 970 1074,
    ← limit_eq, Nat.one_shiftLeft, Nat.mul_le_mul_right_iff (Nat.two_pow_pos _)]

/-- Decimals from halfway between the largest finite double and the next power of two on are nearest
to no finite double. -/
theorem magnitude?_eq_none_iff : d.magnitude? = none ↔ (2 ^ 1024 - 2 ^ 970 : ℚ) ≤ d.value := by
  rw [← cast_limit, le_value_iff]
  simp only [magnitude?]
  split_ifs with hlow hhigh
  · exact iff_of_false (by simp) (Nat.not_le.2 (lt_limit_of_point hlow))
  · exact iff_of_true rfl (limit_le_of_point (fun hzero => hlow (Or.inl hzero)) hhigh)
  · exact ofRatio?_ratio_eq_none_iff

end Decimal

end MetricLayer
