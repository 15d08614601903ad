import MetricLayer.Number.Layout
import MetricLayer.Number.Numeral
import MetricLayer.Proofs.Number.Rounding
import MetricLayer.Proofs.Text.Blank

/-!
# Number texts

The text of a finite number, in either spelling, is a numeral of that number (`read?_text`), so no
two finite numbers have one text (`text_injective`). It begins with a digit or a minus sign and
holds digits, points, signs and exponent marks alone (`isNumeric_of_mem_text`), so what stands
beside it in a document is told apart from it.
-/

namespace MetricLayer

namespace Decimal

/-! ## The digits of a decimal -/

theorem replicate_dropZeros (cs : List Char) :
    List.replicate (dropZeros cs).2 '0' ++ (dropZeros cs).1 = cs := by
  induction cs with
  | nil => rfl
  | cons c cs ih =>
    by_cases h : c = '0'
    · simp [dropZeros, h, List.replicate_succ, ih]
    · simp [dropZeros, h]

/-- The digits of a decimal are its significant ones and then zeros, which its exponent counts. -/
theorem exists_zeros_significant (d : Decimal) :
    ∃ zeros : Nat, Nat.toDigits 10 d.digits = d.significant.1 ++ List.replicate zeros '0' ∧
      d.significant.2 = d.exponent + zeros := by
  refine ⟨(dropZeros (Nat.toDigits 10 d.digits).reverse).2, ?_, rfl⟩
  have h := congrArg List.reverse (replicate_dropZeros (Nat.toDigits 10 d.digits).reverse)
  rw [List.reverse_reverse, List.reverse_append, List.reverse_replicate] at h
  exact h.symm

theorem isDigit_of_mem_significant {d : Decimal} {c : Char} (h : c ∈ d.significant.1) :
    c.isDigit = true := by
  obtain ⟨zeros, hdigits, -⟩ := d.exists_zeros_significant
  refine Nat.isDigit_of_mem_toDigits (b := 10) (n := d.digits) (by decide) (by decide) ?_
  rw [hdigits]
  exact List.mem_append_left _ h

/-- The number that the digits spell, followed by as many zeros as were dropped. -/
theorem ofDigitChars_significant (d : Decimal) :
    ∃ zeros : Nat, d.digits = Nat.ofDigitChars 10 d.significant.1 0 * 10 ^ zeros ∧
      d.significant.2 = d.exponent + zeros := by
  obtain ⟨zeros, hdigits, hexponent⟩ := d.exists_zeros_significant
  refine ⟨zeros, ?_, hexponent⟩
  have h := congrArg (Nat.ofDigitChars 10 · 0) hdigits
  simp only [Nat.ofDigitChars_ten_toDigits] at h
  rw [Nat.ofDigitChars_append, Nat.ofDigitChars_replicate_zero] at h
  rw [h, Nat.mul_comm]

theorem significant_ne_nil {d : Decimal} (h : d.digits ≠ 0) : d.significant.1 ≠ [] := by
  intro hnil
  obtain ⟨zeros, hdigits, -⟩ := d.ofDigitChars_significant
  rw [hnil, Nat.ofDigitChars_nil, Nat.zero_mul] at hdigits
  exact h hdigits

theorem magnitude?_zero (e : Int) : magnitude? ⟨0, e⟩ = some .zero := by
  simp [magnitude?]

theorem magnitude?_significant (d : Decimal) :
    magnitude? ⟨Nat.ofDigitChars 10 d.significant.1 0, d.significant.2⟩ = d.magnitude? := by
  obtain ⟨zeros, hdigits, hexponent⟩ := d.ofDigitChars_significant
  rw [hexponent, ← magnitude?_shift, ← hdigits]

end Decimal

/-! ## Reading digits, a point and an exponent -/

namespace Numeral

/-- The characters that a number may hold. -/
def isNumeric (c : Char) : Bool :=
  c.isDigit || c = '.' || c = 'e' || c = 'E' || c = '+' || c = '-'

theorem isNumeric_of_isDigit {c : Char} (h : c.isDigit = true) : isNumeric c = true := by
  simp [isNumeric, h]

theorem ne_sign_of_isAlphanum {c : Char} (h : c.isAlphanum = true) : c ≠ '-' ∧ c ≠ '+' := by
  constructor <;> rintro rfl <;> exact absurd h (by decide)

theorem ne_sign_of_isDigit {c : Char} (h : c.isDigit = true) : c ≠ '-' ∧ c ≠ '+' :=
  ne_sign_of_isAlphanum (by simp [Char.isAlphanum, h])

variable {whole fraction rest : List Char}

theorem spanDigits_append (hwhole : ∀ c ∈ whole, c.isDigit = true)
    (hrest : ∀ c ∈ rest.head?, c.isDigit = false) : spanDigits (whole ++ rest) = (whole, rest) := by
  rw [spanDigits, takeWhile_append_of_head hwhole hrest, dropWhile_append_of_head hwhole hrest]

theorem decimal?_of_whole (hne : whole ≠ []) (hwhole : ∀ c ∈ whole, c.isDigit = true)
    (hrest : ∀ c ∈ rest.head?, c.isDigit = false ∧ c ≠ '.') :
    decimal? (whole ++ rest) =
      (exponent? rest).map fun e => ⟨Nat.ofDigitChars 10 whole 0, e⟩ := by
  have hspan := spanDigits_append hwhole fun c hc => (hrest c hc).1
  rw [decimal?, hspan]
  cases rest with
  | nil => simp [hne]
  | cons c rest =>
    have hpoint : c ≠ '.' := (hrest c rfl).2
    simp [hne, hpoint]

theorem decimal?_of_fraction (hne : whole ++ fraction ≠ [])
    (hwhole : ∀ c ∈ whole, c.isDigit = true)
    (hfraction : ∀ c ∈ fraction, c.isDigit = true)
    (hrest : ∀ c ∈ rest.head?, c.isDigit = false) :
    decimal? (whole ++ '.' :: (fraction ++ rest)) =
      (exponent? rest).map fun e =>
        ⟨Nat.ofDigitChars 10 (whole ++ fraction) 0, e - fraction.length⟩ := by
  have hspan : spanDigits (whole ++ '.' :: (fraction ++ rest)) =
      (whole, '.' :: (fraction ++ rest)) := by
    apply spanDigits_append hwhole
    rintro c ⟨⟩
    rfl
  have hdigits : ¬ (whole = [] ∧ fraction = []) := fun h => hne (List.append_eq_nil_iff.2 h)
  rw [decimal?, hspan]
  simp only [spanDigits_append hfraction hrest, if_neg hdigits]

theorem decimal?_of_point (hne : whole ≠ []) (hwhole : ∀ c ∈ whole, c.isDigit = true)
    (hfraction : ∀ c ∈ fraction, c.isDigit = true) :
    decimal? (whole ++ '.' :: fraction) =
      some ⟨Nat.ofDigitChars 10 (whole ++ fraction) 0, -fraction.length⟩ := by
  have h : decimal? (whole ++ '.' :: (fraction ++ [])) = _ :=
    decimal?_of_fraction (List.append_ne_nil_of_left_ne_nil hne fraction) hwhole hfraction (by simp)
  rw [List.append_nil] at h
  rw [h, exponent?, Option.map_some, Int.zero_sub]

theorem digits?_toDigits (n : Nat) : digits? (Nat.toDigits 10 n) = some n := by
  have hdigits : ∀ c ∈ Nat.toDigits 10 n, c.isDigit = true := fun c hc =>
    Nat.isDigit_of_mem_toDigits (by decide) (by decide) hc
  rw [digits?, if_pos ⟨Nat.toDigits_ne_nil, List.all_eq_true.2 hdigits⟩,
    Nat.ofDigitChars_ten_toDigits]

end Numeral

namespace Decimal

open Numeral

variable {digits : List Char}

/-- What follows the mark of an exponent is a sign and digits, and is read as the place of the point
less one. -/
theorem exists_scientific (point : Int) :
    ∃ exponent : List Char, exponent? ('e' :: exponent) = some (point - 1) ∧
      (∀ c ∈ exponent, c = '+' ∨ c = '-' ∨ c.isDigit = true) ∧
      (∀ c, scientific [c] point = [c] ++ 'e' :: exponent) ∧
      ∀ c d rest, scientific (c :: d :: rest) point =
        [c] ++ '.' :: ((d :: rest) ++ 'e' :: exponent) := by
  have hdigits : ∀ n, ∀ c ∈ Nat.toDigits 10 n, c.isDigit = true := fun n c hc =>
    Nat.isDigit_of_mem_toDigits (by decide) (by decide) hc
  unfold scientific
  cases point - 1 with
  | ofNat n =>
    refine ⟨'+' :: Nat.toDigits 10 n, ?_, ?_, fun _ => rfl, fun _ _ _ => rfl⟩
    · simp [exponent?, digits?_toDigits]
    · intro c hc
      rcases List.mem_cons.1 hc with rfl | hc
      · exact Or.inl rfl
      · exact Or.inr (Or.inr (hdigits n c hc))
  | negSucc n =>
    refine ⟨'-' :: Nat.toDigits 10 (n + 1), ?_, ?_, fun _ => rfl, fun _ _ _ => rfl⟩
    · simp [exponent?, digits?_toDigits, Int.negSucc_eq]
    · intro c hc
      rcases List.mem_cons.1 hc with rfl | hc
      · exact Or.inr (Or.inl rfl)
      · exact Or.inr (Or.inr (hdigits (n + 1) c hc))

theorem decimal?_scientific (hne : digits ≠ []) (hdigits : ∀ c ∈ digits, c.isDigit = true)
    (point : Int) :
    decimal? (scientific digits point) =
      some ⟨Nat.ofDigitChars 10 digits 0, point - digits.length⟩ := by
  obtain ⟨exponent, hexponent, -, hone, hmore⟩ := exists_scientific point
  match digits with
  | [] => exact absurd rfl hne
  | [c] =>
    rw [hone, decimal?_of_whole hne hdigits (by rintro d ⟨⟩; decide), hexponent]
    rfl
  | c :: d :: rest =>
    have hc : ∀ x ∈ [c], x.isDigit = true := by simpa using hdigits c List.mem_cons_self
    have hrest : ∀ x ∈ d :: rest, x.isDigit = true := fun x hx =>
      hdigits x (List.mem_cons_of_mem c hx)
    have hpoint : point - 1 - (d :: rest).length = point - (c :: d :: rest).length := by
      simp only [List.length_cons]
      omega
    rw [hmore, decimal?_of_fraction (List.cons_ne_nil c _) hc hrest (by rintro x ⟨⟩; decide),
      hexponent, Option.map_some, hpoint]
    rfl

theorem ofDigitChars_append_replicate (digits : List Char) (zeros : Nat) :
    Nat.ofDigitChars 10 (digits ++ List.replicate zeros '0') 0 =
      Nat.ofDigitChars 10 digits 0 * 10 ^ zeros := by
  rw [Nat.ofDigitChars_append, Nat.ofDigitChars_replicate_zero, Nat.mul_comm]

theorem isDigit_of_mem_replicate {zeros : Nat} {c : Char} (h : c ∈ List.replicate zeros '0') :
    c.isDigit = true := by
  rw [List.eq_of_mem_replicate h]
  rfl

theorem isDigit_of_mem_append {cs ds : List Char} (hcs : ∀ c ∈ cs, c.isDigit = true)
    (hds : ∀ c ∈ ds, c.isDigit = true) : ∀ c ∈ cs ++ ds, c.isDigit = true := by
  intro c hc
  rcases List.mem_append.1 hc with hc | hc
  · exact hcs c hc
  · exact hds c hc

theorem ofDigitChars_replicate_append (zeros : Nat) (digits : List Char) :
    Nat.ofDigitChars 10 (List.replicate zeros '0' ++ digits) 0 = Nat.ofDigitChars 10 digits 0 := by
  rw [Nat.ofDigitChars_append, Nat.ofDigitChars_replicate_zero, Nat.mul_zero]

theorem exists_decimal?_positional (hne : digits ≠ []) (hdigits : ∀ c ∈ digits, c.isDigit = true)
    {ending : String} (hending : ending = "" ∨ ending = ".0") (e : Int) :
    ∃ d, decimal? (positional ending digits e) = some d ∧
      d.magnitude? = magnitude? ⟨Nat.ofDigitChars 10 digits 0, e⟩ := by
  cases e with
  | ofNat zeros =>
    have hzeros : ∀ c ∈ List.replicate zeros '0', c.isDigit = true := fun c =>
      isDigit_of_mem_replicate
    have hwhole := isDigit_of_mem_append hdigits hzeros
    have hne' : digits ++ List.replicate zeros '0' ≠ [] := List.append_ne_nil_of_left_ne_nil hne _
    rcases hending with rfl | rfl
    · refine ⟨_, decimal?_of_whole hne' hwhole (by simp), ?_⟩
      rw [ofDigitChars_append_replicate, magnitude?_shift, Int.zero_add]
      rfl
    · have hzero : ∀ c ∈ ['0'], c.isDigit = true := List.forall_mem_singleton.2 rfl
      have hexponent : -(['0'].length : Int) + (zeros + 1 : Nat) = Int.ofNat zeros := by
        simp
      have hread := decimal?_of_point hne' hwhole hzero
      refine ⟨_, hread, ?_⟩
      rw [List.append_assoc, ← List.replicate_succ', ofDigitChars_append_replicate,
        magnitude?_shift, hexponent]
  | negSucc e =>
    unfold positional
    dsimp only
    split
    · rename_i hinside
      have hcut : digits.length - (digits.length - (e + 1)) = e + 1 := by omega
      have hleft : digits.take (digits.length - (e + 1)) ≠ [] := by
        rw [ne_eq, List.take_eq_nil_iff, not_or]
        exact ⟨by omega, hne⟩
      refine ⟨_, decimal?_of_point hleft (fun c hc => hdigits c (List.mem_of_mem_take hc))
        fun c hc => hdigits c (List.mem_of_mem_drop hc), ?_⟩
      rw [List.take_append_drop, List.length_drop, hcut]
      rfl
    · rename_i hbefore
      have hzeros : ∀ c ∈ List.replicate (e + 1 - digits.length) '0', c.isDigit = true :=
        fun c => isDigit_of_mem_replicate
      have hlength : (List.replicate (e + 1 - digits.length) '0' ++ digits).length = e + 1 := by
        rw [List.length_append, List.length_replicate]
        omega
      have hzero : ∀ c ∈ ['0'], c.isDigit = true := List.forall_mem_singleton.2 rfl
      refine ⟨_, decimal?_of_point (List.cons_ne_nil '0' []) hzero
        (isDigit_of_mem_append hzeros hdigits), ?_⟩
      rw [hlength, List.singleton_append, ← List.cons_append, ← List.replicate_succ,
        ofDigitChars_replicate_append]
      rfl

/-! ## The characters of a decimal -/

theorem isDigit_head_positional (hne : digits ≠ []) (hdigits : ∀ c ∈ digits, c.isDigit = true)
    (ending : String) (e : Int) :
    ∃ c cs, positional ending digits e = c :: cs ∧ c.isDigit = true := by
  obtain ⟨c, rest, rfl⟩ := List.exists_cons_of_ne_nil hne
  have hc : c.isDigit = true := hdigits c List.mem_cons_self
  cases e with
  | ofNat zeros => exact ⟨c, _, rfl, hc⟩
  | negSucc e =>
    unfold positional
    dsimp only
    split
    · rename_i hinside
      have hcut : (c :: rest).length - (e + 1) = rest.length - (e + 1) + 1 := by
        simp only [List.length_cons] at hinside ⊢
        omega
      rw [hcut, List.take_succ_cons]
      exact ⟨c, _, rfl, hc⟩
    · exact ⟨'0', _, rfl, rfl⟩

theorem isDigit_head_scientific (hne : digits ≠ []) (hdigits : ∀ c ∈ digits, c.isDigit = true)
    (point : Int) : ∃ c cs, scientific digits point = c :: cs ∧ c.isDigit = true := by
  obtain ⟨exponent, -, -, hone, hmore⟩ := exists_scientific point
  match digits with
  | [] => exact absurd rfl hne
  | [c] => exact ⟨c, _, hone c, hdigits c List.mem_cons_self⟩
  | c :: d :: rest => exact ⟨c, _, hmore c d rest, hdigits c List.mem_cons_self⟩

theorem isNumeric_of_mem_positional (hdigits : ∀ c ∈ digits, c.isDigit = true) {ending : String}
    (hending : ending = "" ∨ ending = ".0") {e : Int} {c : Char}
    (h : c ∈ positional ending digits e) : isNumeric c = true := by
  have hpoint : c = '.' ∨ c.isDigit = true → isNumeric c = true := by
    rintro (rfl | hc)
    · rfl
    · exact isNumeric_of_isDigit hc
  apply hpoint
  cases e with
  | ofNat zeros =>
    rcases List.mem_append.1 h with h | h
    · exact Or.inr (isDigit_of_mem_append hdigits (fun c => isDigit_of_mem_replicate) c h)
    · rcases hending with rfl | rfl
      · exact absurd h List.not_mem_nil
      · rcases List.mem_pair.1 h with rfl | rfl
        · exact Or.inl rfl
        · exact Or.inr rfl
  | negSucc e =>
    unfold positional at h
    dsimp only at h
    split at h
    · rcases List.mem_append.1 h with h | h
      · exact Or.inr (hdigits c (List.mem_of_mem_take h))
      · rcases List.mem_cons.1 h with rfl | h
        · exact Or.inl rfl
        · exact Or.inr (hdigits c (List.mem_of_mem_drop h))
    · rcases List.mem_cons.1 h with rfl | h
      · exact Or.inr rfl
      · rcases List.mem_cons.1 h with rfl | h
        · exact Or.inl rfl
        · exact Or.inr (isDigit_of_mem_append (fun c => isDigit_of_mem_replicate) hdigits c h)

theorem isNumeric_of_mem_scientific (hne : digits ≠ [])
    (hdigits : ∀ c ∈ digits, c.isDigit = true) {point : Int} {c : Char}
    (h : c ∈ scientific digits point) : isNumeric c = true := by
  obtain ⟨exponent, -, hexponent, hone, hmore⟩ := exists_scientific point
  have htail : c ∈ 'e' :: exponent → isNumeric c = true := by
    intro hc
    rcases List.mem_cons.1 hc with rfl | hc
    · rfl
    · rcases hexponent c hc with rfl | rfl | hc
      · rfl
      · rfl
      · exact isNumeric_of_isDigit hc
  match digits with
  | [] => exact absurd rfl hne
  | [d] =>
    rw [hone] at h
    rcases List.mem_cons.1 h with rfl | h
    · exact isNumeric_of_isDigit (hdigits c List.mem_cons_self)
    · exact htail h
  | d :: d' :: rest =>
    rw [hmore] at h
    rcases List.mem_cons.1 h with rfl | h
    · exact isNumeric_of_isDigit (hdigits c List.mem_cons_self)
    · rcases List.mem_cons.1 h with rfl | h
      · rfl
      · rcases List.mem_append.1 h with h | h
        · exact isNumeric_of_isDigit (hdigits c (List.mem_cons_of_mem d h))
        · exact htail h

end Decimal

namespace NumberStyle

/-- A spelling in which every finite number is a numeral: zero is a digit, and a number without a
fraction ends with its digits, or with a point and a zero behind them. -/
structure WritesNumerals (style : NumberStyle) : Prop where
  zero : style.zero = "0" ∨ style.zero = "0.0"
  ending : style.wholeEnding = "" ∨ style.wholeEnding = ".0"

theorem writesNumerals_json : json.WritesNumerals := ⟨Or.inr rfl, Or.inr rfl⟩

end NumberStyle

namespace Magnitude

variable {style : NumberStyle} {m : Magnitude}

theorem eq_zero_of_significand (h : m.significand = 0) : m = zero := by
  apply eq_zero_of_steps
  rw [steps_eq, h, Nat.zero_mul]

theorem text_of_zero (h : m.significand = 0) : m.text style = style.zero.toList := by
  rw [text, if_pos h]

/-- A size other than zero is written with the digits of a decimal that is nearest to it. -/
theorem exists_text (style : NumberStyle) (h : m.significand ≠ 0) :
    ∃ digits e, digits ≠ [] ∧ (∀ c ∈ digits, c.isDigit = true) ∧
      Decimal.magnitude? ⟨Nat.ofDigitChars 10 digits 0, e⟩ = some m ∧
      (m.text style = Decimal.positional style.wholeEnding digits e ∨
        m.text style = Decimal.scientific digits (e + digits.length)) := by
  have hread := m.magnitude?_shortest style.tie
  have hne : (m.shortest style.tie).significant.1 ≠ [] := by
    apply Decimal.significant_ne_nil
    intro hzero
    rw [Decimal.magnitude?, if_pos (Or.inl hzero)] at hread
    exact h (congrArg significand (Option.some.inj hread).symm)
  rw [← Decimal.magnitude?_significant] at hread
  have hdigits : ∀ c ∈ (m.shortest style.tie).significant.1, c.isDigit = true := fun c =>
    Decimal.isDigit_of_mem_significant
  rw [text, if_neg h]
  -- what the digits are does not matter, and they are too much to be worked out
  generalize (m.shortest style.tie).significant = significant at hne hread hdigits
  obtain ⟨digits, e⟩ := significant
  refine ⟨digits, e, hne, hdigits, hread, ?_⟩
  dsimp only
  split
  · exact Or.inl rfl
  · exact Or.inr rfl

theorem exists_decimal?_text (hstyle : style.WritesNumerals) (m : Magnitude) :
    ∃ d, Numeral.decimal? (m.text style) = some d ∧ d.magnitude? = some m := by
  by_cases hzero : m.significand = 0
  · rw [text_of_zero hzero, eq_zero_of_significand hzero]
    rcases hstyle.zero with h | h <;> rw [h]
    · exact ⟨⟨0, 0⟩, rfl, Decimal.magnitude?_zero 0⟩
    · exact ⟨⟨0, -1⟩, rfl, Decimal.magnitude?_zero (-1)⟩
  · obtain ⟨digits, e, hne, hdigits, hread, htext | htext⟩ := exists_text style hzero
    · obtain ⟨d, hd, hvalue⟩ := Decimal.exists_decimal?_positional hne hdigits hstyle.ending e
      exact ⟨d, htext ▸ hd, hvalue.trans hread⟩
    · refine ⟨_, htext ▸ Decimal.decimal?_scientific hne hdigits _, ?_⟩
      rwa [Int.add_sub_cancel]

/-! ## The characters of a text -/

theorem isDigit_head_text (hstyle : style.WritesNumerals) (m : Magnitude) :
    ∃ c cs, m.text style = c :: cs ∧ c.isDigit = true := by
  by_cases hzero : m.significand = 0
  · rw [text_of_zero hzero]
    rcases hstyle.zero with h | h <;> rw [h]
    · exact ⟨'0', _, rfl, rfl⟩
    · exact ⟨'0', _, rfl, rfl⟩
  · obtain ⟨digits, e, hne, hdigits, -, htext | htext⟩ := exists_text style hzero
    · rw [htext]
      exact Decimal.isDigit_head_positional hne hdigits _ e
    · rw [htext]
      exact Decimal.isDigit_head_scientific hne hdigits _

theorem isNumeric_of_mem_text (hstyle : style.WritesNumerals) {c : Char} (h : c ∈ m.text style) :
    Numeral.isNumeric c = true := by
  by_cases hzero : m.significand = 0
  · rw [text_of_zero hzero] at h
    rcases hstyle.zero with hs | hs <;> rw [hs] at h
    · exact List.all_eq_true.1 (rfl : "0".toList.all Numeral.isNumeric = true) c h
    · exact List.all_eq_true.1 (rfl : "0.0".toList.all Numeral.isNumeric = true) c h
  · obtain ⟨digits, e, hne, hdigits, -, htext | htext⟩ := exists_text style hzero
    · exact Decimal.isNumeric_of_mem_positional hdigits hstyle.ending (htext ▸ h)
    · exact Decimal.isNumeric_of_mem_scientific hne hdigits (htext ▸ h)

end Magnitude

namespace Binary64

variable {style : NumberStyle} {x y : Binary64}

/-! ## Finite numbers -/

theorem toList_text (negative : Bool) (size : Magnitude) :
    ((finite negative size).text style).toList =
      if negative then '-' :: size.text style else size.text style :=
  String.toList_ofList

theorem read?_of_decimal? {cs : List Char} {d : Decimal} {size : Magnitude} (negative : Bool)
    (hhead : ∃ c rest, cs = c :: rest ∧ c.isDigit = true) (hd : Numeral.decimal? cs = some d)
    (hvalue : d.magnitude? = some size) :
    Numeral.read? (if negative then '-' :: cs else cs) = some (.finite negative size) := by
  have hread : ∀ sign, Numeral.unsigned? sign cs = some (.finite sign size) := by
    intro sign
    rw [Numeral.unsigned?, hd]
    simp only [Decimal.toBinary64, hvalue]
  cases negative with
  | true => exact hread true
  | false =>
    obtain ⟨c, rest, rfl, hc⟩ := hhead
    obtain ⟨hminus, hplus⟩ := Numeral.ne_sign_of_isDigit hc
    simpa [Numeral.read?, hminus, hplus] using hread false

/-- The text of a finite number is read as that number. -/
theorem read?_text (hstyle : style.WritesNumerals) (hx : x.isFinite = true) :
    Numeral.read? (x.text style).toList = some x := by
  cases x with
  | nan => cases hx
  | infinite negative => cases hx
  | finite negative size =>
    obtain ⟨d, hd, hvalue⟩ := Magnitude.exists_decimal?_text hstyle size
    rw [toList_text]
    exact read?_of_decimal? negative (Magnitude.isDigit_head_text hstyle size) hd hvalue

/-- No two finite numbers have one text. -/
theorem text_injective (hstyle : style.WritesNumerals) (hx : x.isFinite = true)
    (hy : y.isFinite = true) (h : x.text style = y.text style) : x = y := by
  have hread := read?_text hstyle hx
  rw [h, read?_text hstyle hy] at hread
  exact (Option.some.inj hread).symm

theorem head_text (hstyle : style.WritesNumerals) (hx : x.isFinite = true) :
    ∃ c cs, (x.text style).toList = c :: cs ∧ (c = '-' ∨ c.isDigit = true) := by
  cases x with
  | nan => cases hx
  | infinite negative => cases hx
  | finite negative size =>
    obtain ⟨c, cs, htext, hc⟩ := Magnitude.isDigit_head_text hstyle size
    cases negative with
    | true =>
      rw [toList_text, if_pos rfl]
      exact ⟨'-', size.text style, rfl, Or.inl rfl⟩
    | false =>
      rw [toList_text, if_neg Bool.false_ne_true]
      exact ⟨c, cs, htext, Or.inr hc⟩

/-- The text of a finite number holds no other characters than a number may. -/
theorem isNumeric_of_mem_text (hstyle : style.WritesNumerals) (hx : x.isFinite = true) {c : Char}
    (h : c ∈ (x.text style).toList) : Numeral.isNumeric c = true := by
  cases x with
  | nan => cases hx
  | infinite negative => cases hx
  | finite negative size =>
    cases negative with
    | true =>
      rw [toList_text, if_pos rfl] at h
      rcases List.mem_cons.1 h with rfl | h
      · rfl
      · exact Magnitude.isNumeric_of_mem_text hstyle h
    | false =>
      rw [toList_text, if_neg Bool.false_ne_true] at h
      exact Magnitude.isNumeric_of_mem_text hstyle h

end Binary64

end MetricLayer
