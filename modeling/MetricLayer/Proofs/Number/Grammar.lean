import MetricLayer.Proofs.Expression.Operators
import MetricLayer.Proofs.Number.Range
import MetricLayer.Proofs.Number.Spelling

/-!
# What is read as a number

A decimal is digits with a point among or beside them or none, and an exponent or none
(`decimal?_eq_some_iff`). A number is a decimal or one of three words behind a sign or none. The
words stand for no finite number, and neither does a decimal beyond the largest one: these are the
texts that are read as infinite or as not-a-number (`read?_nonFinite_iff`).
-/

namespace MetricLayer.Numeral

variable {cs : List Char} {n : Nat} {e : Int} {d : Decimal}

/-! ## Decimals -/

/-- Digits, at least one. -/
def IsDigits (cs : List Char) : Prop := cs ≠ [] ∧ ∀ c ∈ cs, c.isDigit = true

/-- The number that digits spell. -/
def digitsValue (cs : List Char) : Nat := Nat.ofDigitChars 10 cs 0

theorem digits?_eq_some_iff : digits? cs = some n ↔ IsDigits cs ∧ digitsValue cs = n := by
  unfold digits? IsDigits digitsValue
  split_ifs with h <;> rw [List.all_eq_true] at h
  · exact ⟨fun hn => ⟨h, Option.some.inj hn⟩, fun hn => congrArg some hn.2⟩
  · exact iff_of_false (by simp) fun hn => h hn.1

/-- The texts of exponents: none at all, or a mark, a sign or none, and digits. -/
inductive ExponentText : List Char → Int → Prop where
  | absent : ExponentText [] 0
  | unsigned {mark : Char} {digits : List Char} : mark = 'e' ∨ mark = 'E' → IsDigits digits →
    ExponentText (mark :: digits) (digitsValue digits)
  | positive {mark : Char} {digits : List Char} : mark = 'e' ∨ mark = 'E' → IsDigits digits →
    ExponentText (mark :: '+' :: digits) (digitsValue digits)
  | negative {mark : Char} {digits : List Char} : mark = 'e' ∨ mark = 'E' → IsDigits digits →
    ExponentText (mark :: '-' :: digits) (-digitsValue digits)

theorem IsDigits.exists_cons (h : IsDigits cs) : ∃ c rest, cs = c :: rest ∧ c.isDigit = true := by
  obtain ⟨c, rest, rfl⟩ := List.exists_cons_of_ne_nil h.1
  exact ⟨c, rest, rfl, h.2 c List.mem_cons_self⟩

theorem ExponentText.head (h : ExponentText cs e) : ∀ c ∈ cs.head?, c = 'e' ∨ c = 'E' := by
  cases h with
  | absent => simp
  | unsigned hmark _ | positive hmark _ | negative hmark _ => simpa using hmark

theorem exponent?_eq_some_iff : exponent? cs = some e ↔ ExponentText cs e := by
  constructor
  · intro h
    cases cs with
    | nil =>
      cases h
      exact .absent
    | cons mark cs =>
      simp only [exponent?] at h
      split_ifs at h with hmark
      split at h <;> obtain ⟨_, hread, rfl⟩ := Option.map_eq_some_iff.1 h <;>
        obtain ⟨n, hn, hcast⟩ := Option.bind_eq_some_iff.1 hread <;> cases hcast <;>
        obtain ⟨hdigits, rfl⟩ := digits?_eq_some_iff.1 hn
      · exact .negative hmark hdigits
      · exact .positive hmark hdigits
      · exact .unsigned hmark hdigits
  · intro h
    have hread : ∀ {digits}, IsDigits digits → digits? digits = some (digitsValue digits) :=
      fun h => digits?_eq_some_iff.2 ⟨h, rfl⟩
    cases h with
    | absent => rfl
    | positive hmark hdigits => simp [exponent?, hmark, hread hdigits]
    | negative hmark hdigits => simp [exponent?, hmark, hread hdigits]
    | unsigned hmark hdigits =>
      obtain ⟨c, rest, rfl, hc⟩ := hdigits.exists_cons
      obtain ⟨hminus, hplus⟩ := ne_sign_of_isDigit hc
      simp [exponent?, hmark, hminus, hplus, hread hdigits]

/-- The texts of decimals. -/
inductive DecimalText : List Char → Decimal → Prop where
  | whole {digits ending : List Char} {e : Int} : IsDigits digits → ExponentText ending e →
    DecimalText (digits ++ ending) ⟨digitsValue digits, e⟩
  | point {whole fraction ending : List Char} {e : Int} : IsDigits (whole ++ fraction) →
    ExponentText ending e →
    DecimalText (whole ++ '.' :: (fraction ++ ending))
      ⟨digitsValue (whole ++ fraction), e - fraction.length⟩

theorem ExponentText.head_not (h : ExponentText cs e) :
    ∀ c ∈ cs.head?, c.isDigit = false ∧ c ≠ '.' := by
  intro c hc
  rcases h.head c hc with rfl | rfl <;> decide

theorem decimal?_of_decimalText (h : DecimalText cs d) : decimal? cs = some d := by
  cases h with
  | whole hdigits hending =>
    rw [decimal?_of_whole hdigits.1 hdigits.2 hending.head_not, exponent?_eq_some_iff.2 hending]
    rfl
  | @point whole fraction ending e hdigits hending =>
    have hwhole : ∀ c ∈ whole, c.isDigit = true := fun c hc =>
      hdigits.2 c (List.mem_append_left _ hc)
    have hfraction : ∀ c ∈ fraction, c.isDigit = true := fun c hc =>
      hdigits.2 c (List.mem_append_right _ hc)
    rw [decimal?_of_fraction hdigits.1 hwhole hfraction fun c hc => (hending.head_not c hc).1,
      exponent?_eq_some_iff.2 hending]
    rfl

theorem spanDigits_spec (cs : List Char) :
    (spanDigits cs).1 ++ (spanDigits cs).2 = cs ∧ ∀ c ∈ (spanDigits cs).1, c.isDigit = true :=
  ⟨List.takeWhile_append_dropWhile, fun _ hc => List.mem_takeWhile_imp hc⟩

theorem decimalText_of_decimal? (h : decimal? cs = some d) : DecimalText cs d := by
  obtain ⟨hcs, hwhole⟩ := spanDigits_spec cs
  unfold decimal? at h
  rw [← hcs]
  generalize spanDigits cs = parts at h hwhole
  obtain ⟨whole, rest⟩ := parts
  dsimp only at h hwhole ⊢
  split at h
  · next behind =>
    obtain ⟨hbehind, hfraction⟩ := spanDigits_spec behind
    rw [← hbehind]
    split_ifs at h with hnone
    obtain ⟨e, he, rfl⟩ := Option.map_eq_some_iff.1 h
    have hdigits : IsDigits (whole ++ (spanDigits behind).1) :=
      ⟨fun hnil => hnone (List.append_eq_nil_iff.1 hnil),
        Decimal.isDigit_of_mem_append hwhole hfraction⟩
    exact .point hdigits (exponent?_eq_some_iff.1 he)
  · split_ifs at h with hnone
    obtain ⟨e, he, rfl⟩ := Option.map_eq_some_iff.1 h
    have hdigits : IsDigits whole := ⟨fun hnil => hnone ⟨hnil, rfl⟩, hwhole⟩
    simpa [digitsValue] using DecimalText.whole hdigits (exponent?_eq_some_iff.1 he)

theorem decimal?_eq_some_iff : decimal? cs = some d ↔ DecimalText cs d :=
  ⟨decimalText_of_decimal?, decimal?_of_decimalText⟩

/-! ## Numbers -/

/-- The words for what is no finite number. -/
def nonFiniteWords : List String := ["inf", "infinity", "nan"]

/-- The texts without a sign that are read as no finite number: words, in any letter case, and the
decimals from halfway between the largest finite number and the next power of two on. -/
inductive Unbounded : List Char → Prop where
  | word {cs : List Char} {word : String} : word ∈ nonFiniteWords → lower cs = word.toList →
    Unbounded cs
  | decimal {cs : List Char} {d : Decimal} : DecimalText cs d →
    (2 ^ 1024 - 2 ^ 970 : ℚ) ≤ d.value → Unbounded cs

/-- The texts without a sign that are read as finite numbers. -/
def Bounded (cs : List Char) : Prop :=
  ∃ d, DecimalText cs d ∧ d.value < (2 ^ 1024 - 2 ^ 970 : ℚ)

/-- Texts of some kind behind a sign or none. -/
inductive Signed (p : List Char → Prop) : List Char → Prop where
  | unsigned {cs : List Char} : p cs → Signed p cs
  | positive {cs : List Char} : p cs → Signed p ('+' :: cs)
  | negative {cs : List Char} : p cs → Signed p ('-' :: cs)

theorem isWord_of_mem : ∀ word ∈ nonFiniteWords, Expression.IsWord word := by
  decide

theorem isAlpha_of_isDigit {c : Char} (h : c.isDigit = true) : c.isAlpha = false := by
  delta Char.isDigit at h
  delta Char.isAlpha Char.isUpper Char.isLower
  grind

theorem DecimalText.exists_cons (h : DecimalText cs d) :
    ∃ c rest, cs = c :: rest ∧ (c.isDigit = true ∨ c = '.') := by
  cases h with
  | whole hdigits _ =>
    obtain ⟨c, rest, rfl, hc⟩ := hdigits.exists_cons
    exact ⟨c, _, rfl, Or.inl hc⟩
  | @point whole fraction ending e hdigits _ =>
    cases whole with
    | nil => exact ⟨'.', _, rfl, Or.inr rfl⟩
    | cons c whole => exact ⟨c, _, rfl, Or.inl (hdigits.2 c List.mem_cons_self)⟩

theorem decimal?_of_isAlpha {c : Char} (hc : c.isAlpha = true) (rest : List Char) :
    decimal? (c :: rest) = none := by
  refine Option.eq_none_iff_forall_ne_some.2 fun d hd => ?_
  obtain ⟨_, _, heq, hhead⟩ := (decimal?_eq_some_iff.1 hd).exists_cons
  cases heq
  rcases hhead with hdigit | rfl
  · rw [isAlpha_of_isDigit hdigit] at hc
    cases hc
  · exact absurd hc (by decide)

theorem decimal?_of_word {word : String} (hword : word ∈ nonFiniteWords)
    (h : lower cs = word.toList) : decimal? cs = none := by
  obtain ⟨c, rest, rfl, hc⟩ := Expression.exists_letter_of_lower h (isWord_of_mem word hword)
  exact decimal?_of_isAlpha hc rest

theorem toBinary64_nonFinite_iff {negative : Bool} :
    (d.toBinary64 negative).isFinite = false ↔ (2 ^ 1024 - 2 ^ 970 : ℚ) ≤ d.value := by
  rw [← Decimal.magnitude?_eq_none_iff]
  unfold Decimal.toBinary64
  cases d.magnitude? <;> simp [Binary64.isFinite]

theorem ofList_eq_iff {word : String} : String.ofList cs = word ↔ cs = word.toList := by
  rw [← String.toList_inj, String.toList_ofList]

theorem unsigned?_nonFinite_iff (negative : Bool) :
    (∃ x, unsigned? negative cs = some x ∧ x.isFinite = false) ↔ Unbounded cs := by
  unfold unsigned?
  cases hd : decimal? cs with
  | some d =>
    simp only [Option.some.injEq, exists_eq_left', toBinary64_nonFinite_iff]
    constructor
    · exact .decimal (decimal?_eq_some_iff.1 hd)
    · rintro (⟨hword, hlower⟩ | ⟨hd', hvalue⟩)
      · rw [decimal?_of_word hword hlower] at hd
        cases hd
      · rw [decimal?_eq_some_iff.2 hd', Option.some.injEq] at hd
        exact hd ▸ hvalue
  | none =>
    simp only [ofList_eq_iff]
    constructor
    · rintro ⟨x, hx, -⟩
      split_ifs at hx with hinf hnan
      · rcases hinf with h | h
        · exact .word (by decide) h
        · exact .word (by decide) h
      · exact .word (by decide) hnan
    · rintro (⟨hword, hlower⟩ | ⟨hd', -⟩)
      · rw [hlower]
        simp only [nonFiniteWords, List.mem_cons, List.not_mem_nil, or_false] at hword
        rcases hword with rfl | rfl | rfl
        · exact ⟨_, if_pos (Or.inl rfl), rfl⟩
        · exact ⟨_, if_pos (Or.inr rfl), rfl⟩
        · exact ⟨.nan, rfl, rfl⟩
      · rw [decimal?_eq_some_iff.2 hd'] at hd
        cases hd

theorem unsigned?_finite_iff (negative : Bool) :
    (∃ x, unsigned? negative cs = some x ∧ x.isFinite = true) ↔ Bounded cs := by
  unfold unsigned? Bounded
  simp only [← decimal?_eq_some_iff]
  cases hd : decimal? cs with
  | some d =>
    simp only [Option.some.injEq, exists_eq_left']
    rw [← not_le, ← toBinary64_nonFinite_iff, Bool.not_eq_false]
  | none =>
    refine iff_of_false ?_ (by simp)
    rintro ⟨x, hx, hfinite⟩
    dsimp only at hx
    split_ifs at hx <;> cases hx <;> cases hfinite

theorem exists_cons_of_unsigned? {negative : Bool} {x : Binary64}
    (h : unsigned? negative cs = some x) :
    ∃ c rest, cs = c :: rest ∧ (c.isAlpha = true ∨ c.isDigit = true ∨ c = '.') := by
  have hcases : Unbounded cs ∨ Bounded cs := by
    cases hx : x.isFinite with
    | false => exact Or.inl ((unsigned?_nonFinite_iff negative).1 ⟨x, h, hx⟩)
    | true => exact Or.inr ((unsigned?_finite_iff negative).1 ⟨x, h, hx⟩)
  rcases hcases with (⟨hword, hlower⟩ | ⟨hd, -⟩) | ⟨d, hd, -⟩
  · obtain ⟨c, rest, rfl, hc⟩ :=
      Expression.exists_letter_of_lower hlower (isWord_of_mem _ hword)
    exact ⟨c, rest, rfl, Or.inl hc⟩
  · obtain ⟨c, rest, rfl, hc⟩ := hd.exists_cons
    exact ⟨c, rest, rfl, Or.inr hc⟩
  · obtain ⟨c, rest, rfl, hc⟩ := hd.exists_cons
    exact ⟨c, rest, rfl, Or.inr hc⟩

theorem unsigned?_of_head {c : Char} (h : c = '+' ∨ c = '-' ∨ c = '\'') (negative : Bool)
    (rest : List Char) : unsigned? negative (c :: rest) = none := by
  refine Option.eq_none_iff_forall_ne_some.2 fun x hx => ?_
  obtain ⟨_, _, heq, hc⟩ := exists_cons_of_unsigned? hx
  cases heq
  rcases h with rfl | rfl | rfl <;> exact absurd hc (by decide)

/-- What holds of the numbers that texts without a sign are read as holds with a sign as well. -/
theorem read?_iff {p : List Char → Prop} {q : Binary64 → Prop}
    (h : ∀ negative cs, (∃ x, unsigned? negative cs = some x ∧ q x) ↔ p cs) :
    (∃ x, read? cs = some x ∧ q x) ↔ Signed p cs := by
  have hsign : ∀ sign rest, sign = '+' ∨ sign = '-' → ¬ p (sign :: rest) := by
    intro sign rest hsign hp
    obtain ⟨x, hx, -⟩ := (h false _).2 hp
    rw [unsigned?_of_head (by tauto)] at hx
    cases hx
  unfold read?
  split
  · next rest =>
    rw [h]
    constructor
    · exact .negative
    · rintro (hp | _ | hp)
      · exact absurd hp (hsign _ _ (Or.inr rfl))
      · exact hp
  · next rest =>
    rw [h]
    constructor
    · exact .positive
    · rintro (hp | hp | _)
      · exact absurd hp (hsign _ _ (Or.inl rfl))
      · exact hp
  · next hminus hplus =>
    rw [h]
    constructor
    · exact .unsigned
    · rintro (hp | hp | hp)
      · exact hp
      · exact absurd rfl (hplus _)
      · exact absurd rfl (hminus _)

/-- A text is read as a number that is not finite if and only if it is a word for one, or a decimal
beyond the largest finite number, behind a sign or none. -/
theorem read?_nonFinite_iff :
    (∃ x, read? cs = some x ∧ x.isFinite = false) ↔ Signed Unbounded cs :=
  read?_iff fun negative _ => unsigned?_nonFinite_iff negative

/-- A text is read as a finite number if and only if it is a decimal within the range of these,
behind a sign or none. -/
theorem read?_finite_iff : (∃ x, read? cs = some x ∧ x.isFinite = true) ↔ Signed Bounded cs :=
  read?_iff fun negative _ => unsigned?_finite_iff negative

theorem read?_of_word {word : String} (h : lower cs = word.toList) (hword : Expression.IsWord word)
    (hother : word ∉ nonFiniteWords) : read? cs = none := by
  obtain ⟨c, rest, rfl, hc⟩ := Expression.exists_letter_of_lower h hword
  have hunsigned : unsigned? false (c :: rest) = none := by
    have hwords : ∀ other ∈ nonFiniteWords, lower (c :: rest) ≠ other.toList := by
      rintro other hmem hlower
      rw [h, String.toList_inj] at hlower
      exact hother (hlower ▸ hmem)
    have hinf := hwords "inf" (by decide)
    have hinfinity := hwords "infinity" (by decide)
    have hnan := hwords "nan" (by decide)
    simp only [unsigned?, decimal?_of_isAlpha hc, ofList_eq_iff, hinf, hinfinity, hnan, or_self,
      if_false]
  have halphanum : c.isAlphanum = true := by simp [Char.isAlphanum, hc]
  obtain ⟨hminus, hplus⟩ := ne_sign_of_isAlphanum halphanum
  simpa [read?, hminus, hplus] using hunsigned

theorem read?_of_quote (rest : List Char) : read? ('\'' :: rest) = none :=
  unsigned?_of_head (Or.inr (Or.inr rfl)) false rest

end MetricLayer.Numeral
