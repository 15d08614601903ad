/-!
# Blank characters

Which characters count as white space between the parts of a text, and the operations that only
look at them: dropping blanks at either end and splitting a text into its words.
-/

namespace MetricLayer.Text

/-- A character is blank when Unicode gives it the property White_Space. -/
def isBlank (c : Char) : Bool :=
  let n := c.toNat
  (9 ≤ n && n ≤ 13) || n = 0x20 || n = 0x85 || n = 0xA0 || n = 0x1680 ||
    (0x2000 ≤ n && n ≤ 0x200A) || n = 0x2028 || n = 0x2029 || n = 0x202F || n = 0x205F ||
    n = 0x3000

/-- A text without its leading blanks. -/
def dropBlanks (cs : List Char) : List Char := cs.dropWhile isBlank

/-- A text without its trailing blanks. -/
def dropTrailingBlanks : List Char → List Char
  | [] => []
  | c :: cs =>
    match dropTrailingBlanks cs with
    | [] => if isBlank c then [] else [c]
    | rest => c :: rest

/-- A text without the blanks at its two ends. -/
def trim (cs : List Char) : List Char := dropTrailingBlanks (dropBlanks cs)

/-- Whether a text holds nothing but blanks. -/
def allBlank (cs : List Char) : Bool := cs.all isBlank

/-- The first word of a text, and the words after it; the first is empty if a blank comes first. -/
def splitWords : List Char → List Char × List (List Char)
  | [] => ([], [])
  | c :: cs =>
    let (first, rest) := splitWords cs
    if isBlank c then ([], if first.isEmpty then rest else first :: rest) else (c :: first, rest)

/-- The maximal runs of characters that are not blank, in order. -/
def words (cs : List Char) : List (List Char) :=
  let (first, rest) := splitWords cs
  if first.isEmpty then rest else first :: rest

/-! ## Laws -/

theorem dropTrailingBlanks_eq_nil {cs : List Char} :
    dropTrailingBlanks cs = [] ↔ allBlank cs = true := by
  induction cs with
  | nil => simp [dropTrailingBlanks, allBlank]
  | cons c cs ih =>
    cases h : dropTrailingBlanks cs with
    | nil =>
      have hcs := ih.1 h
      by_cases hc : isBlank c = true <;> simp_all [dropTrailingBlanks, allBlank]
    | cons d ds =>
      have : allBlank cs ≠ true := fun hb => by simp [ih.2 hb] at h
      simp_all [dropTrailingBlanks, allBlank]

/-- Nothing but trailing blanks is dropped at the end. -/
theorem exists_blanks_dropTrailingBlanks (cs : List Char) :
    ∃ blanks, allBlank blanks = true ∧ cs = dropTrailingBlanks cs ++ blanks := by
  induction cs with
  | nil => exact ⟨[], rfl, rfl⟩
  | cons c cs ih =>
    obtain ⟨blanks, hb, hcs⟩ := ih
    cases h : dropTrailingBlanks cs with
    | nil =>
      by_cases hc : isBlank c = true
      · exact ⟨c :: cs, by simp_all [allBlank], by simp [dropTrailingBlanks, h, hc]⟩
      · exact ⟨cs, dropTrailingBlanks_eq_nil.1 h, by simp [dropTrailingBlanks, h, hc]⟩
    | cons d ds =>
      refine ⟨blanks, hb, ?_⟩
      rw [h] at hcs
      simpa [dropTrailingBlanks, h] using hcs

end MetricLayer.Text
