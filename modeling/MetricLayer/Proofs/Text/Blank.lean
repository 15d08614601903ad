import MetricLayer.Text.Blank
import Mathlib.Data.List.Basic
import Mathlib.Data.List.TakeWhile

/-!
# Trimming

What stands in front of a boundary is taken, or dropped, up to it (`takeWhile_append_of_head`,
`dropWhile_append_of_head`). A text is what it is trimmed to, with blanks at its ends
(`exists_blanks_trim`). Blanks at the ends make no difference to what a text is trimmed to
(`trim_append`), and a text without any is trimmed to itself (`trim_eq_self`).
-/

namespace MetricLayer

/-! ## Up to a boundary -/

variable {α : Type} {p : α → Bool} {xs ys : List α}

theorem takeWhile_append_of_head (hxs : ∀ x ∈ xs, p x = true) (hys : ∀ y ∈ ys.head?, p y = false) :
    (xs ++ ys).takeWhile p = xs := by
  rw [List.takeWhile_append_of_pos hxs]
  cases ys with
  | nil => simp
  | cons y ys => simp [hys y rfl]

theorem dropWhile_append_of_head (hxs : ∀ x ∈ xs, p x = true) (hys : ∀ y ∈ ys.head?, p y = false) :
    (xs ++ ys).dropWhile p = ys := by
  rw [List.dropWhile_append_of_pos hxs]
  cases ys with
  | nil => rfl
  | cons y ys => simp [hys y rfl]

theorem forall_head?_append {P : α → Prop} (hxs : ∀ x ∈ xs.head?, P x)
    (hys : ∀ y ∈ ys.head?, P y) : ∀ z ∈ (xs ++ ys).head?, P z := by
  cases xs with
  | nil => exact hys
  | cons x xs => exact hxs

/-! ## Blanks at the ends -/

namespace Text

theorem dropBlanks_append {blanks cs : List Char} (hblanks : allBlank blanks = true)
    (h : ∀ c ∈ cs.head?, isBlank c = false) : dropBlanks (blanks ++ cs) = cs :=
  dropWhile_append_of_head (List.all_eq_true.1 hblanks) h

theorem exists_blanks_dropBlanks (cs : List Char) :
    ∃ blanks, allBlank blanks = true ∧ cs = blanks ++ dropBlanks cs :=
  ⟨cs.takeWhile isBlank, List.all_takeWhile, List.takeWhile_append_dropWhile.symm⟩

/-- A text is what it is trimmed to, with blanks at its ends. -/
theorem exists_blanks_trim (cs : List Char) :
    ∃ before after, allBlank before = true ∧ allBlank after = true ∧
      cs = before ++ (trim cs ++ after) := by
  obtain ⟨before, hbefore, hcs⟩ := exists_blanks_dropBlanks cs
  obtain ⟨after, hafter, hdrop⟩ := exists_blanks_dropTrailingBlanks (dropBlanks cs)
  exact ⟨before, after, hbefore, hafter, by rw [trim, ← hdrop]; exact hcs⟩

theorem dropTrailingBlanks_append (cs : List Char) {blanks : List Char}
    (h : allBlank blanks = true) : dropTrailingBlanks (cs ++ blanks) = dropTrailingBlanks cs := by
  induction cs with
  | nil => exact dropTrailingBlanks_eq_nil.2 h
  | cons c cs ih => rw [List.cons_append, dropTrailingBlanks, ih, dropTrailingBlanks]

/-- Blanks at the ends of a text make no difference to what it is trimmed to. -/
theorem trim_append {before after : List Char} (hbefore : allBlank before = true)
    (hafter : allBlank after = true) (cs : List Char) :
    trim (before ++ (cs ++ after)) = trim cs := by
  unfold trim dropBlanks
  rw [List.dropWhile_append_of_pos (List.all_eq_true.1 hbefore), List.dropWhile_append]
  split
  · next hempty =>
    rw [List.isEmpty_iff.1 hempty, List.dropWhile_eq_nil_iff.2 (List.all_eq_true.1 hafter)]
  · exact dropTrailingBlanks_append _ hafter

theorem dropTrailingBlanks_eq_self {cs : List Char}
    (h : ∀ c ∈ cs.getLast?, isBlank c = false) : dropTrailingBlanks cs = cs := by
  induction cs with
  | nil => rfl
  | cons c cs ih =>
    cases cs with
    | nil => simp [dropTrailingBlanks, h c rfl]
    | cons d cs =>
      rw [dropTrailingBlanks, ih fun x hx => h x (by rwa [List.getLast?_cons_cons])]

theorem trim_eq_self {cs : List Char} (hfirst : ∀ c ∈ cs.head?, isBlank c = false)
    (hlast : ∀ c ∈ cs.getLast?, isBlank c = false) : trim cs = cs := by
  have hdrop : dropBlanks ([] ++ cs) = cs := dropBlanks_append rfl hfirst
  rw [List.nil_append] at hdrop
  rw [trim, hdrop, dropTrailingBlanks_eq_self hlast]

end Text

end MetricLayer
