/-!
# Lists with an item struck out

A search that enters no place twice keeps the places it has not entered; entering one strikes it
out, and what is left is shorter. That is why such a search ends.
-/

namespace MetricLayer

variable {α : Type} [DecidableEq α]

/-- A list without any occurrence of an item. -/
def strike (x : α) (xs : List α) : List α := xs.filter (· ≠ x)

theorem mem_strike {x y : α} {xs : List α} : y ∈ strike x xs ↔ y ∈ xs ∧ y ≠ x := by
  simp [strike]

theorem length_strike_lt {x : α} {xs : List α} (h : x ∈ xs) :
    (strike x xs).length < xs.length :=
  List.length_filter_lt_length_iff_exists.2 ⟨x, h, by simp⟩

/-- The items of a list from the first occurrence of one on, with that one again at the end. -/
def loopFrom (x : α) (xs : List α) : List α := xs.dropWhile (· ≠ x) ++ [x]

end MetricLayer
