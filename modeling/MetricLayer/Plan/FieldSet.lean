/-!
# Sets of fields

The fields that a plan reads, as a list in strictly ascending order, so that equal sets are equal
lists.
-/

namespace MetricLayer

/-- A list of names with a name in its place, once. -/
def insertSorted (name : String) : List String → List String
  | [] => [name]
  | x :: xs =>
    if name < x then name :: x :: xs
    else if name = x then x :: xs
    else x :: insertSorted name xs

theorem mem_insertSorted {name y : String} {xs : List String} :
    y ∈ insertSorted name xs ↔ y = name ∨ y ∈ xs := by
  induction xs with
  | nil => simp [insertSorted]
  | cons x xs ih =>
    simp only [insertSorted]
    split
    · simp
    · split
      · next h => subst h; simp
      · simp only [List.mem_cons, ih]
        exact or_left_comm

theorem pairwise_insertSorted {name : String} {xs : List String} (h : xs.Pairwise (· < ·)) :
    (insertSorted name xs).Pairwise (· < ·) := by
  induction xs with
  | nil => simp [insertSorted]
  | cons x xs ih =>
    obtain ⟨hx, hxs⟩ := List.pairwise_cons.1 h
    simp only [insertSorted]
    split
    · next hlt =>
      refine List.pairwise_cons.2 ⟨fun y hy => ?_, h⟩
      rcases List.mem_cons.1 hy with rfl | hy
      · exact hlt
      · exact String.lt_trans hlt (hx y hy)
    · split
      · exact h
      · next hle hne =>
        refine List.pairwise_cons.2 ⟨fun y hy => ?_, ih hxs⟩
        rcases mem_insertSorted.1 hy with rfl | hy
        · exact Std.lt_of_le_of_ne (String.not_lt.1 hle) (Ne.symm hne)
        · exact hx y hy

/-- A set of qualified fields. -/
structure FieldSet where
  toList : List String
  sorted : toList.Pairwise (· < ·)
  deriving DecidableEq

namespace FieldSet

/-- The set without fields. -/
def empty : FieldSet := ⟨[], List.Pairwise.nil⟩

/-- The set with a field. -/
def insert (s : FieldSet) (name : String) : FieldSet :=
  ⟨insertSorted name s.toList, pairwise_insertSorted s.sorted⟩

/-- The set with the fields of a list. -/
def insertAll (s : FieldSet) (names : List String) : FieldSet := names.foldl insert s

instance : Membership String FieldSet := ⟨fun s name => name ∈ s.toList⟩

@[simp] theorem not_mem_empty {name : String} : ¬ name ∈ empty := by
  intro h
  exact absurd h (List.not_mem_nil (a := name))

@[simp] theorem mem_insert {s : FieldSet} {name y : String} :
    y ∈ s.insert name ↔ y = name ∨ y ∈ s :=
  mem_insertSorted

theorem mem_insertAll {s : FieldSet} {names : List String} {y : String} :
    y ∈ s.insertAll names ↔ y ∈ names ∨ y ∈ s := by
  induction names generalizing s with
  | nil => simp [insertAll]
  | cons name names ih =>
    have : s.insertAll (name :: names) = (s.insert name).insertAll names := rfl
    rw [this, ih, mem_insert, List.mem_cons]
    constructor
    · rintro (h | h | h)
      · exact Or.inl (Or.inr h)
      · exact Or.inl (Or.inl h)
      · exact Or.inr h
    · rintro ((h | h) | h)
      · exact Or.inr (Or.inl h)
      · exact Or.inl h
      · exact Or.inr (Or.inr h)

end FieldSet

end MetricLayer
