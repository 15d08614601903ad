/-!
# Dotted paths

A member path such as `Users.Orders.count` names entities on the way and a member at its end. Every
text is such a path: a text without a dot names a member alone.
-/

namespace MetricLayer

/-- A dotted path: the segments before the last, and the last. -/
structure Path where
  entities : List String
  member : String
  deriving DecidableEq, Repr

namespace Path

/-- The pieces of a text between dots: those before the last, and the last. -/
def split : List Char → List (List Char) × List Char
  | [] => ([], [])
  | c :: cs =>
    match split cs with
    | (before, last) =>
      if c = '.' then ([] :: before, last)
      else
        match before with
        | [] => ([], c :: last)
        | segment :: rest => ((c :: segment) :: rest, last)

/-- Reads a text as a path. -/
def ofText (text : String) : Path :=
  match split text.toList with
  | (before, last) => ⟨before.map String.ofList, String.ofList last⟩

/-- All segments, the member last. -/
def segments (p : Path) : List String := p.entities ++ [p.member]

/-- The path as written: its segments with dots between them. -/
def text (p : Path) : String := ".".intercalate p.segments

/-- The first segment of a path of two or more. -/
def root? (p : Path) : Option String := p.entities.head?

/-- The text of a member of an entity, `Entity.member`. -/
def qualified (entity member : String) : String := entity ++ "." ++ member

end Path

end MetricLayer
