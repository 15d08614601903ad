import MetricLayer.Text.Blank
import MetricLayer.Text.Path

/-!
# Placeholders

A SQL text refers to members by placeholders: a dollar sign and braces around a dotted path of
identifiers, with blanks allowed inside the braces. Everything else in the text is left alone. The
entity that owns the text may be called `CUBE` or `TABLE` in a path, and the alias alone stands for
its table and not for a member.
-/

namespace MetricLayer.Expression

/-- The characters an identifier may begin with. -/
def isNameStart (c : Char) : Bool := c.isAlpha || c = '_'

/-- The characters an identifier may go on with. -/
def isNameChar (c : Char) : Bool := c.isAlphanum || c = '_'

/-- The other names of the entity that owns a text. -/
def ownAliases : List (List Char) := ["CUBE".toList, "TABLE".toList]

/-- The leading identifier of a text, as long as possible, and what follows it. -/
def identifier? : List Char → Option (List Char × List Char)
  | [] => none
  | c :: cs =>
    if isNameStart c then some (c :: cs.takeWhile isNameChar, cs.dropWhile isNameChar) else none

theorem length_dropWhile_le {α : Type} (p : α → Bool) (xs : List α) :
    (xs.dropWhile p).length ≤ xs.length := by
  induction xs with
  | nil => simp
  | cons x xs ih => by_cases h : p x <;> simp [List.dropWhile, h]; omega

theorem length_lt_of_identifier? {cs name rest : List Char}
    (h : identifier? cs = some (name, rest)) : rest.length < cs.length := by
  cases cs with
  | nil => simp [identifier?] at h
  | cons c cs =>
    simp only [identifier?] at h
    split at h
    · obtain ⟨_, rfl⟩ := Prod.mk.inj (Option.some.inj h)
      exact Nat.lt_succ_of_le (length_dropWhile_le _ _)
    · simp at h

/-- The further identifiers of a dotted path, each with its dot in front, and what follows. -/
def moreIdentifiers (cs : List Char) : List Char × List Char :=
  match cs with
  | '.' :: tail =>
    match _h : identifier? tail with
    | some (name, rest) =>
      let (more, after) := moreIdentifiers rest
      ('.' :: (name ++ more), after)
    | none => ([], '.' :: tail)
  | other => ([], other)
termination_by cs.length
decreasing_by
  have := length_lt_of_identifier? _h
  simp only [List.length_cons]
  omega

/-- The leading dotted path of identifiers of a text and what follows it. -/
def dottedPath? (cs : List Char) : Option (List Char × List Char) :=
  (identifier? cs).map fun (name, rest) =>
    let (more, after) := moreIdentifiers rest
    (name ++ more, after)

/-- The path inside a placeholder whose dollar sign and opening brace are gone, and what follows its
closing brace. -/
def placeholderBody? (cs : List Char) : Option (List Char × List Char) :=
  match dottedPath? (Text.dropBlanks cs) with
  | some (path, rest) =>
    match Text.dropBlanks rest with
    | '\x7d' :: after => some (path, after)
    | _ => none
  | none => none

/-- The placeholder at the beginning of a text: its path, and what follows it. -/
def placeholder? : List Char → Option (List Char × List Char)
  | '$' :: '\x7b' :: cs => placeholderBody? cs
  | _ => none

/-- The paths of all placeholders of a text, from left to right and with repetitions. The first
argument counts the characters that the placeholder before still covers. -/
def placeholdersAfter : Nat → List Char → List (List Char)
  | _, [] => []
  | skip + 1, _ :: cs => placeholdersAfter skip cs
  | 0, c :: cs =>
    match placeholder? (c :: cs) with
    | some (path, after) => path :: placeholdersAfter (cs.length - after.length) cs
    | none => placeholdersAfter 0 cs

/-- The paths of all placeholders of a text, from left to right and with repetitions. -/
def placeholders (cs : List Char) : List (List Char) := placeholdersAfter 0 cs

/-- A path with an alias of the owning entity at its head replaced by the entity's name. -/
def normalize (entity : List Char) (path : List Char) : List Char :=
  let head := path.takeWhile (· ≠ '.')
  match path.dropWhile (· ≠ '.') with
  | '.' :: rest => if head ∈ ownAliases then entity ++ '.' :: rest else path
  | _ => path

/-- A list without the repetitions of earlier items. -/
def dropRepeats {α : Type} [DecidableEq α] (xs : List α) : List α :=
  xs.foldl (fun seen x => if x ∈ seen then seen else seen ++ [x]) []

/-- The member paths that a text of an entity refers to, in the order they are first seen. -/
def references (entity sql : String) : List String :=
  dropRepeats
    (((placeholders sql.toList).filter (· ∉ ownAliases)).map fun path =>
      String.ofList (normalize entity.toList path))

/-- A path with an alias of the owning entity at its head replaced by the entity's name. -/
def normalizePath (entity path : String) : String :=
  String.ofList (normalize entity.toList path.toList)

end MetricLayer.Expression
