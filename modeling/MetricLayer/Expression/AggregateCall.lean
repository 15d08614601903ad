import MetricLayer.Schema.Kind
import MetricLayer.Expression.Placeholder

/-!
# Single aggregate calls

Whether a whole SQL text is one call of an aggregate function, so that the text itself tells how the
measure is aggregated.
-/

namespace MetricLayer.Expression

open Schema

/-- Whether a character is a letter in either case; the long s counts as an s. -/
def isLetterOf (letter c : Char) : Bool := c.toLower = letter || (letter = 's' && c = '\u017f')

/-- What follows a word, which is given in lower case, at the beginning of a text. -/
def dropWord? : List Char → List Char → Option (List Char)
  | [], cs => some cs
  | w :: ws, c :: cs => if isLetterOf w c then dropWord? ws cs else none
  | _ :: _, [] => none

/-- What follows the blanks at the beginning of a text, if there are any. -/
def dropBlanks1? : List Char → Option (List Char)
  | c :: cs => if Text.isBlank c then some (Text.dropBlanks cs) else none
  | [] => none

/-- A function name, an opening parenthesis, and what follows it. -/
def callHead? (cs : List Char) : Option (String × List Char) :=
  let cs := Text.dropBlanks cs
  let name := cs.takeWhile fun c => c.isAlpha || c = '_'
  let rest := cs.dropWhile fun c => c.isAlpha || c = '_'
  if name.isEmpty then none
  else
    match Text.dropBlanks rest with
    | '(' :: rest => some (String.ofList name, rest)
    | _ => none

/-- Whether an argument list begins with the word `distinct` and a blank. -/
def beginsDistinct (cs : List Char) : Bool :=
  ((dropWord? "distinct".toList (Text.dropBlanks cs)).bind dropBlanks1?).isSome

/-- What follows the parenthesis that closes the given number of open ones; parentheses between
single quotes do not count. -/
def afterClosing? (quoted : Bool) (opened : Nat) : List Char → Option (List Char)
  | [] => none
  | c :: cs =>
    if c = '\'' then afterClosing? (!quoted) opened cs
    else if quoted then afterClosing? quoted opened cs
    else if c = '(' then afterClosing? quoted (opened + 1) cs
    else if c = ')' then if opened ≤ 1 then some cs else afterClosing? quoted (opened - 1) cs
    else afterClosing? quoted opened cs

/-- The aggregation of a text that is one call of an aggregate function and nothing else. -/
def topLevelAggregate? (sql : String) : Option Aggregation := do
  let (name, arguments) ← callHead? sql.toList
  let kind ← Aggregation.ofFunction? name (beginsDistinct arguments)
  let rest ← afterClosing? false 1 arguments
  if Text.allBlank rest then some kind else none

end MetricLayer.Expression
