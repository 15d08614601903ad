import MetricLayer.Number.Numeral
import MetricLayer.Schema.Filter
import MetricLayer.Expression.AggregateCall

/-!
# Conditions

The one shape of SQL text that is read as a filter: a placeholder, an operator, and what the
operator compares the member with.
-/

namespace MetricLayer.Expression

open Schema

/-- A filter that was read: its member, its operator and the literals. -/
structure Condition where
  member : String
  operator : Operator
  values : List Literal
  deriving DecidableEq, Repr

/-- Why a text is not read as a condition. -/
inductive ConditionError where
  | unsupported (sql : String) (reason : String)
  | invalidLiteral (text : String)
  deriving DecidableEq, Repr

namespace ConditionError

def message : ConditionError → String
  | unsupported sql reason => "unsupported filter expression '" ++ sql ++ "': " ++ reason
  | invalidLiteral text => "invalid literal '" ++ text ++ "'"

end ConditionError

/-! ## Operators -/

/-- An operator written with symbols, or words that may be in any letter case. -/
inductive OperatorText where
  | symbol (text : String) (operator : Operator)
  | words (text : List String) (operator : Operator)

/-- The spellings of operators in the order in which they are tried. -/
def operatorTexts : List OperatorText :=
  [.symbol ">=" .gte, .symbol "<=" .lte, .symbol "<>" .notEquals, .symbol "!=" .notEquals,
    .symbol "==" .equals, .symbol "=" .equals, .symbol ">" .gt, .symbol "<" .lt,
    .words ["is", "not", "null"] .isNotNull, .words ["is", "null"] .isNull,
    .words ["not", "in"] .notIn, .words ["in"] .isIn]

/-- What follows words with blanks between them. -/
def dropWords? : List String → List Char → Option (List Char)
  | [], cs => some cs
  | [w], cs => dropWord? w.toList cs
  | w :: ws, cs => ((dropWord? w.toList cs).bind dropBlanks1?).bind (dropWords? ws)

namespace OperatorText

/-- What follows an operator at the beginning of a text. -/
def drop? : OperatorText → List Char → Option (List Char)
  | symbol text _, cs => if text.toList.isPrefixOf cs then some (cs.drop text.length) else none
  | words ws _, cs => dropWords? ws cs

/-- The operator of a spelling, given the text it was read from; a word with a long s is none. -/
def operator? : OperatorText → List Char → Option Operator
  | symbol _ op, _ => some op
  | words _ op, spelled => if '\u017f' ∈ spelled then none else some op

end OperatorText

/-- The first spelling that a text begins with, what it was read from, and what follows. -/
def operatorText? (cs : List Char) : Option (OperatorText × List Char × List Char) :=
  operatorTexts.findSome? fun t =>
    (t.drop? cs).map fun rest => (t, cs.take (cs.length - rest.length), rest)

/-! ## Literals -/

/-- What stands between two characters at the ends of a text. -/
def between? (first last : Char) (cs : List Char) : Option (List Char) :=
  match cs with
  | c :: rest =>
    if c = first ∧ rest.getLast? = some last then some rest.dropLast else none
  | [] => none

/-- A literal: a SQL string, a truth value in any letter case, or a number. -/
def literal (cs : List Char) : Except ConditionError Literal :=
  let cs := Text.trim cs
  match between? '\'' '\'' cs with
  | some inner => .ok (.string (String.ofList (Literal.halveQuotes inner)))
  | none =>
    let word := String.ofList (Numeral.lower cs)
    if word = "true" then .ok (.bool true)
    else if word = "false" then .ok (.bool false)
    else
      match Numeral.read? cs with
      | some x => .ok (.number x)
      | none => .error (.invalidLiteral (String.ofList cs))

/-- The pieces of a text between commas that do not stand between single quotes. -/
def splitCommas (quoted : Bool) : List Char → List Char × List (List Char)
  | [] => ([], [])
  | c :: cs =>
    let (piece, more) := splitCommas (if c = '\'' then !quoted else quoted) cs
    if c = ',' ∧ ¬ quoted then ([], piece :: more) else (c :: piece, more)

/-- The items of a list of values; a blank text has none. -/
def listItems (cs : List Char) : List (List Char) :=
  let (piece, more) := splitCommas false cs
  if more.isEmpty && Text.allBlank piece then [] else piece :: more

/-- The literals that an operator compares with, read from the text after it. -/
def operands (sql : String) (op : Operator) (rest : List Char) :
    Except ConditionError (List Literal) :=
  if op.isNullCheck then
    if rest.isEmpty then .ok [] else .error (.unsupported sql "unexpected text after null check")
  else if op.isSetMembership then
    match between? '(' ')' rest with
    | some inner => (listItems inner).mapM literal
    | none => .error (.unsupported sql "expected a parenthesised value list")
  else do
    return [← literal rest]

/-! ## Conditions -/

/-- A member path in a condition: a letter or underscore, then letters, digits, underscores and
dots. -/
def looseMember? : List Char → Option (List Char × List Char)
  | [] => none
  | c :: cs =>
    if isNameStart c then
      some
        (c :: cs.takeWhile fun d => isNameChar d || d = '.',
          cs.dropWhile fun d => isNameChar d || d = '.')
    else none

/-- The member of the placeholder that a text begins with, and what follows it. -/
def conditionMember? (cs : List Char) : Option (List Char × List Char) :=
  match Text.dropBlanks cs with
  | '$' :: '\x7b' :: cs =>
    match looseMember? (Text.dropBlanks cs) with
    | some (member, rest) =>
      match Text.dropBlanks rest with
      | '\x7d' :: after => some (member, after)
      | _ => none
    | none => none
  | _ => none

/-- The parts of a condition: the member, the operator's spelling and the text it was read from, and
the rest without blanks at its ends, which must stay on one line. -/
def conditionParts? (cs : List Char) :
    Option (List Char × OperatorText × List Char × List Char) := do
  let (member, rest) ← conditionMember? cs
  let (spelling, spelled, rest) ← operatorText? (Text.dropBlanks rest)
  let rest := Text.trim rest
  if '\n' ∈ rest then none else some (member, spelling, spelled, rest)

/-- Reads a SQL text of an entity as a condition. -/
def readCondition (entity sql : String) : Except ConditionError Condition :=
  match conditionParts? sql.toList with
  | none => .error (.unsupported sql "expected `$\x7bmember\x7d <operator> <value>`")
  | some (member, spelling, spelled, rest) =>
    match spelling.operator? spelled with
    | none => .error (.unsupported sql "unknown operator")
    | some op => do
      let values ← operands sql op rest
      return ⟨String.ofList (normalize entity.toList member), op, values⟩

end MetricLayer.Expression
