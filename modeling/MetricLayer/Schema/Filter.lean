import MetricLayer.Schema.Literal

/-!
# Filters

A filter restricts rows or aggregated values. It is authored either as SQL text or as a member, an
operator and the literals the operator takes.
-/

namespace MetricLayer.Schema

/-- What a filter asks of a member. -/
inductive Operator where
  | equals
  | notEquals
  | gt
  | gte
  | lt
  | lte
  | isIn
  | notIn
  | isNull
  | isNotNull
  deriving DecidableEq, Repr

namespace Operator

def all : List Operator :=
  [equals, notEquals, gt, gte, lt, lte, isIn, notIn, isNull, isNotNull]

def name : Operator → String
  | equals => "equals"
  | notEquals => "not_equals"
  | gt => "gt"
  | gte => "gte"
  | lt => "lt"
  | lte => "lte"
  | isIn => "in"
  | notIn => "not_in"
  | isNull => "is_null"
  | isNotNull => "is_not_null"

/-- The operators that need an order. -/
def isComparison : Operator → Bool
  | gt | gte | lt | lte => true
  | _ => false

/-- The operators that take a list of literals. -/
def isSetMembership : Operator → Bool
  | isIn | notIn => true
  | _ => false

/-- The operators that take no literal. -/
def isNullCheck : Operator → Bool
  | isNull | isNotNull => true
  | _ => false

/-- Whether an operator takes a number of literals: a null check none, a membership test one or
more, any other exactly one. -/
def takes (op : Operator) (count : Nat) : Bool :=
  if op.isNullCheck then count = 0
  else if op.isSetMembership then 0 < count
  else count = 1

end Operator

/-- A filter as authored. -/
inductive Filter where
  | sql (text : String)
  | member (path : String) (operator : Operator) (values : List Literal)
  deriving DecidableEq, Repr

namespace Filter

/-- Whether two lists of literals are the same constants in the same order. -/
def sameLiterals : List Literal → List Literal → Bool
  | [], [] => true
  | x :: xs, y :: ys => x.equals y && sameLiterals xs ys
  | _, _ => false

/-- Whether two filters are authored alike, numbers being compared as numbers. -/
def equals : Filter → Filter → Bool
  | sql s, sql t => s = t
  | member p op xs, member q oq ys => p = q && op = oq && sameLiterals xs ys
  | _, _ => false

end Filter

end MetricLayer.Schema
