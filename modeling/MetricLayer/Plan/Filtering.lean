import MetricLayer.Expression.Condition
import MetricLayer.Plan.Predicate
import MetricLayer.Reference.Resolve

/-!
# From filters to predicates

A filter becomes a predicate when its text can be read, its member can be resolved, and the operator
and its literals suit the member. A predicate on a measure is placed after aggregation, any other
before it.
-/

namespace MetricLayer

open Schema Expression

/-- Why an operator and its literals do not suit a member. -/
inductive Misuse where
  | arity (op : Operator) (count : Nat)
  | unordered (op : Operator) (valueType : ValueType)
  | wrongType (value : Literal) (valueType : ValueType)
  deriving DecidableEq, Repr

namespace Misuse

def message : Misuse → String
  | arity op count => s!"operator {op.name} does not take {count} value(s)"
  | unordered op valueType => s!"operator {op.name} cannot compare {valueType.name} values"
  | wrongType value valueType =>
    s!"{value.typeName} literal {value.text} does not match field type {valueType.name}"

end Misuse

/-- What is wrong with an operator and its literals on a member whose type may be unknown: first
their number, then whether the member has an order, then the first literal of another type. -/
def misuse? (valueType : Option ValueType) (op : Operator) (values : List Literal) :
    Option Misuse :=
  if !op.takes values.length then some (.arity op values.length)
  else
    match valueType with
    | none => none
    | some t =>
      if op.isComparison && !t.isOrdered then some (.unordered op t)
      else (values.find? fun v => !v.fits t).map fun v => .wrongType v t

/-- Whether an operator and its literals suit a resolved member. -/
def checkOperator (operand : Reference) (op : Operator) (values : List Literal) :
    Except Fault Unit :=
  match misuse? operand.valueType? op values with
  | some m => .error (.typeMismatch operand.path m.message)
  | none => .ok ()

/-- What a filter of an entity asks for. -/
def Schema.Filter.condition (entity : String) : Filter → Except Fault Condition
  | .sql text =>
    match readCondition entity text with
    | .ok c => .ok c
    | .error e => .error (.invalidExpression e.message)
  | .member path op values => .ok ⟨normalizePath entity path, op, values⟩

/-- Compiles a filter of an entity, as one that a request asks for. -/
def Registry.compileFilter (r : Registry) (rules : WalkRules) (entity : String) (f : Filter) :
    Except Fault Predicate := do
  let c ← f.condition entity
  let operand ← r.resolve rules entity c.member
  checkOperator operand c.operator c.values
  return { operand, operator := c.operator, values := c.values,
           placement := .ofOperand operand, origin := .request }

end MetricLayer
