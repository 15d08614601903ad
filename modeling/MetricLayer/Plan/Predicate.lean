import MetricLayer.Reference.Basic

/-!
# Predicates

A filter whose operand was resolved: what it compares, with which literals, and whether it restricts
rows before aggregation or values after it.
-/

namespace MetricLayer

open Schema

/-- Where a predicate is applied. -/
inductive Placement where
  /-- To rows, before aggregation. -/
  | row
  /-- To aggregated values. -/
  | aggregate
  deriving DecidableEq, Repr

namespace Placement

def name : Placement → String
  | row => "row"
  | aggregate => "aggregate"

/-- A predicate on a measure reads aggregated values, any other reads rows. -/
def ofOperand (operand : Reference) : Placement := if operand.isMeasure then aggregate else row

end Placement

/-- Who asked for a predicate. -/
inductive Origin where
  /-- The measure of a name. -/
  | measure (name : String)
  /-- The request. -/
  | request
  deriving DecidableEq, Repr

/-- A compiled filter. -/
structure Predicate where
  operand : Reference
  operator : Operator
  values : List Literal
  placement : Placement
  origin : Origin
  deriving DecidableEq, Repr

namespace Origin

def toJson : Origin → Json
  | measure name => .object [("source", .string "measure"), ("measure", .string name)]
  | request => .object [("source", .string "request")]

end Origin

namespace Predicate

/-- The predicate as a call of its operator, such as `equals(Users.Orders.count, 0)`. -/
def text (p : Predicate) : String :=
  p.operator.name ++ "(" ++ ", ".intercalate (p.operand.path :: p.values.map Literal.text) ++ ")"

def toJson (p : Predicate) : Json :=
  .object
    [("operand", p.operand.toJson), ("operator", .string p.operator.name),
      ("values", .array (p.values.map Literal.toJson)), ("placement", .string p.placement.name),
      ("origin", p.origin.toJson)]

end Predicate

end MetricLayer
