import MetricLayer.Expression.AggregateCall
import MetricLayer.Plan.MeasureNode

/-!
# How a measure is aggregated

The operands of a measure are the fields its text refers to, measures among them already compiled.
From these and from the declared aggregation, if there is one, a compiled measure is put together or
refused.
-/

namespace MetricLayer

open Schema

/-- A field that the text of a measure refers to. -/
inductive Operand where
  | dimension (reference : Reference) (valueType : ValueType)
  | measure (reference : Reference) (source : MeasureNode)

namespace Operand

def reference : Operand → Reference
  | dimension r _ => r
  | measure r _ => r

def valueType : Operand → ValueType
  | dimension _ t => t
  | measure _ n => n.outputType

/-- The reference of a dimension. -/
def asDimension? : Operand → Option Reference
  | dimension r _ => some r
  | measure _ _ => none

/-- The reference of a measure, with the measure. -/
def asMeasure? : Operand → Option (Reference × MeasureNode)
  | measure r n => some (r, n)
  | dimension _ _ => none

end Operand

/-- The references of the dimensions among operands. -/
def dimensionsOf (operands : List Operand) : List Reference :=
  operands.filterMap Operand.asDimension?

/-- The measures among operands with their references. -/
def measuresOf (operands : List Operand) : List (Reference × MeasureNode) :=
  operands.filterMap Operand.asMeasure?

/-- Why operands cannot be aggregated. -/
inductive Conflict where
  /-- A sum or an average of something that is no number. -/
  | notNumeric (kind : Aggregation) (path : String) (found : ValueType)
  /-- An aggregate of aggregated values that cannot be aggregated again. -/
  | nested (kind inner : Aggregation) (path : String)
  /-- Nothing tells what to compute. -/
  | noExpression
  /-- Dimensions outside of an aggregate. -/
  | unaggregated (paths : List String)
  /-- Dimensions outside of an aggregate, beside a measure. -/
  | mixed (paths : List String) (measure : String)
  /-- Aggregated values that are repeated by a relationship and cannot be aggregated again. -/
  | fanout (kind : Aggregation) (path : String)
  deriving DecidableEq, Repr

namespace Conflict

def message : Conflict → String
  | notNumeric kind path found =>
    s!"{kind.name} requires numeric input, but '{path}' is {found.name}"
  | nested kind inner path =>
    s!"{kind.name} over {inner.name} measure '{path}' is a nested aggregation; " ++
      "declare type number to reuse it"
  | noExpression => "measure has neither sql nor a declared type"
  | unaggregated paths =>
    "row-level dimension '" ++ "', '".intercalate paths ++ "' is not aggregated"
  | mixed paths measure =>
    "mixes row-level dimension '" ++ "', '".intercalate paths ++
      s!"' with aggregated measure '{measure}' without an enclosing aggregate"
  | fanout kind path =>
    s!"{kind.name} measure '{path}' cannot be re-aggregated across a fan-out join; " ++
      "declare type number to reuse it"

end Conflict

namespace Aggregation

/-- The first operand that is no number where numbers are needed. -/
def numericConflict? (kind : Aggregation) (operands : List Operand) : Option Conflict :=
  if kind.requiresNumericInput then
    (operands.find? fun o => !o.valueType.isNumeric).map fun o =>
      .notNumeric kind o.reference.path o.valueType
  else none

/-- The first measure that an aggregate must not be applied to: only additive kinds go over
additive ones. -/
def nestedConflict? (kind : Aggregation) (measures : List (Reference × MeasureNode)) :
    Option Conflict :=
  (measures.find? fun m => !(kind.isAdditive && m.2.aggregation.isAdditive)).map fun m =>
    .nested kind m.2.aggregation m.1.path

/-- The first measure that a relationship repeats and that cannot be aggregated again. -/
def fanoutConflict? (measures : List (Reference × MeasureNode)) : Option Conflict :=
  (measures.find? fun m => m.1.fansOut && !m.2.aggregation.isAdditive).map fun m =>
    .fanout m.2.aggregation m.1.path

/-- The conflict of dimensions that stand outside of an aggregate, if there are any. -/
def rowConflict? (dimensions : List Reference) (measures : List (Reference × MeasureNode)) :
    Option Conflict :=
  if dimensions.isEmpty then none
  else
    let paths := dimensions.map Reference.path
    match measures with
    | [] => some (.unaggregated paths)
    | (r, _) :: _ => some (.mixed paths r.path)

/-- The kind that all of a list of measures share, or `custom`. -/
def common (measures : List (Reference × MeasureNode)) : Aggregation :=
  match (measures.map fun m => m.2.aggregation).eraseDups with
  | [kind] => kind
  | _ => .custom

/-- The aggregation of a measure that declares none: that of the aggregate call it consists of, or
the one that the measures it combines share. -/
def inferred (sql : Option String) (operands : List Operand) : Except Conflict Aggregation :=
  let measures := measuresOf operands
  match sql.bind Expression.topLevelAggregate? with
  | some kind =>
    match (nestedConflict? kind measures).or (numericConflict? kind operands) with
    | some conflict => .error conflict
    | none => .ok kind
  | none =>
    if sql.isNone then .error .noExpression
    else
      match (rowConflict? (dimensionsOf operands) measures).or (fanoutConflict? measures) with
      | some conflict => .error conflict
      | none => .ok (common measures)

end Aggregation

namespace Schema.Measure

/-- The aggregation of a measure over its operands; a declared one is checked but not doubted. -/
def aggregation (m : Measure) (operands : List Operand) : Except Conflict Aggregation :=
  match m.declared with
  | some kind =>
    match Aggregation.numericConflict? kind operands with
    | some conflict => .error conflict
    | none => .ok kind
  | none => Aggregation.inferred m.sql operands

/-- The type of the only operand, if there is exactly one. -/
def operandType? : List Operand → Option ValueType
  | [o] => some o.valueType
  | _ => none

/-- The compiled measure of an entity over its operands. A measure that is declared a number takes
the measures it refers to as they are, if there are any. -/
def assemble (m : Measure) (entity : String) (operands : List Operand) :
    Except Fault MeasureNode :=
  let label : NodeLabel := ⟨m.name, entity, m.isPublic⟩
  if m.declared = some .number ∧ measuresOf operands ≠ [] then
    .ok (.reused label (m.sql.getD "") (measuresOf operands))
  else
    match m.aggregation operands with
    | .error conflict => .error (.typeMismatch (Path.qualified entity m.name) conflict.message)
    | .ok kind =>
      .ok
        (.computed label kind (kind.outputType (operandType? operands)) m.sql
          (operands.map Operand.reference))

end Schema.Measure

end MetricLayer
