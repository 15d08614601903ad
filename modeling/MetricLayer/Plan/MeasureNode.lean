import MetricLayer.Reference.Basic

/-!
# Compiled measures

A compiled measure is computed from rows in the plan, or it takes values of other measures, which
are compiled below it, and is never aggregated again.
-/

namespace MetricLayer

open Schema

/-- What a compiled measure is called and shown as. -/
structure NodeLabel where
  name : String
  entity : String
  isPublic : Bool
  deriving DecidableEq, Repr

/-- A compiled measure. -/
inductive MeasureNode where
  /-- Aggregated from rows; `inputs` are the fields that its text reads. -/
  | computed (label : NodeLabel) (aggregation : Aggregation) (outputType : ValueType)
      (expression : Option String) (inputs : List Reference)
  /-- Taken from other measures, each compiled in its own entity. -/
  | reused (label : NodeLabel) (expression : String) (sources : List (Reference × MeasureNode))
  deriving Repr

namespace MeasureNode

def label : MeasureNode → NodeLabel
  | computed label _ _ _ _ => label
  | reused label _ _ => label

def name (n : MeasureNode) : String := n.label.name

def entity (n : MeasureNode) : String := n.label.entity

def isPublic (n : MeasureNode) : Bool := n.label.isPublic

/-- The measure with its entity. -/
def qualifiedName (n : MeasureNode) : String := Path.qualified n.entity n.name

def isReused : MeasureNode → Bool
  | reused _ _ _ => true
  | computed _ _ _ _ _ => false

/-- The aggregation that measures above this one see. -/
def aggregation : MeasureNode → Aggregation
  | computed _ aggregation _ _ _ => aggregation
  | reused _ _ _ => .number

/-- The type of the result. -/
def outputType : MeasureNode → ValueType
  | computed _ _ outputType _ _ => outputType
  | reused _ _ _ => .number

/-- The references that the measure itself reads. -/
def references : MeasureNode → List Reference
  | computed _ _ _ _ inputs => inputs
  | reused _ _ sources => sources.map Prod.fst

/-- The references of the measure and of all measures below it, each source before what lies below
it. -/
def allReferences : MeasureNode → List Reference
  | computed _ _ _ _ inputs => inputs
  | reused _ _ sources => ofSources sources
where
  ofSources : List (Reference × MeasureNode) → List Reference
    | [] => []
    | (r, n) :: rest => r :: (n.allReferences ++ ofSources rest)

/-- The measure in one line. -/
def text : MeasureNode → String
  | computed label aggregation outputType _ inputs =>
    s!"{label.name}: {aggregation.name} -> {outputType.name}" ++
      if inputs.isEmpty then "" else " over " ++ ", ".intercalate (inputs.map Reference.text)
  | reused label _ sources =>
    s!"{label.name}: reuse " ++
      ", ".intercalate (sources.map fun s => s!"{s.1.text} [{s.2.aggregation.name}]")

def toJson : MeasureNode → Json
  | computed label aggregation outputType expression inputs =>
    .object
      ([("node", .string "computed"), ("name", .string label.name),
          ("entity", .string label.entity), ("aggregation", .string aggregation.name),
          ("output_type", .string outputType.name)] ++
        memberIfSome "expression" (expression.map .string) ++
        [("inputs", .array (inputs.map Reference.toJson)), ("public", .bool label.isPublic)])
  | reused label expression sources =>
    .object
      [("node", .string "reused"), ("name", .string label.name), ("entity", .string label.entity),
        ("expression", .string expression), ("sources", .array (sourcesToJson sources)),
        ("public", .bool label.isPublic)]
where
  sourcesToJson : List (Reference × MeasureNode) → List Json
    | [] => []
    | (r, n) :: rest =>
      .object [("reference", r.toJson), ("upstream", n.toJson)] :: sourcesToJson rest

end MeasureNode

end MetricLayer
