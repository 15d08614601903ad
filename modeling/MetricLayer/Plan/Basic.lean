import MetricLayer.Plan.FieldSet
import MetricLayer.Plan.MeasureNode
import MetricLayer.Plan.Predicate

/-!
# Plans

What an execution engine is given for one entity: the fields it has to read, the columns and
measures it has to produce, and the predicates to apply before and after aggregation.
-/

namespace MetricLayer

open Schema

/-- An output column that is not aggregated. -/
structure Column where
  name : String
  valueType : ValueType
  /-- The field it shows, if that belongs to another entity. -/
  source : Option Reference := none
  isPublic : Bool
  deriving DecidableEq, Repr

/-- The plan of an entity. -/
structure Plan where
  entity : String
  kind : EntityKind
  isPublic : Bool
  /-- The fields that have to be read. -/
  requiredFields : FieldSet := .empty
  columns : List Column := []
  /-- The predicates on rows; all must hold. -/
  rowPredicates : List Predicate := []
  /-- The predicates on aggregated values; all must hold. -/
  aggregatePredicates : List Predicate := []
  measures : List MeasureNode := []

namespace Plan

/-! ## Building -/

/-- The field that a column of an entity shows. -/
def columnField (entity : String) (c : Column) : String :=
  match c.source with
  | some r => r.qualifiedName
  | none => Path.qualified entity c.name

/-- The plan with another column. -/
def pushColumn (p : Plan) (c : Column) : Plan :=
  { p with
    requiredFields := p.requiredFields.insert (columnField p.entity c)
    columns := p.columns ++ [c] }

/-- The plan with another measure. -/
def pushMeasure (p : Plan) (m : MeasureNode) : Plan :=
  { p with
    requiredFields := p.requiredFields.insertAll (m.references.map Reference.qualifiedName)
    measures := p.measures ++ [m] }

/-- The plan with another predicate in the list of its placement. -/
def pushPredicate (p : Plan) (f : Predicate) : Plan :=
  let requiredFields := p.requiredFields.insert f.operand.qualifiedName
  match f.placement with
  | .row => { p with requiredFields, rowPredicates := p.rowPredicates ++ [f] }
  | .aggregate => { p with requiredFields, aggregatePredicates := p.aggregatePredicates ++ [f] }

/-! ## Reading -/

/-- The first measure of a name. -/
def measure? (p : Plan) (name : String) : Option MeasureNode :=
  p.measures.find? fun m => m.name = name

/-- The first column of a name. -/
def column? (p : Plan) (name : String) : Option Column := p.columns.find? fun c => c.name = name

/-- All predicates, those on rows first. -/
def predicates (p : Plan) : List Predicate := p.rowPredicates ++ p.aggregatePredicates

/-- All references of the plan, those of measures below its measures included. -/
def references (p : Plan) : List Reference :=
  p.columns.filterMap Column.source ++ p.measures.flatMap MeasureNode.allReferences ++
    p.predicates.map Predicate.operand

end Plan

/-! ## Plans as text -/

namespace Column

/-- The column in one line. -/
def text (c : Column) : String :=
  s!"{c.name}: {c.valueType.name}" ++
    match c.source with
    | some r => " from " ++ r.text
    | none => ""

def toJson (c : Column) : Json :=
  .object
    ([("name", .string c.name), ("value_type", .string c.valueType.name)] ++
      memberIfSome "source" (c.source.map Reference.toJson) ++
      [("public", .bool c.isPublic)])

end Column

namespace Plan

/-- The plan in lines: its entity, the fields it reads, its columns, the predicates on rows, its
measures and the predicates on aggregated values. -/
def explain (p : Plan) : String :=
  let head := s!"aggregate {p.entity} ({p.kind.name})" ++ if p.isPublic then "" else " hidden"
  let fields := p.requiredFields.toList
  let read := if fields.isEmpty then [] else ["  read " ++ ", ".intercalate fields]
  let lines :=
    head :: read ++ p.columns.map (fun c => "  dimension " ++ c.text) ++
      p.rowPredicates.map (fun f => "  where " ++ f.text) ++
      p.measures.map (fun m => "  measure " ++ m.text) ++
      p.aggregatePredicates.map fun f => "  having " ++ f.text
  String.join (lines.map fun line => line ++ "\n")

def toJson (p : Plan) : Json :=
  .object
    [("entity", .string p.entity), ("kind", .string p.kind.name), ("public", .bool p.isPublic),
      ("required_fields", .ofStrings p.requiredFields.toList),
      ("dimensions", .array (p.columns.map Column.toJson)),
      ("row_predicates", .array (p.rowPredicates.map Predicate.toJson)),
      ("aggregate_predicates", .array (p.aggregatePredicates.map Predicate.toJson)),
      ("measures", .array (p.measures.map MeasureNode.toJson))]

end Plan

end MetricLayer
