import MetricLayer.Schema.Entity

/-!
# Schemas as JSON

How each part of a schema is written: fields in their declared order, names of kinds as strings, and
a description, a text or a declared aggregation left out when there is none.
-/

namespace MetricLayer.Schema

/-- A member that is written only if it has a value. -/
def memberIfSome (key : String) (x : Option Json) : List (String × Json) :=
  match x with
  | some x => [(key, x)]
  | none => []

namespace Literal

def toJson : Literal → Json
  | bool b => .bool b
  | number x => .real x
  | string s => .string s

end Literal

namespace Filter

def toJson : Filter → Json
  | sql text => .object [("sql", .string text)]
  | member path op values =>
    .object
      [("member", .string path), ("operator", .string op.name),
        ("values", .array (values.map Literal.toJson))]

end Filter

namespace Dimension

def toJson (d : Dimension) : Json :=
  .object
    ([("name", .string d.name), ("type", .string d.valueType.name)] ++
      memberIfSome "sql" (d.sql.map .string) ++
      [("primary_key", .bool d.primaryKey), ("public", .bool d.isPublic)])

end Dimension

namespace Measure

def toJson (m : Measure) : Json :=
  .object
    ([("name", .string m.name)] ++
      memberIfSome "sql" (m.sql.map .string) ++
      memberIfSome "type" (m.declared.map fun k => .string k.name) ++
      [("filters", .array (m.filters.map Filter.toJson))] ++
      memberIfSome "description" (m.description.map .string) ++
      [("public", .bool m.isPublic)])

end Measure

namespace Relationship

def toJson (r : Relationship) : Json :=
  .object
    ([("target", .string r.target), ("kind", .string r.kind.name),
        ("cardinality", .string r.cardinality.name)] ++
      memberIfSome "sql" (r.condition.map .string))

end Relationship

namespace Entity

def toJson (e : Entity) : Json :=
  .object
    ([("name", .string e.name), ("kind", .string e.kind.name)] ++
      memberIfSome "description" (e.description.map .string) ++
      [("public", .bool e.isPublic),
        ("dimensions", .array (e.dimensions.map Dimension.toJson)),
        ("measures", .array (e.measures.map Measure.toJson)),
        ("relationships", .array (e.relationships.map Relationship.toJson)),
        ("includes", .ofStrings e.includes)])

/-- The entity's JSON text. -/
def toText (e : Entity) : String := e.toJson.compactText

end Entity

namespace Graph

def toJson (g : Graph) : Json := .object [("entities", .array (g.entities.map Entity.toJson))]

/-- The graph's JSON text. -/
def toText (g : Graph) : String := g.toJson.compactText

end Graph

namespace MemberKind

def toJson : MemberKind → Json
  | dimension t => .object [("kind", .string "dimension"), ("value_type", .string t.name)]
  | measure declared =>
    .object [("kind", .string "measure"), ("declared", .ofOption (declared.map Aggregation.name))]

end MemberKind

end MetricLayer.Schema
