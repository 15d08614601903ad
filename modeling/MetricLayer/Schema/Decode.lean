import MetricLayer.Json.Reader
import MetricLayer.Json.Record
import MetricLayer.Schema.Entity

/-!
# Schemas from JSON

How each part of a schema is read back. A filter may be written in two ways, so its value is kept
until the way is known: unlike a value that is skipped, it must not be broken anywhere, and in a
document it must not be nested too deeply.
-/

namespace MetricLayer.Schema

open Json

/-- How deep a value may be nested that is kept while it is read; none stands for any depth. -/
abbrev Nesting := Option Nat

/-- Whether a value can be kept while it is read. -/
def isKept (nesting : Nesting) (x : Json) : Bool :=
  x.isWhole &&
    match nesting with
    | some limit => x.depth ≤ limit
    | none => true

namespace ValueType

def ofJson? (x : Json) : Option ValueType := x.variant?.bind (Json.ofName? all name)

end ValueType

namespace Aggregation

def ofJson? (x : Json) : Option Aggregation := x.variant?.bind ofName?

end Aggregation

namespace Cardinality

def ofJson? (x : Json) : Option Cardinality := x.variant?.bind (Json.ofName? all name)

end Cardinality

namespace RelationshipKind

def ofJson? (x : Json) : Option RelationshipKind := x.variant?.bind (Json.ofName? all name)

end RelationshipKind

namespace EntityKind

def ofJson? (x : Json) : Option EntityKind := x.variant?.bind (Json.ofName? all name)

end EntityKind

namespace Operator

def ofJson? (x : Json) : Option Operator := x.variant?.bind (Json.ofName? all name)

end Operator

namespace Literal

/-- A truth value, a number, which may be whole, or a string. -/
def ofJson? : Json → Option Literal
  | .bool b => some (bool b)
  | .integer negative size => some (number (.ofNat negative size))
  | .real x => some (number x)
  | .string s => some (string s)
  | _ => none

end Literal

namespace Filter

/-- A filter written as SQL text. -/
def ofSql? (x : Json) : Option Filter := do
  let f ← x.fields? ["sql"]
  return sql (← f.required "sql" asString?)

/-- A filter written as a member, an operator and literals. -/
def ofMember? (x : Json) : Option Filter := do
  let f ← x.fields? ["member", "operator", "values"]
  let path ← f.required "member" asString?
  let op ← f.required "operator" Operator.ofJson?
  let values ← f.withDefault "values" (asList? Literal.ofJson?) []
  return member path op values

/-- A filter is an object; one that can be read as SQL text is, whatever else it holds. -/
def ofJson? (nesting : Nesting) (x : Json) : Option Filter :=
  match x with
  | .object _ => if isKept nesting x then (ofSql? x).or (ofMember? x) else none
  | _ => none

end Filter

namespace Dimension

def ofJson? (x : Json) : Option Dimension := do
  let f ← x.fields? ["name", "type", "sql", "primary_key", "public"]
  let name ← f.required "name" asString?
  let valueType ← f.required "type" ValueType.ofJson?
  let sql ← f.withDefault "sql" (orNull asString?) none
  let primaryKey ← f.withDefault "primary_key" asBool? false
  let isPublic ← f.withDefault "public" asBool? true
  return { name, valueType, sql, primaryKey, isPublic }

end Dimension

namespace Measure

def ofJson? (nesting : Nesting) (x : Json) : Option Measure := do
  let f ← x.fields? ["name", "sql", "type", "filters", "description", "public"]
  let name ← f.required "name" asString?
  let sql ← f.withDefault "sql" (orNull asString?) none
  let declared ← f.withDefault "type" (orNull Aggregation.ofJson?) none
  let filters ← f.withDefault "filters" (asList? (Filter.ofJson? nesting)) []
  let description ← f.withDefault "description" (orNull asString?) none
  let isPublic ← f.withDefault "public" asBool? true
  return { name, sql, declared, filters, description, isPublic }

end Measure

namespace Relationship

def ofJson? (x : Json) : Option Relationship := do
  let f ← x.fields? ["target", "kind", "cardinality", "sql"]
  let target ← f.required "target" asString?
  let kind ← f.withDefault "kind" RelationshipKind.ofJson? .join
  let cardinality ← f.withDefault "cardinality" Cardinality.ofJson? .manyToOne
  let condition ← f.withDefault "sql" (orNull asString?) none
  return { target, kind, cardinality, condition }

end Relationship

namespace Entity

def ofJson? (nesting : Nesting) (x : Json) : Option Entity := do
  let f ←
    x.fields?
      ["name", "kind", "description", "public", "dimensions", "measures", "relationships",
        "includes"]
  let name ← f.required "name" asString?
  let kind ← f.withDefault "kind" EntityKind.ofJson? .cube
  let description ← f.withDefault "description" (orNull asString?) none
  let isPublic ← f.withDefault "public" asBool? true
  let dimensions ← f.withDefault "dimensions" (asList? Dimension.ofJson?) []
  let measures ← f.withDefault "measures" (asList? (Measure.ofJson? nesting)) []
  let relationships ← f.withDefault "relationships" (asList? Relationship.ofJson?) []
  let includes ← f.withDefault "includes" (asList? asString?) []
  return { name, kind, description, isPublic, dimensions, measures, relationships, includes }

end Entity

namespace Graph

def ofJson? (nesting : Nesting) (x : Json) : Option Graph := do
  let f ← x.fields? ["entities"]
  return ⟨← f.withDefault "entities" (asList? (Entity.ofJson? nesting)) []⟩

/-- How deep a filter may be nested in a document: of the 127 arrays and objects that may be open at
once in a value that is kept, six are open around the filter. -/
def filterNesting : Nat := 121

/-- Reads a graph from JSON text. -/
def ofText? (text : String) : Option Graph :=
  (Json.ofText? text).bind (ofJson? (some filterNesting))

end Graph

namespace MemberKind

/-- The fields beside the kind; where the kind is known beforehand, an empty object may stand for
null in a name. -/
def ofFields? (kind : String) (rest : Json) : Option MemberKind :=
  if kind = "dimension" then do
    let f ← rest.fields? ["value_type"]
    let t ←
      f.required "value_type" fun x =>
        x.looseVariant?.bind (Json.ofName? ValueType.all ValueType.name)
    return dimension t
  else if kind = "measure" then do
    let f ← rest.fields? ["declared"]
    let k ← f.nullable "declared" (orNull fun x => x.looseVariant?.bind Aggregation.ofName?)
    return measure k
  else none

/-- An object whose key `kind` tells the case, or an array with the case first. -/
def ofJson? (x : Json) : Option MemberKind :=
  if x.isWhole then
    match x with
    | .object members =>
      match members.partition fun m => m.1 = "kind" with
      | ([(_, .string kind)], rest) => ofFields? kind (.object rest)
      | _ => none
    | .array (.string kind :: rest) => ofFields? kind (.array rest)
    | _ => none
  else none

end MemberKind

end MetricLayer.Schema
