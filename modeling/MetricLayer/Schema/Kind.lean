/-!
# The kinds of a schema

The small vocabularies that fields, relationships and entities are described with: the types of
values, the ways of aggregating rows, and the shapes of relationships. Each has a name under which
it is written, and a list of all its members, from which names are read back.
-/

namespace MetricLayer.Schema

/-! ## Values -/

/-- The type of a dimension or of a measure's result. -/
inductive ValueType where
  | string
  | number
  | boolean
  | time
  deriving DecidableEq, Repr

namespace ValueType

def all : List ValueType := [string, number, boolean, time]

def name : ValueType → String
  | string => "string"
  | number => "number"
  | boolean => "boolean"
  | time => "time"

/-- Numbers alone can be summed. -/
def isNumeric : ValueType → Bool
  | number => true
  | _ => false

/-- Truth values alone have no order. -/
def isOrdered : ValueType → Bool
  | boolean => false
  | _ => true

end ValueType

/-! ## Aggregations -/

/-- How a measure turns rows into one value. `custom` is an aggregate expression written out in
full, and `number` takes values that are aggregated already. -/
inductive Aggregation where
  | count
  | countDistinct
  | sum
  | avg
  | min
  | max
  | custom
  | number
  deriving DecidableEq, Repr

namespace Aggregation

def all : List Aggregation := [count, countDistinct, sum, avg, min, max, custom, number]

def name : Aggregation → String
  | count => "count"
  | countDistinct => "count_distinct"
  | sum => "sum"
  | avg => "avg"
  | min => "min"
  | max => "max"
  | custom => "custom"
  | number => "number"

/-- The aggregation of a given name; `average` is another name of `avg`. -/
def ofName? (s : String) : Option Aggregation :=
  if s = "average" then some avg else all.find? fun k => k.name = s

/-- The aggregation that a SQL function computes, its name in any letter case. Only a count tells
distinct values apart. -/
def ofFunction? (function : String) (distinct : Bool) : Option Aggregation :=
  let lower := String.ofList (function.toList.map Char.toLower)
  if lower = "count" then some (if distinct then countDistinct else count)
  else if lower = "sum" then some sum
  else if lower = "avg" ∨ lower = "average" then some avg
  else if lower = "min" then some min
  else if lower = "max" then some max
  else none

/-- Partial results of an additive kind can be aggregated again with the same kind. -/
def isAdditive : Aggregation → Bool
  | count | sum | min | max => true
  | _ => false

/-- Sums and averages are taken of numbers. -/
def requiresNumericInput : Aggregation → Bool
  | sum | avg => true
  | _ => false

/-- The type of the result: least and greatest values keep the operand's type, all else is a
number. -/
def outputType (operand : Option ValueType) : Aggregation → ValueType
  | min | max => operand.getD .number
  | _ => .number

end Aggregation

/-! ## Relationships -/

/-- How many rows stand on each side of a relationship, the owner's side first. -/
inductive Cardinality where
  | oneToOne
  | oneToMany
  | manyToOne
  | manyToMany
  deriving DecidableEq, Repr

namespace Cardinality

def all : List Cardinality := [oneToOne, oneToMany, manyToOne, manyToMany]

def name : Cardinality → String
  | oneToOne => "one_to_one"
  | oneToMany => "one_to_many"
  | manyToOne => "many_to_one"
  | manyToMany => "many_to_many"

/-- The two sides with a colon between them. -/
def symbol : Cardinality → String
  | oneToOne => "1:1"
  | oneToMany => "1:N"
  | manyToOne => "N:1"
  | manyToMany => "N:N"

/-- The cardinality seen from the other side. -/
def reverse : Cardinality → Cardinality
  | oneToMany => manyToOne
  | manyToOne => oneToMany
  | c => c

/-- A relationship with many rows on its far side multiplies the rows of its near side. -/
def causesFanout : Cardinality → Bool
  | oneToMany | manyToMany => true
  | _ => false

end Cardinality

/-- Whether a relationship joins two sources, and can be crossed both ways, or lets a view include
members of another entity, and can only be crossed from the view. -/
inductive RelationshipKind where
  | join
  | inclusion
  deriving DecidableEq, Repr

namespace RelationshipKind

def all : List RelationshipKind := [join, inclusion]

def name : RelationshipKind → String
  | join => "join"
  | inclusion => "include"

end RelationshipKind

/-! ## Entities -/

/-- Whether an entity has a data source of its own or is composed of other entities. -/
inductive EntityKind where
  | cube
  | view
  deriving DecidableEq, Repr

namespace EntityKind

def all : List EntityKind := [cube, view]

def name : EntityKind → String
  | cube => "cube"
  | view => "view"

end EntityKind

end MetricLayer.Schema
