import MetricLayer.Schema.Filter
import MetricLayer.Text.Path

/-!
# Entities

A cube or a view with its fields: dimensions, which are plain columns, and measures, which are
aggregated; with the relationships it declares and the members of other entities it re-exports.
-/

namespace MetricLayer.Schema

/-- A column of an entity. -/
structure Dimension where
  name : String
  valueType : ValueType
  sql : Option String := none
  primaryKey : Bool := false
  isPublic : Bool := true
  deriving DecidableEq, Repr

/-- A measure as authored. A declared aggregation overrides what its text would suggest. -/
structure Measure where
  name : String
  sql : Option String := none
  declared : Option Aggregation := none
  filters : List Filter := []
  description : Option String := none
  isPublic : Bool := true
  deriving DecidableEq, Repr

/-- A relationship from the entity that declares it to another. -/
structure Relationship where
  target : String
  kind : RelationshipKind := .join
  cardinality : Cardinality := .manyToOne
  condition : Option String := none
  deriving DecidableEq, Repr

/-- A cube or a view. -/
structure Entity where
  name : String
  kind : EntityKind := .cube
  description : Option String := none
  isPublic : Bool := true
  dimensions : List Dimension := []
  measures : List Measure := []
  /-- The relationships in the order of their declaration. -/
  relationships : List Relationship := []
  /-- The paths of the members that are re-exported, each under its last segment. -/
  includes : List String := []
  deriving DecidableEq, Repr

/-- A field that an entity declares itself. -/
inductive Field where
  | dimension (d : Dimension)
  | measure (m : Measure)
  deriving DecidableEq, Repr

/-- What a reference knows of the field it ends at. -/
inductive MemberKind where
  | dimension (valueType : ValueType)
  | measure (declared : Option Aggregation)
  deriving DecidableEq, Repr

namespace MemberKind

def isMeasure : MemberKind → Bool
  | measure _ => true
  | dimension _ => false

end MemberKind

namespace Field

def name : Field → String
  | dimension d => d.name
  | measure m => m.name

def isMeasure : Field → Bool
  | measure _ => true
  | dimension _ => false

def isPublic : Field → Bool
  | dimension d => d.isPublic
  | measure m => m.isPublic

def memberKind : Field → MemberKind
  | dimension d => .dimension d.valueType
  | measure m => .measure m.declared

end Field

namespace Measure

/-- A measure that counts rows. -/
def ofCount (name : String) : Measure := { name, declared := some .count }

/-- Whether two lists hold filters that are authored alike. -/
def sameFilters : List Filter → List Filter → Bool
  | [], [] => true
  | f :: fs, g :: gs => f.equals g && sameFilters fs gs
  | _, _ => false

/-- Whether two measures are authored alike, numbers in their filters being compared as numbers. -/
def equals (m n : Measure) : Bool :=
  m.name = n.name && m.sql = n.sql && m.declared = n.declared && sameFilters m.filters n.filters &&
    m.description = n.description && m.isPublic = n.isPublic

end Measure

namespace Relationship

/-- The relationship of a view to an entity whose members it includes. -/
def inclusion (target : String) : Relationship :=
  { target, kind := .inclusion, cardinality := .oneToOne }

end Relationship

namespace Entity

/-- Whether the entity is composed of other entities. -/
def isView (e : Entity) : Bool := e.kind = .view

def dimension? (e : Entity) (name : String) : Option Dimension :=
  e.dimensions.find? fun d => d.name = name

def measure? (e : Entity) (name : String) : Option Measure :=
  e.measures.find? fun m => m.name = name

/-- The entity's own field of a name, a dimension before a measure. -/
def field? (e : Entity) (name : String) : Option Field :=
  match e.dimension? name with
  | some d => some (.dimension d)
  | none => (e.measure? name).map .measure

/-- The first path that re-exports a member under a name. -/
def includedPath? (e : Entity) (name : String) : Option String :=
  e.includes.find? fun path => (Path.ofText path).member = name

/-- The names of the entity's own fields, dimensions first. -/
def fieldNames (e : Entity) : List String :=
  e.dimensions.map Dimension.name ++ e.measures.map Measure.name

/-- The names under which members are re-exported. -/
def reexportedNames (e : Entity) : List String := e.includes.map fun p => (Path.ofText p).member

/-- All names that can be asked of the entity: its own fields and the re-exported members. -/
def memberNames (e : Entity) : List String := e.fieldNames ++ e.reexportedNames

/-- The first entities of the re-exported paths, in order and with repetitions. -/
def includeRoots (e : Entity) : List String := e.includes.filterMap fun p => (Path.ofText p).root?

/-- Whether the entity declares that it includes members of a target. -/
def declaresInclusion (e : Entity) (target : String) : Bool :=
  e.relationships.any fun r => r.kind = .inclusion && r.target = target

end Entity

/-- The entities of one schema version, in order. -/
structure Graph where
  entities : List Entity := []
  deriving DecidableEq, Repr

end MetricLayer.Schema
