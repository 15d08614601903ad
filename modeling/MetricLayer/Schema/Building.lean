import MetricLayer.Schema.Entity

/-!
# Building entities

Entities and measures put together piece by piece: each operation adds one thing at the end and
leaves the rest as it was.
-/

namespace MetricLayer.Schema

namespace Measure

/-- The measure with a text. -/
def withSql (m : Measure) (sql : String) : Measure := { m with sql := some sql }

/-- The measure with a declared aggregation. -/
def withType (m : Measure) (kind : Aggregation) : Measure := { m with declared := some kind }

/-- The measure with another filter. -/
def withFilter (m : Measure) (f : Filter) : Measure := { m with filters := m.filters ++ [f] }

/-- The measure, not public. -/
def hidden (m : Measure) : Measure := { m with isPublic := false }

end Measure

namespace Entity

/-- The entity with a description. -/
def withDescription (e : Entity) (text : String) : Entity := { e with description := some text }

/-- The entity, not public. -/
def hidden (e : Entity) : Entity := { e with isPublic := false }

/-- The entity with another dimension. -/
def withDimension (e : Entity) (d : Dimension) : Entity :=
  { e with dimensions := e.dimensions ++ [d] }

/-- The entity with another measure. -/
def withMeasure (e : Entity) (m : Measure) : Entity := { e with measures := e.measures ++ [m] }

/-- The entity with another relationship. -/
def withRelationship (e : Entity) (r : Relationship) : Entity :=
  { e with relationships := e.relationships ++ [r] }

/-- The entity with another re-exported member; the inclusion of the entity that its path begins
with is declared when the entity is registered. -/
def withInclude (e : Entity) (path : String) : Entity :=
  { e with includes := e.includes ++ [path] }

end Entity

end MetricLayer.Schema
