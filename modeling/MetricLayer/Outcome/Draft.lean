import MetricLayer.Diagnostic.Basic
import MetricLayer.Measure.Compile
import MetricLayer.Plan.Basic
import MetricLayer.Plan.Filtering

/-!
# Drafting a plan

The plan of an entity is drafted part by part: its own columns, the members it re-exports, its
measures with their filters, and the filters of the request. A part that cannot be compiled is
reported and left out, and the draft goes on with the next.
-/

namespace MetricLayer

open Schema

/-- A plan that is being put together, what has been reported, and the measures compiled so far. -/
structure Draft where
  plan : Plan
  diagnostics : List Diagnostic := []
  memo : Memo := []

/-- A list of diagnostics with another one, unless it is there already. -/
def report (diagnostics : List Diagnostic) (d : Diagnostic) : List Diagnostic :=
  if d ∈ diagnostics then diagnostics else diagnostics ++ [d]

namespace Draft

/-- The draft with a fault reported; the context tells where to look if the fault does not. -/
def fault (d : Draft) (f : Fault) (context : String) : Draft :=
  { d with diagnostics := report d.diagnostics ((Diagnostic.ofFault f).orPath context) }

/-- The draft with an own column of the entity. -/
def addDimension (d : Draft) (dim : Dimension) : Draft :=
  { d with
    plan := d.plan.pushColumn
      { name := dim.name, valueType := dim.valueType, isPublic := dim.isPublic } }

/-- The draft after a measure was compiled. -/
def addCompiled (d : Draft) (context : String) (result : Except Fault MeasureNode × Memo) :
    Draft :=
  let d := { d with memo := result.2 }
  match result.1 with
  | .ok node => { d with plan := d.plan.pushMeasure node }
  | .error f => d.fault f context

/-- The draft after a filter was compiled, as one of the given origin. -/
def addFilter (d : Draft) (context : String) (origin : Origin) (result : Except Fault Predicate) :
    Draft :=
  match result with
  | .ok p => { d with plan := d.plan.pushPredicate { p with origin } }
  | .error f => d.fault f context

/-- The measure that stands for a re-exported measure: its text is a placeholder of the path. -/
def standIn (path name : String) : Measure :=
  { name, sql := some ("$\x7b" ++ path ++ "\x7d") }

variable (r : Registry) (rules : WalkRules)

/-- The draft with a re-exported member of the entity. -/
def addInclude (entity : Entity) (d : Draft) (path : String) : Draft :=
  match r.resolve rules entity.name path with
  | .error f => d.fault f path
  | .ok reference =>
    match reference.member with
    | .dimension valueType =>
      { d with
        plan := d.plan.pushColumn
          { name := reference.fieldName, valueType, source := some reference, isPublic := true } }
    | .measure _ =>
      d.addCompiled path
        (r.compileMeasure rules entity.name (standIn path reference.fieldName) d.memo)

/-- The draft with a measure of the entity and with its filters. -/
def addMeasure (entity : Entity) (d : Draft) (m : Measure) : Draft :=
  let context := Path.qualified entity.name m.name
  m.filters.foldl
    (fun d f => d.addFilter context (.measure m.name) (r.compileFilter rules entity.name f))
    (d.addCompiled context (r.compileMeasure rules entity.name m d.memo))

/-- The draft with a filter of the request. -/
def addRequested (entity : Entity) (d : Draft) (f : Filter) : Draft :=
  d.addFilter entity.name .request (r.compileFilter rules entity.name f)

/-- The draft of a registered entity with the filters of a request. -/
def ofEntity (entity : Entity) (filters : List Filter) : Draft :=
  let d : Draft :=
    { plan := { entity := entity.name, kind := entity.kind, isPublic := entity.isPublic } }
  let d := entity.dimensions.foldl addDimension d
  let d := entity.includes.foldl (addInclude r rules entity) d
  let d := entity.measures.foldl (addMeasure r rules entity) d
  filters.foldl (addRequested r rules entity) d

end Draft

end MetricLayer
