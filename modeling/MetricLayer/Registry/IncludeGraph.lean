import MetricLayer.Digraph.Cycle
import MetricLayer.Registry.Basic

/-!
# The include graph

Which registered entity includes members of which. Targets that are not registered are left out;
resolving a path through them reports them.
-/

namespace MetricLayer

open Schema

namespace Registry

/-- The registered entities that an entity includes members of, in the order of declaration. -/
def includeTargets (r : Registry) (e : Entity) : List String :=
  (((e.relationships.filter fun rel => rel.kind = .inclusion).map Relationship.target).filter
    r.contains).eraseDups

/-- The graph of inclusions; of an entity's inclusions the last declared is visited first. -/
def includeGraph (r : Registry) : Digraph String :=
  let table := r.entities.map fun e => (e.name, (r.includeTargets e).reverse)
  { nodes := r.names, next := fun name => (table.lookup name).getD [] }

/-- The place of an entity in the order of registration. -/
def includeNode? (r : Registry) (name : String) : Option Nat := r.names.idxOf? name

/-- All inclusions, an entity and the one it includes members of, sorted by name. -/
def includeEdges (r : Registry) : List (String × String) :=
  (r.entities.flatMap fun e => (r.includeTargets e).map fun t => (e.name, t)).mergeSort fun a b =>
    a.1 < b.1 || (a.1 = b.1 && a.2 ≤ b.2)

/-- A cycle of each cyclic component of the include graph that can be reached from an entity. -/
def includeCycles (r : Registry) (entity : String) : List (List String) :=
  if r.contains entity then r.includeGraph.cyclesFrom (fun a b => a ≤ b) entity else []

end Registry

end MetricLayer
