import MetricLayer.Registry.Basic

/-!
# Published snapshots

A store holds the registry that is published. A new one takes its place only when it is complete;
whoever took the old one keeps it.
-/

namespace MetricLayer

open Schema

/-- The registry that is published at present. -/
structure Store where
  current : Registry

namespace Store

/-- The store that publishes the registry of a graph. -/
def ofGraph (g : Graph) : Except Fault Store := (Registry.ofGraph g).map Store.mk

/-- The store after a registry is published, and the registry it replaces. -/
def publish (s : Store) (r : Registry) : Store × Registry := (⟨r⟩, s.current)

/-- The store after the registry of a graph is published; if there is none the store stays. -/
def reload (s : Store) (g : Graph) : Store × Except Fault Registry :=
  match Registry.ofGraph g with
  | .ok r => (⟨r⟩, .ok r)
  | .error f => (s, .error f)

end Store

end MetricLayer
