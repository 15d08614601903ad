import MetricLayer.Registry.Fingerprint

/-!
# Building through maps of names

A registry is built in place: the entities one behind the other, and a map from each name to the
place of its entity. The finished snapshot answers through that map, and through a second one from
names to the nodes of the include graph.
-/

namespace MetricLayer

open Schema

/-! ## Maps of names -/

/-- What some names stand for. An entry of a name hides the earlier ones. -/
structure NameMap (α : Type) where
  entries : List (String × α) := []

namespace NameMap

variable {α : Type}

def get? (m : NameMap α) (name : String) : Option α := m.entries.lookup name

def contains (m : NameMap α) (name : String) : Bool := (m.get? name).isSome

def insert (m : NameMap α) (name : String) (a : α) : NameMap α := ⟨(name, a) :: m.entries⟩

@[simp] theorem get?_empty (name : String) : ({} : NameMap α).get? name = none := rfl

theorem get?_insert (m : NameMap α) (key name : String) (a : α) :
    (m.insert key a).get? name = if name = key then some a else m.get? name := by
  unfold get? insert
  rw [List.lookup_cons]
  by_cases h : name = key
  · rw [if_pos h, beq_iff_eq.2 h]
  · rw [if_neg h, beq_false_of_ne h]

end NameMap

/-! ## Graphs that grow -/

/-- A graph whose nodes are numbered in the order of their adding, as the edges are listed. -/
structure GrowingGraph where
  labels : List String := []
  edges : List (Nat × Nat) := []

namespace GrowingGraph

/-- The graph with one more node, and its number. -/
def addNode (g : GrowingGraph) (label : String) : GrowingGraph × Nat :=
  ({ g with labels := g.labels ++ [label] }, g.labels.length)

/-- The graph with an edge, which it may have already. -/
def updateEdge (g : GrowingGraph) (source target : Nat) : GrowingGraph :=
  if (source, target) ∈ g.edges then g else { g with edges := g.edges ++ [(source, target)] }

/-- The nodes that a node has edges to, the newest edge first. -/
def neighbors (g : GrowingGraph) (node : Nat) : List Nat :=
  ((g.edges.filter fun edge => edge.1 = node).map Prod.snd).reverse

end GrowingGraph

/-! ## Builders -/

/-- The entities that are registered so far, and the place of each. -/
structure RegistryBuilder where
  entities : List Entity := []
  index : NameMap Nat := {}

/-- A complete registry with the maps that it answers through. -/
structure Snapshot where
  entities : List Entity
  index : NameMap Nat
  includeGraph : GrowingGraph
  includeNodes : NameMap Nat
  fingerprint : String

namespace RegistryBuilder

/-- Registers an entity in place. -/
def register (e : Entity) : EStateM Fault RegistryBuilder Unit := do
  if (← get).index.contains e.name then throw (.duplicateEntity e.name)
  if let some name := firstRepeat? [] e.memberNames then throw (.duplicateField e.name name)
  let e := e.withInclusions
  modify fun b => { b with index := b.index.insert e.name b.entities.length }
  modify fun b => { b with entities := b.entities ++ [e] }

/-- Adds the node of an entity, to the graph and to the map of nodes. -/
def addNode : GrowingGraph × NameMap Nat → Entity → GrowingGraph × NameMap Nat
  | (g, nodes), e =>
    let (g, node) := g.addNode e.name
    (g, nodes.insert e.name node)

/-- Adds the edge of an inclusion between two entities that have nodes. -/
def addEdge (nodes : NameMap Nat) (source : String) (g : GrowingGraph) (rel : Relationship) :
    GrowingGraph :=
  if rel.kind = .inclusion then
    match nodes.get? source, nodes.get? rel.target with
    | some source, some target => g.updateEdge source target
    | _, _ => g
  else g

/-- Adds the edges of an entity in the order of its relationships. -/
def addEdges (nodes : NameMap Nat) (g : GrowingGraph) (e : Entity) : GrowingGraph :=
  e.relationships.foldl (addEdge nodes e.name) g

/-- The snapshot of what is registered. -/
def build (b : RegistryBuilder) : Snapshot :=
  let (g, nodes) := b.entities.foldl addNode ({}, {})
  { entities := b.entities
    index := b.index
    includeGraph := b.entities.foldl (addEdges nodes) g
    includeNodes := nodes
    fingerprint := MetricLayer.fingerprint b.entities }

end RegistryBuilder

/-! ## Snapshots -/

namespace Snapshot

/-- The snapshot of a list of entities. -/
def ofEntities (es : List Entity) : Except Fault Snapshot :=
  match (es.forM RegistryBuilder.register).run {} with
  | .ok _ b => .ok b.build
  | .error f _ => .error f

/-- The entity of a name. -/
def entity? (s : Snapshot) (name : String) : Option Entity := do s.entities[← s.index.get? name]?

/-- Whether an entity has a name. -/
def contains (s : Snapshot) (name : String) : Bool := s.index.contains name

/-- The entity of a name, or the fault that there is none. -/
def lookup (s : Snapshot) (name : String) : Except Fault Entity :=
  match s.entity? name with
  | some e => .ok e
  | none => .error (.unknownEntity name)

/-- The number of the node of a name. -/
def includeNode? (s : Snapshot) (name : String) : Option Nat := s.includeNodes.get? name

/-- The names of the entities that an entity includes members of, the newest edge first. -/
def includedBy (s : Snapshot) (name : String) : List String :=
  match s.includeNode? name with
  | some node => (s.includeGraph.neighbors node).filterMap (s.includeGraph.labels[·]?)
  | none => []

end Snapshot

end MetricLayer
