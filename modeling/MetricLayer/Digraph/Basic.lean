/-!
# Finite directed graphs

Nodes in a list and the nodes that each leads to. Two nodes belong to the same component if each can
be reached from the other.
-/

namespace MetricLayer

/-- A directed graph. The successors of a node are nodes, in the order in which they are visited. -/
structure Digraph (α : Type) where
  nodes : List α
  next : α → List α

namespace Digraph

variable {α : Type} [DecidableEq α]

/-- A set of nodes with what it leads to in at most the given number of steps. What the nodes lead
to that are not among the newest is found already. -/
def closure (g : Digraph α) : Nat → List α → List α → List α
  | 0, found, _ => found
  | steps + 1, found, newest =>
    let fresh := ((newest.flatMap g.next).filter (· ∉ found)).eraseDups
    if fresh.isEmpty then found else g.closure steps (found ++ fresh) fresh

/-- The nodes that can be reached from a node, itself among them. -/
def reach (g : Digraph α) (v : α) : List α := g.closure g.nodes.length [v] [v]

/-- Each node with the nodes that can be reached from it. -/
def reachTable (g : Digraph α) : List (α × List α) := g.nodes.map fun v => (v, g.reach v)

/-- Whether each of two nodes can be reached from the other, by a table of what each leads to. -/
def joined (table : List (α × List α)) (v w : α) : Bool :=
  w ∈ (table.lookup v).getD [] && v ∈ (table.lookup w).getD []

/-- The nodes of the component of a node, in the graph's order. -/
def component (g : Digraph α) (table : List (α × List α)) (v : α) : List α :=
  g.nodes.filter (joined table v)

/-- Whether a component holds a cycle: it has two or more nodes, or its node leads to itself. -/
def isCyclic (g : Digraph α) (component : List α) : Bool :=
  match component with
  | [] => false
  | [v] => v ∈ g.next v
  | _ => true

end Digraph

end MetricLayer
