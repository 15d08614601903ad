import MetricLayer.Digraph.Basic

/-!
# Depth-first order

The order in which a depth-first search leaves the nodes of a graph, and the components in the order
in which it leaves the last node of each.
-/

namespace MetricLayer.Digraph

variable {α : Type} [DecidableEq α]

/-- A search that is under way: the nodes it has entered and those it has left, in order. -/
structure Search (α : Type) where
  entered : List α
  left : List α

/-- Visits a node and all that it leads to, unless it has been entered before. The first argument
bounds how many nodes may be open at once. -/
def visit (g : Digraph α) : Nat → Search α → α → Search α
  | 0, s, _ => s
  | fuel + 1, s, v =>
    if v ∈ s.entered then s
    else
      let s := (g.next v).foldl (g.visit fuel) ⟨v :: s.entered, s.left⟩
      ⟨s.entered, s.left ++ [v]⟩

/-- The nodes in the order in which a depth-first search leaves them. -/
def postOrder (g : Digraph α) : List α :=
  (g.nodes.foldl (g.visit g.nodes.length) ⟨[], []⟩).left

/-- The component of each node that is the last of its component in a list. -/
def closingComponents (g : Digraph α) (table : List (α × List α)) : List α → List (List α)
  | [] => []
  | v :: rest =>
    if rest.any (joined table v) then g.closingComponents table rest
    else g.component table v :: g.closingComponents table rest

/-- The components of a graph in the order in which a depth-first search leaves them. -/
def components (g : Digraph α) : List (List α) := g.closingComponents g.reachTable g.postOrder

end MetricLayer.Digraph
