import MetricLayer.Digraph.PostOrder

/-!
# Cycles

A cyclic component is shown as a walk inside it that begins and ends at its least node. The walk is
found by a depth-first search that tries lesser nodes first and enters no node twice.
-/

namespace MetricLayer.Digraph

variable {α : Type} [DecidableEq α]

/-- The first way back to the start through one of the given nodes, none of which has been tried,
and the nodes that have been entered. -/
def firstWalk (walk : α → List α → Option (List α) × List α) (start : α) :
    List α → List α → Option (List α) × List α
  | [], entered => (none, entered)
  | v :: vs, entered =>
    if v = start then (some [start], entered)
    else if v ∈ entered then firstWalk walk start vs entered
    else
      match walk v (v :: entered) with
      | (some path, entered) => (some (v :: path), entered)
      | (none, entered) => firstWalk walk start vs entered

/-- The way from a node back to the start inside a set of nodes, without the node itself. The first
argument bounds the length of the way. -/
def walkBack (g : Digraph α) (le : α → α → Bool) (members : List α) (start : α) :
    Nat → α → List α → Option (List α) × List α
  | 0, _, entered => (none, entered)
  | fuel + 1, v, entered =>
    firstWalk (g.walkBack le members start fuel) start
      (((g.next v).filter (· ∈ members)).mergeSort le) entered

/-- A cycle through the least node of a component. -/
def cycle? (g : Digraph α) (le : α → α → Bool) (members : List α) : Option (List α) :=
  match members.mergeSort le with
  | [] => none
  | start :: _ =>
    (g.walkBack le members start members.length start [start]).1.map (start :: ·)

/-- A cycle of each cyclic component that can be reached from a node. -/
def cyclesFrom (g : Digraph α) (le : α → α → Bool) (v : α) : List (List α) :=
  let reachable := g.reach v
  (g.components.filter fun c => c.any (· ∈ reachable) && g.isCyclic c).filterMap (g.cycle? le)

end MetricLayer.Digraph
