import MetricLayer.Diagnostic.Basic
import MetricLayer.Plan.Basic
import MetricLayer.Plan.Filtering
import MetricLayer.Registry.IncludeGraph

/-!
# Reviewing plans

A plan is checked against a registry as a whole: every check is made and every fault is reported.
The plan may have been made for another registry, so nothing that it says of its references is
believed but where they start and their paths.
-/

namespace MetricLayer

open Schema

namespace Plan

variable (r : Registry) (walk : WalkRules)

/-- The faults of a plan's entity: it is not registered, or inclusions around it form cycles. -/
def entityFaults (review : ReviewRules) (p : Plan) : List Diagnostic :=
  if r.contains p.entity then
    if review.includeCycles then
      (r.includeCycles p.entity).map fun cycle => .ofFault (.cyclicReference cycle)
    else []
  else [.ofFault (.unknownEntity p.entity)]

/-- The faults of references that cannot be resolved; a reference that occurs twice counts once. -/
def referenceFaults (p : Plan) : List Diagnostic :=
  p.references.eraseDups.filterMap fun ref =>
    match r.resolve walk ref.start ref.path with
    | .ok _ => none
    | .error f => some ((Diagnostic.ofFault f).orPath ref.path)

/-- The fault of a predicate that is listed or marked for another stage than its operand needs. -/
def placementFaults (listed : Placement) (f : Predicate) (operand : Reference) :
    List Diagnostic :=
  let expected := Placement.ofOperand operand
  if f.placement = expected ∧ listed = expected then []
  else
    [.ofFault
      (.typeMismatch f.operand.path
        (s!"filter {f.text} is placed at the {listed.name} stage, " ++
          s!"but its operand requires the {expected.name} stage"))]

/-- The faults of a listed predicate whose operand can be resolved. -/
def predicateFaults (listed : Placement) (f : Predicate) : List Diagnostic :=
  match r.resolve walk f.operand.start f.operand.path with
  | .error _ => []
  | .ok operand =>
    placementFaults listed f operand ++
      match checkOperator operand f.operator f.values with
      | .ok _ => []
      | .error fault => [.ofFault fault]

/-- The entity that declares a crossed relationship, and the one it leads to. -/
def declaredEnds (c : Crossing) : String × String :=
  if c.reversed then (c.target, c.source) else (c.source, c.target)

/-- The ambiguous joins that a plan crosses, each once, with the number of different joins. -/
def ambiguities (p : Plan) : List ((String × String) × Nat) :=
  let joins := (p.references.flatMap Reference.crossings).filter fun c => c.kind = .join
  (joins.map declaredEnds).eraseDups.filterMap fun ends =>
    ((r.ambiguousJoins ends.1).find? fun j => j.1 = ends.2).map fun j => (ends, j.2)

/-- All faults of a plan. -/
def review (rules : ReviewRules) (p : Plan) : List Diagnostic :=
  p.entityFaults r rules ++ p.referenceFaults r walk ++
    p.rowPredicates.flatMap (predicateFaults r walk .row) ++
    p.aggregatePredicates.flatMap (predicateFaults r walk .aggregate) ++
    if rules.ambiguousJoins then
      (p.ambiguities r).map fun a => .ofFault (.ambiguousJoin a.1.1 a.1.2 a.2)
    else []

end Plan

end MetricLayer
