import MetricLayer.Diagnostic.Fault
import MetricLayer.Json.Record
import MetricLayer.Schema.Decode
import MetricLayer.Schema.Encode

/-!
# References

A reference is a member path that was followed to its end: the entities it led through, the
relationship crossed to reach each of them, and the field it ended at.
-/

namespace MetricLayer

open Schema

/-- A relationship as it was crossed. -/
structure Crossing where
  source : String
  target : String
  kind : RelationshipKind
  /-- The cardinality in the direction of travel. -/
  cardinality : Cardinality
  condition : Option String := none
  /-- Whether it was crossed from its target to the entity that declares it. -/
  reversed : Bool := false
  deriving DecidableEq, Repr

/-- One step of a followed path. -/
structure Hop where
  entity : String
  /-- The field, at the end of the path only. -/
  field : Option String := none
  /-- The relationship that led here, if one was crossed. -/
  crossing : Option Crossing := none
  deriving DecidableEq, Repr

/-- A member path that was followed to a field. -/
structure Reference where
  /-- The entity the path was followed from. -/
  start : String
  /-- The path as written. -/
  path : String
  hops : List Hop
  member : MemberKind
  deriving DecidableEq, Repr

namespace Reference

def hopCount (r : Reference) : Nat := r.hops.length

/-- The entity that owns the field. -/
def targetEntity (r : Reference) : String :=
  match r.hops.getLast? with
  | some h => h.entity
  | none => r.start

/-- The name of the field. -/
def fieldName (r : Reference) : String :=
  match r.hops.getLast? with
  | some h => h.field.getD ""
  | none => ""

/-- The field with its entity. -/
def qualifiedName (r : Reference) : String := Path.qualified r.targetEntity r.fieldName

def isMeasure (r : Reference) : Bool := r.member.isMeasure

/-- The type of the field, as far as it is known without compiling a measure: a least or greatest
value and an undeclared measure may be of any type. -/
def valueType? (r : Reference) : Option ValueType :=
  match r.member with
  | .dimension t => some t
  | .measure none => none
  | .measure (some .min) => none
  | .measure (some .max) => none
  | .measure (some k) => some (k.outputType none)

/-- Whether the path leads away from where it starts. -/
def crossesEntities (r : Reference) : Bool := r.targetEntity ≠ r.start

/-- The relationships that were crossed, in order. -/
def crossings (r : Reference) : List Crossing := r.hops.filterMap Hop.crossing

/-- Whether a relationship that was crossed multiplies rows. -/
def fansOut (r : Reference) : Bool := r.crossings.any fun c => c.cardinality.causesFanout

/-- The entities on the way, each with an arrow after it; the last is left out if it is the one that
owns the field. -/
def arrows (target : String) : List String → String
  | [] => ""
  | [entity] => if entity = target then "" else entity ++ " → "
  | entity :: rest => entity ++ " → " ++ arrows target rest

/-- The reference as text, such as `Users → Orders.count`. -/
def text (r : Reference) : String :=
  arrows r.targetEntity ((r.hops.filter fun h => h.field.isNone).map Hop.entity) ++ r.qualifiedName

end Reference

/-! ## References as JSON -/

namespace Crossing

/-- The crossing as text: its ends with the kind and the cardinality between them. -/
def text (c : Crossing) : String :=
  s!"{c.source} {c.kind.name} {c.cardinality.symbol} {c.target}"

def toJson (c : Crossing) : Json :=
  .object
    ([("from", .string c.source), ("to", .string c.target), ("kind", .string c.kind.name),
        ("cardinality", .string c.cardinality.name)] ++
      memberIfSome "condition" (c.condition.map .string) ++
      [("reversed", .bool c.reversed)])

def ofJson? (x : Json) : Option Crossing := do
  let f ← x.fields? ["from", "to", "kind", "cardinality", "condition", "reversed"]
  let source ← f.required "from" Json.asString?
  let target ← f.required "to" Json.asString?
  let kind ← f.required "kind" RelationshipKind.ofJson?
  let cardinality ← f.required "cardinality" Cardinality.ofJson?
  let condition ← f.withDefault "condition" (Json.orNull Json.asString?) none
  let reversed ← f.withDefault "reversed" Json.asBool? false
  return { source, target, kind, cardinality, condition, reversed }

end Crossing

namespace Hop

def toJson (h : Hop) : Json :=
  .object
    ([("entity", .string h.entity)] ++
      memberIfSome "field" (h.field.map .string) ++
      memberIfSome "via" (h.crossing.map Crossing.toJson))

def ofJson? (x : Json) : Option Hop := do
  let f ← x.fields? ["entity", "field", "via"]
  let entity ← f.required "entity" Json.asString?
  let field ← f.withDefault "field" (Json.orNull Json.asString?) none
  let crossing ← f.withDefault "via" (Json.orNull Crossing.ofJson?) none
  return { entity, field, crossing }

end Hop

namespace Reference

def toJson (r : Reference) : Json :=
  .object
    [("start", .string r.start), ("path", .string r.path),
      ("hops", .array (r.hops.map Hop.toJson)), ("member", r.member.toJson)]

def ofJson? (x : Json) : Option Reference := do
  let f ← x.fields? ["start", "path", "hops", "member"]
  let start ← f.required "start" Json.asString?
  let path ← f.required "path" Json.asString?
  let hops ← f.required "hops" (Json.asList? Hop.ofJson?)
  let member ← f.required "member" MemberKind.ofJson?
  return { start, path, hops, member }

end Reference

end MetricLayer
