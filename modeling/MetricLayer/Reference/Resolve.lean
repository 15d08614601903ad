import MetricLayer.Digraph.Pending
import MetricLayer.Reference.Basic
import MetricLayer.Registry.Basic
import MetricLayer.Settings.Basic
import MetricLayer.Text.Blank

/-!
# Resolving member paths

A path is followed from an entity, one relationship to a segment, and ends at a field of the last
entity. A member that the last entity re-exports is followed on through its own path, from that
entity. Each re-exported member is followed at most once, which is why following ends; meeting one
again is a cycle.
-/

namespace MetricLayer

open Schema

/-! ## Crossing relationships -/

/-- The first relationship that an entity declares to a target. -/
def Schema.Entity.relationshipTo? (e : Entity) (target : String) : Option Relationship :=
  e.relationships.find? fun rel => rel.target = target

/-- The first join that an entity declares to a target. -/
def Schema.Entity.joinTo? (e : Entity) (target : String) : Option Relationship :=
  e.relationships.find? fun rel => rel.target = target && rel.kind = .join

/-- How one entity is left for another: by the first relationship declared to it or, where the rules
allow it, by the first join it declares back. -/
def crossing? (rules : WalkRules) (source target : Entity) : Option Crossing :=
  match source.relationshipTo? target.name with
  | some rel =>
    some
      { source := source.name, target := target.name, kind := rel.kind,
        cardinality := rel.cardinality, condition := rel.condition }
  | none =>
    if rules.reverseJoins then
      (target.joinTo? source.name).map fun rel =>
        { source := source.name, target := target.name, kind := rel.kind,
          cardinality := rel.cardinality.reverse, condition := rel.condition, reversed := true }
    else none

namespace Registry

/-! ## Walking between entities -/

/-- One step of a walk: the entity that a segment names, and the hop that leads to it. -/
def step (r : Registry) (rules : WalkRules) (path : String) (place : Nat) (current : Entity)
    (segment : String) : Except Fault (Hop × Entity) :=
  match r.entity? segment with
  | none => .error (.unknownEntity segment)
  | some next =>
    match crossing? rules current next with
    | none => .error (.unreachableEntity current.name segment place path)
    | some c => .ok ({ entity := next.name, crossing := some c }, next)

/-- The hops of a walk through entities, the first segment having the given place, and the entity it
ends at. -/
def walkThrough (r : Registry) (rules : WalkRules) (path : String) :
    Nat → Entity → List String → Except Fault (List Hop × Entity)
  | _, current, [] => .ok ([], current)
  | place, current, segment :: rest =>
    match r.step rules path place current segment with
    | .error f => .error f
    | .ok (hop, next) =>
      match r.walkThrough rules path (place + 1) next rest with
      | .error f => .error f
      | .ok (hops, final) => .ok (hop :: hops, final)

/-- The hops of a walk whose first segment may be the entity it starts from. -/
def walk (r : Registry) (rules : WalkRules) (path : String) (start : Entity)
    (segments : List String) : Except Fault (List Hop × Entity) :=
  match segments with
  | first :: rest =>
    if first = start.name then
      match r.walkThrough rules path 1 start rest with
      | .error f => .error f
      | .ok (hops, final) => .ok ({ entity := start.name } :: hops, final)
    else r.walkThrough rules path 0 start segments
  | [] => .ok ([], start)

/-! ## Following re-exported members -/

/-- The re-exported members of all entities, each with the entity that re-exports it. -/
def reexports (r : Registry) : List (String × String) :=
  r.entities.flatMap fun e => e.reexportedNames.map fun name => (e.name, name)

/-- The text of a list of members with their entities. -/
def qualifiedNames (members : List (String × String)) : List String :=
  members.map fun m => Path.qualified m.1 m.2

/-- Whether a path has no blank segment and is not too long. -/
def checkPath (rules : WalkRules) (path : String) : Except Fault Path :=
  let p := Path.ofText path
  let count := p.segments.length
  if p.segments.any fun s => Text.allBlank s.toList then
    .error (.invalidExpression s!"empty segment in member path '{path}'")
  else if rules.maxDepth < count then
    let limit := rules.maxDepth
    .error
      (.invalidExpression
        s!"member path '{path}' has {count} segments, more than the maximum of {limit}")
  else .ok p

/-- Follows a path to a field. Of the re-exported members, `through` are being followed, the
outermost first, and `pending` are not. -/
def follow (r : Registry) (rules : WalkRules) (pending through : List (String × String))
    (start path : String) : Except Fault (List Hop × MemberKind) := do
  let p ← checkPath rules path
  let e ← r.lookup start
  let (hops, final) ← r.walk rules path e p.entities
  match final.field? p.member with
  | some field =>
    return (hops ++ [{ entity := final.name, field := some field.name }], field.memberKind)
  | none =>
    match final.includedPath? p.member with
    | none => .error (.unknownField final.name p.member)
    | some included =>
      let key := (final.name, p.member)
      if _h : key ∈ pending then
        let (inner, kind) ←
          r.follow rules (strike key pending) (through ++ [key]) final.name included
        return (hops ++ inner, kind)
      else
        .error (.cyclicReference (qualifiedNames (loopFrom key through)))
termination_by pending.length
decreasing_by exact length_strike_lt _h

/-- Resolves a path from an entity. -/
def resolve (r : Registry) (rules : WalkRules) (start path : String) : Except Fault Reference :=
  match r.follow rules r.reexports [] start path with
  | .ok (hops, member) => .ok { start, path, hops, member }
  | .error f => .error f

end Registry

end MetricLayer
