import MetricLayer.Measure.Aggregation
import MetricLayer.Reference.Resolve

/-!
# Compiling measures

A measure is compiled after the measures its text refers to. Compiled measures of registered
entities are kept under their names for the measures that come later; a definition that is not the
registered one is compiled anew and not kept. A measure that is met while it is being compiled
closes a cycle.
-/

namespace MetricLayer

open Schema

/-- The compiled measures of registered entities under their qualified names. -/
abbrev Memo := List (String × MeasureNode)

/-- Compiles a registered measure of an entity, and gives what is kept afterwards. -/
abbrev CompileSource := String → Measure → Memo → Except Fault MeasureNode × Memo

namespace Registry

/-- The operand of a path, compiling the measure it ends at. -/
def operand (r : Registry) (rules : WalkRules) (source : CompileSource) (entity path : String)
    (memo : Memo) : Except Fault Operand × Memo :=
  match r.resolve rules entity path with
  | .error f => (.error f, memo)
  | .ok reference =>
    match r.field reference.targetEntity reference.fieldName with
    | .error f => (.error f, memo)
    | .ok (.dimension d) => (.ok (.dimension reference d.valueType), memo)
    | .ok (.measure m) =>
      match source reference.targetEntity m memo with
      | (.error f, memo) => (.error f, memo)
      | (.ok node, memo) => (.ok (.measure reference node), memo)

/-- The operands of a list of paths, up to the first that has none. -/
def operands (r : Registry) (rules : WalkRules) (source : CompileSource) (entity : String) :
    List String → Memo → Except Fault (List Operand) × Memo
  | [], memo => (.ok [], memo)
  | path :: paths, memo =>
    match r.operand rules source entity path memo with
    | (.error f, memo) => (.error f, memo)
    | (.ok o, memo) =>
      match r.operands rules source entity paths memo with
      | (.error f, memo) => (.error f, memo)
      | (.ok os, memo) => (.ok (o :: os), memo)

/-- The paths that the text of a measure of an entity refers to. -/
def measurePaths (entity : String) (m : Measure) : List String :=
  match m.sql with
  | some sql => Expression.references entity sql
  | none => []

/-- Compiles a definition, given how the measures it refers to are compiled. -/
def define (r : Registry) (rules : WalkRules) (source : CompileSource) (entity : String)
    (m : Measure) (memo : Memo) : Except Fault MeasureNode × Memo :=
  match r.operands rules source entity (measurePaths entity m) memo with
  | (.error f, memo) => (.error f, memo)
  | (.ok operands, memo) => (m.assemble entity operands, memo)

/-- The qualified names of all registered measures. -/
def measureKeys (r : Registry) : List String :=
  r.entities.flatMap fun e => e.measures.map fun m => Path.qualified e.name m.name

/-- Compiles a registered measure. Of the registered measures, `visiting` are being compiled, the
outermost first, and `pending` are not. -/
def compileShared (r : Registry) (rules : WalkRules) (pending visiting : List String)
    (entity : String) (m : Measure) (memo : Memo) : Except Fault MeasureNode × Memo :=
  let key := Path.qualified entity m.name
  match memo.lookup key with
  | some node => (.ok node, memo)
  | none =>
    if _h : key ∈ pending then
      match
        r.define rules (fun e n memo => r.compileShared rules (strike key pending)
          (visiting ++ [key]) e n memo) entity m memo with
      | (.error f, memo) => (.error f, memo)
      | (.ok node, memo) => (.ok node, (key, node) :: memo)
    else (.error (.cyclicReference (loopFrom key visiting)), memo)
termination_by pending.length
decreasing_by exact length_strike_lt _h

/-- Whether a measure is the one that the registry holds under its name. -/
def isRegistered (r : Registry) (entity : String) (m : Measure) : Bool :=
  match (r.entity? entity).bind fun e => e.measure? m.name with
  | some registered => registered.equals m
  | none => false

/-- Compiles a measure of an entity, and gives what is kept afterwards. -/
def compileMeasure (r : Registry) (rules : WalkRules) (entity : String) (m : Measure)
    (memo : Memo) : Except Fault MeasureNode × Memo :=
  if r.isRegistered entity m then r.compileShared rules r.measureKeys [] entity m memo
  else r.define rules (r.compileShared rules r.measureKeys []) entity m memo

/-- Compiles the measure that an entity declares under a name. -/
def compileNamed (r : Registry) (rules : WalkRules) (entity name : String) (memo : Memo) :
    Except Fault MeasureNode × Memo :=
  match r.lookup entity with
  | .error f => (.error f, memo)
  | .ok e =>
    match e.measure? name with
    | none => (.error (.unknownField entity name), memo)
    | some m => r.compileMeasure rules entity m memo

end Registry

end MetricLayer
