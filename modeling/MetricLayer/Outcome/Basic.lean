import MetricLayer.Outcome.Draft
import MetricLayer.Plan.Review
import MetricLayer.Registry.Fingerprint

/-!
# Outcomes

Compiling an entity always comes to an end, in a plan that is accepted or in diagnostics that say
why there is none. An entity that is not registered ends the compilation before there is a plan; any
other fault is reported beside the plan, and the policy decides.
-/

namespace MetricLayer

open Schema

/-- How far a compilation has come. -/
inductive Stage where
  | unresolved
  | resolving
  | compiled
  | validated
  | accepted
  | rejected
  deriving DecidableEq, Repr

namespace Stage

def name : Stage → String
  | unresolved => "unresolved"
  | resolving => "resolving"
  | compiled => "compiled"
  | validated => "validated"
  | accepted => "accepted"
  | rejected => "rejected"

/-- Whether nothing comes after the stage. -/
def isTerminal : Stage → Bool
  | accepted | rejected => true
  | _ => false

end Stage

/-- The end of a compilation. -/
structure Outcome where
  state : Stage
  /-- All stages in order; the last is the state. -/
  history : List Stage
  /-- The plan, accepted or not, if the entity is registered. -/
  plan : Option Plan
  diagnostics : List Diagnostic
  /-- The fingerprint of the registry that was compiled against. -/
  fingerprint : String

namespace Outcome

def isAccepted (o : Outcome) : Bool := o.state = .accepted

def fatalDiagnostics (o : Outcome) : List Diagnostic := o.diagnostics.filter Diagnostic.isFatal

/-- The plan, if it was accepted. -/
def acceptedPlan? (o : Outcome) : Option Plan := if o.isAccepted then o.plan else none

/-- The accepted plan, or the diagnostics that explain why there is none. -/
def result (o : Outcome) : Except (List Diagnostic) Plan :=
  match o.acceptedPlan? with
  | some p => .ok p
  | none => .error o.diagnostics

def toJson (o : Outcome) : Json :=
  .object
    [("state", .string o.state.name), ("history", .ofStrings (o.history.map Stage.name)),
      ("plan",
        match o.plan with
        | some p => p.toJson
        | none => .null),
      ("diagnostics", .array (o.diagnostics.map Diagnostic.toJson)),
      ("fingerprint", .string o.fingerprint)]

end Outcome

namespace Policy

/-- Whether a policy rejects a plan with the given diagnostics. -/
def rejects (policy : Policy) (diagnostics : List Diagnostic) : Bool :=
  match policy with
  | fatal => hasFatal diagnostics
  | any => !diagnostics.isEmpty

end Policy

/-- A registry and the settings under which its entities are compiled. -/
structure Compiler where
  registry : Registry
  settings : Settings := {}

namespace Compiler

def resolve (c : Compiler) (start path : String) : Except Fault Reference :=
  c.registry.resolve c.settings.walk start path

def compileMeasure (c : Compiler) (entity name : String) : Except Fault MeasureNode :=
  (c.registry.compileNamed c.settings.walk entity name []).1

/-- Compiles an entity with the filters of a request. -/
def compile (c : Compiler) (entity : String) (filters : List Filter) : Outcome :=
  let fingerprint := c.registry.fingerprint
  match c.registry.lookup entity with
  | .error f =>
    { state := .rejected
      history := [.unresolved, .resolving, .rejected]
      plan := none
      diagnostics := [(Diagnostic.ofFault f).orPath entity]
      fingerprint }
  | .ok e =>
    let walk := c.settings.walk
    let rules := c.settings.review
    let draft := Draft.ofEntity c.registry walk e filters
    let diagnostics :=
      (draft.plan.review c.registry walk rules).foldl report draft.diagnostics
    let state := if rules.policy.rejects diagnostics then Stage.rejected else .accepted
    { state
      history := [.unresolved, .resolving, .compiled, .validated, state]
      plan := some draft.plan
      diagnostics
      fingerprint }

end Compiler

end MetricLayer
