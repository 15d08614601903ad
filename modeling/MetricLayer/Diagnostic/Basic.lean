import MetricLayer.Diagnostic.Fault
import MetricLayer.Json.Record

/-!
# Diagnostics

A fault as it is handed to whoever authored the schema: its kind, its severity, its message, and a
path that tells where to look.
-/

namespace MetricLayer

/-- A reported fault. -/
structure Diagnostic where
  kind : FaultKind
  severity : Severity
  message : String
  path : Option String
  deriving DecidableEq, Repr

namespace Diagnostic

/-- The diagnostic of a fault. -/
def ofFault (f : Fault) : Diagnostic := ⟨f.kind, f.severity, f.message, f.path?⟩

def isFatal (d : Diagnostic) : Bool := d.severity = .fatal

/-- The diagnostic with a path, if it has none of its own. -/
def orPath (d : Diagnostic) (path : String) : Diagnostic :=
  { d with path := d.path.or (some path) }

/-- The diagnostic in one line. -/
def text (d : Diagnostic) : String :=
  match d.path with
  | some path => s!"{d.severity.name} [{path}]: {d.message}"
  | none => s!"{d.severity.name}: {d.message}"

def toJson (d : Diagnostic) : Json :=
  .object
    [("kind", .string d.kind.name), ("severity", .string d.severity.name),
      ("message", .string d.message), ("path", .ofOption d.path)]

def ofJson? (x : Json) : Option Diagnostic := do
  let f ← x.fields? ["kind", "severity", "message", "path"]
  let kind ← f.required "kind" fun x => x.variant?.bind (Json.ofName? FaultKind.all FaultKind.name)
  let severity ←
    f.required "severity" fun x => x.variant?.bind (Json.ofName? Severity.all Severity.name)
  let message ← f.required "message" Json.asString?
  let path ← f.nullable "path" (Json.orNull Json.asString?)
  return { kind, severity, message, path }

end Diagnostic

/-- Whether any of the diagnostics is fatal. -/
def hasFatal (diagnostics : List Diagnostic) : Bool := diagnostics.any Diagnostic.isFatal

end MetricLayer
