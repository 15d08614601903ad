/-!
# Faults

Everything that can be wrong with a schema, a path, a measure or a plan. Each fault has a kind, a
message and, if it knows one, the path it is about; the kind alone decides how severe it is.
-/

namespace MetricLayer

/-- How much a diagnostic weighs. A fatal one always rejects a plan. -/
inductive Severity where
  | fatal
  | advisory
  deriving DecidableEq, Repr

namespace Severity

def all : List Severity := [fatal, advisory]

def name : Severity → String
  | fatal => "fatal"
  | advisory => "advisory"

end Severity

/-- The kinds of faults. -/
inductive FaultKind where
  | unknownEntity
  | unreachableEntity
  | unknownField
  | duplicateEntity
  | duplicateField
  | cyclicReference
  | typeMismatch
  | ambiguousJoin
  | invalidExpression
  | fingerprint
  deriving DecidableEq, Repr

namespace FaultKind

def all : List FaultKind :=
  [unknownEntity, unreachableEntity, unknownField, duplicateEntity, duplicateField,
    cyclicReference, typeMismatch, ambiguousJoin, invalidExpression, fingerprint]

def name : FaultKind → String
  | unknownEntity => "unknown_entity"
  | unreachableEntity => "unreachable_entity"
  | unknownField => "unknown_field"
  | duplicateEntity => "duplicate_entity"
  | duplicateField => "duplicate_field"
  | cyclicReference => "cyclic_reference"
  | typeMismatch => "type_mismatch"
  | ambiguousJoin => "ambiguous_join"
  | invalidExpression => "invalid_expression"
  | fingerprint => "fingerprint"

/-- An ambiguous join is the only fault that is not fatal: the first relationship is used. -/
def severity : FaultKind → Severity
  | ambiguousJoin => .advisory
  | _ => .fatal

end FaultKind

/-- What is wrong. -/
inductive Fault where
  /-- No entity has the name. -/
  | unknownEntity (name : String)
  /-- No relationship leads from one entity to the next; `hop` counts the path's segments from
  zero. -/
  | unreachableEntity (source target : String) (hop : Nat) (path : String)
  /-- The entity has no field of the name. -/
  | unknownField (entity field : String)
  /-- The name of an entity is taken. -/
  | duplicateEntity (name : String)
  /-- An entity has two fields of one name. -/
  | duplicateField (entity field : String)
  /-- Measures, re-exported members or entities lead back to themselves; the first element is
  repeated at the end. -/
  | cyclicReference (cycle : List String)
  /-- Operands, literals or aggregations do not go together. -/
  | typeMismatch (path message : String)
  /-- Several different joins lead from one entity to another. -/
  | ambiguousJoin (source target : String) (count : Nat)
  /-- A path or a text cannot be read. -/
  | invalidExpression (message : String)
  /-- An entity could not be written for the fingerprint. -/
  | fingerprint (entity message : String)
  deriving DecidableEq, Repr

namespace Fault

def kind : Fault → FaultKind
  | unknownEntity _ => .unknownEntity
  | unreachableEntity _ _ _ _ => .unreachableEntity
  | unknownField _ _ => .unknownField
  | duplicateEntity _ => .duplicateEntity
  | duplicateField _ _ => .duplicateField
  | cyclicReference _ => .cyclicReference
  | typeMismatch _ _ => .typeMismatch
  | ambiguousJoin _ _ _ => .ambiguousJoin
  | invalidExpression _ => .invalidExpression
  | fingerprint _ _ => .fingerprint

def severity (f : Fault) : Severity := f.kind.severity

def isFatal (f : Fault) : Bool := f.severity = .fatal

def message : Fault → String
  | unknownEntity name => s!"Unknown entity: '{name}'"
  | unreachableEntity source target hop path =>
    s!"Entity '{target}' is not reachable from '{source}' (hop {hop} of '{path}')"
  | unknownField entity field => s!"Unknown field '{field}' on entity '{entity}'"
  | duplicateEntity name => s!"Duplicate entity name: '{name}'"
  | duplicateField entity field => s!"Duplicate field '{field}' on entity '{entity}'"
  | cyclicReference cycle => "Cyclic reference detected: " ++ " -> ".intercalate cycle
  | typeMismatch path message => s!"Type mismatch at '{path}': {message}"
  | ambiguousJoin source target count =>
    s!"Ambiguous join from '{source}' to '{target}': {count} relationships declared, " ++
      "using the first"
  | invalidExpression message => s!"Invalid expression: {message}"
  | fingerprint entity message => s!"Failed to fingerprint entity '{entity}': {message}"

/-- The path or entity that the fault is about, if it names one. -/
def path? : Fault → Option String
  | unreachableEntity _ _ _ path => some path
  | unknownField entity field => some (entity ++ "." ++ field)
  | typeMismatch path _ => some path
  | cyclicReference cycle => cycle.head?
  | ambiguousJoin source target _ => some (source ++ "." ++ target)
  | fingerprint entity _ => some entity
  | _ => none

end Fault

end MetricLayer
