import MetricLayer.Json.Record

/-!
# Settings

How paths may be walked, and what the review of a plan looks at and rejects. Every setting has a
value of its own when none is written.
-/

namespace MetricLayer

/-- How paths may be walked. -/
structure WalkRules where
  /-- The greatest number of segments of a path. -/
  maxDepth : Nat := 8
  /-- Whether a join may be crossed from its target to the entity that declares it. -/
  reverseJoins : Bool := true
  deriving DecidableEq, Repr

/-- Which diagnostics reject a plan. -/
inductive Policy where
  /-- Fatal ones. -/
  | fatal
  /-- Any. -/
  | any
  deriving DecidableEq, Repr

namespace Policy

def all : List Policy := [fatal, any]

def name : Policy → String
  | fatal => "fatal"
  | any => "any"

end Policy

/-- What the review of a plan looks at and rejects. -/
structure ReviewRules where
  policy : Policy := .fatal
  /-- Whether ambiguous joins are reported. -/
  ambiguousJoins : Bool := true
  /-- Whether cycles of inclusions around the plan's entity are reported. -/
  includeCycles : Bool := true
  deriving DecidableEq, Repr

/-- All settings. -/
structure Settings where
  walk : WalkRules := {}
  review : ReviewRules := {}
  deriving DecidableEq, Repr

/-! ## Settings as JSON -/

namespace WalkRules

def toJson (w : WalkRules) : Json :=
  .object
    [("max_path_depth", .ofNat w.maxDepth), ("allow_reverse_joins", .bool w.reverseJoins)]

def ofJson? (x : Json) : Option WalkRules := do
  let f ← x.fields? ["max_path_depth", "allow_reverse_joins"]
  let default : WalkRules := {}
  let maxDepth ← f.withDefault "max_path_depth" (Json.asNat? (UInt64.size - 1)) default.maxDepth
  let reverseJoins ← f.withDefault "allow_reverse_joins" Json.asBool? default.reverseJoins
  return { maxDepth, reverseJoins }

end WalkRules

namespace ReviewRules

def toJson (r : ReviewRules) : Json :=
  .object
    [("rejection", .string r.policy.name), ("report_ambiguous_joins", .bool r.ambiguousJoins),
      ("check_include_cycles", .bool r.includeCycles)]

def ofJson? (x : Json) : Option ReviewRules := do
  let f ← x.fields? ["rejection", "report_ambiguous_joins", "check_include_cycles"]
  let default : ReviewRules := {}
  let policy ←
    f.withDefault "rejection" (fun x => x.variant?.bind (Json.ofName? Policy.all Policy.name))
      default.policy
  let ambiguousJoins ← f.withDefault "report_ambiguous_joins" Json.asBool? default.ambiguousJoins
  let includeCycles ← f.withDefault "check_include_cycles" Json.asBool? default.includeCycles
  return { policy, ambiguousJoins, includeCycles }

end ReviewRules

namespace Settings

def toJson (s : Settings) : Json :=
  .object [("compiler", s.walk.toJson), ("validator", s.review.toJson)]

/-- Reads settings; a section or a key that is not written keeps its own value. -/
def ofJson? (x : Json) : Option Settings := do
  let f ← x.fields? ["compiler", "validator"]
  let walk ← f.withDefault "compiler" WalkRules.ofJson? {}
  let review ← f.withDefault "validator" ReviewRules.ofJson? {}
  return { walk, review }

end Settings

end MetricLayer
