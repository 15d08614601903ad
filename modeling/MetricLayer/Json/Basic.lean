import MetricLayer.Number.Decimal

/-!
# JSON values

A document as it was written: members keep their order and their repetitions, and whole numbers of
ordinary size are kept apart from numbers with a fraction or an exponent. Text that follows the
grammar without denoting a value, a number beyond the finite doubles or a string with half of a
surrogate pair, is the value `broken`, which a reader of data may skip but never accepts.
-/

namespace MetricLayer

/-- A JSON value. -/
inductive Json where
  | null
  | bool (b : Bool)
  /-- A number written without fraction and exponent, with its sign. -/
  | integer (negative : Bool) (size : Nat)
  /-- A number written with a fraction or an exponent, or too large for 64 bits. -/
  | real (x : Binary64)
  | string (s : String)
  | array (items : List Json)
  | object (members : List (String × Json))
  /-- Text that follows the grammar and denotes no value. -/
  | broken
  deriving Repr, Inhabited

namespace Json

/-- A whole number as a JSON value. -/
def ofNat (n : Nat) : Json := integer false n

/-- A list of strings as a JSON value. -/
def ofStrings (xs : List String) : Json := array (xs.map string)

/-- A string, or null for none. -/
def ofOption (x : Option String) : Json :=
  match x with
  | some s => string s
  | none => null

/-- How many arrays and objects are open at once at the deepest place of a value. -/
def depth : Json → Nat
  | array items => depthOfItems items + 1
  | object members => depthOfMembers members + 1
  | _ => 0
where
  depthOfItems : List Json → Nat
    | [] => 0
    | x :: xs => max x.depth (depthOfItems xs)
  depthOfMembers : List (String × Json) → Nat
    | [] => 0
    | (_, x) :: xs => max x.depth (depthOfMembers xs)

/-- Whether no part of a value is broken. -/
def isWhole : Json → Bool
  | broken => false
  | array items => wholeItems items
  | object members => wholeMembers members
  | _ => true
where
  wholeItems : List Json → Bool
    | [] => true
    | x :: xs => x.isWhole && wholeItems xs
  wholeMembers : List (String × Json) → Bool
    | [] => true
    | (_, x) :: xs => x.isWhole && wholeMembers xs

end Json

end MetricLayer
