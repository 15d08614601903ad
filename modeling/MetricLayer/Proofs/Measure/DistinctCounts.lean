import MetricLayer.Proofs.Expression.Calls
import MetricLayer.Proofs.Measure.Additivity

/-!
# Counts of distinct values

A count whose arguments begin with the word `distinct` counts different values, which are not added
up again. The word is read where a blank follows it. Where any other character does, a parenthesis
or a dollar sign for instance, the same words are taken for a plain count, whose results are added
up (`Registry.compileMeasure_distinct`, `Registry.compileMeasure_distinct_unread`).
-/

namespace MetricLayer

open Schema

/-! ## The first word of the arguments -/

namespace Expression

variable {cs name arguments : List Char}

/-- The first word of a text: letters, digits and underscores behind the blanks it begins with. -/
def firstWord (cs : List Char) : List Char := (Text.dropBlanks cs).takeWhile isNameChar

/-- What follows the first word of a text. -/
def afterFirstWord (cs : List Char) : List Char := (Text.dropBlanks cs).dropWhile isNameChar

/-- A blank follows the first word of a text. -/
def BlankAfterFirstWord (cs : List Char) : Prop :=
  ∃ c rest, afterFirstWord cs = c :: rest ∧ Text.isBlank c = true

theorem beginsDistinct_iff (h : Numeral.lower (firstWord cs) = "distinct".toList) :
    beginsDistinct cs = true ↔ BlankAfterFirstWord cs := by
  have hsplit : Text.dropBlanks cs = firstWord cs ++ afterFirstWord cs :=
    List.takeWhile_append_dropWhile.symm
  unfold beginsDistinct BlankAfterFirstWord
  rw [hsplit, dropWord?_append h, Option.bind_some]
  cases afterFirstWord cs with
  | nil => simp [dropBlanks1?]
  | cons c rest =>
    rw [dropBlanks1?]
    split
    · next hblank => exact iff_of_true rfl ⟨c, rest, rfl, hblank⟩
    · next hblank =>
      refine iff_of_false (by simp) ?_
      rintro ⟨_, _, heq, hc⟩
      cases heq
      exact hblank hc

theorem ofFunction?_count {distinct : Bool} (h : Numeral.lower name = "count".toList) :
    Aggregation.ofFunction? (String.ofList name) distinct =
      some (if distinct then .countDistinct else .count) := by
  have hlower : String.ofList ((String.ofList name).toList.map Char.toLower) = "count" := by
    rw [String.toList_ofList]
    exact congrArg String.ofList h
  unfold Aggregation.ofFunction?
  rw [if_pos hlower]

end Expression

/-! ## Counts -/

namespace Registry

variable {r : Registry} {rules : WalkRules} {entity sql : String} {m : Measure}
  {node : MeasureNode} {call : Aggregation} {name arguments : List Char}

/-- An undeclared measure that consists of an aggregate call has the aggregation of that call, if it
compiles. -/
theorem aggregation_of_call (hdeclared : m.declared = none)
    (hcall : m.sql.bind Expression.topLevelAggregate? = some call)
    (hnode : (r.compileMeasure rules entity m []).1 = .ok node) : node.aggregation = call := by
  rw [compileMeasure_nil] at hnode
  obtain ⟨operands, hassemble, -⟩ := defineAfresh_ok (compileMeasureAfresh_ok_iff.1 hnode)
  have hinferred := inferred_of_assemble hdeclared hassemble
  exact ((Aggregation.infers_of_call hcall).1 (Aggregation.inferred_ok_iff.1 hinferred)).1

/-- **Counts of distinct values.** An undeclared measure that is one count, the first word of whose
arguments is `distinct`, counts different values if a blank follows that word, and all values if
anything else does; the one is not additive, and the other is. -/
theorem compileMeasure_distinct (hdeclared : m.declared = none) (hsql : m.sql = some sql)
    (hcall : Expression.IsCall name arguments sql.toList)
    (hcount : Numeral.lower name = "count".toList)
    (hdistinct : Numeral.lower (Expression.firstWord arguments) = "distinct".toList)
    (hnode : (r.compileMeasure rules entity m []).1 = .ok node) :
    (Expression.BlankAfterFirstWord arguments →
        node.aggregation = .countDistinct ∧ node.aggregation.isAdditive = false) ∧
      (¬ Expression.BlankAfterFirstWord arguments →
        node.aggregation = .count ∧ node.aggregation.isAdditive = true) := by
  have hkind : m.sql.bind Expression.topLevelAggregate? =
      some (if Expression.beginsDistinct arguments then .countDistinct else .count) := by
    rw [hsql, Option.bind_some, Expression.topLevelAggregate?_of_isCall hcall,
      Expression.ofFunction?_count hcount]
  rw [aggregation_of_call hdeclared hkind hnode, ← Expression.beginsDistinct_iff hdistinct]
  constructor
  · intro hblank
    rw [if_pos hblank]
    exact ⟨rfl, rfl⟩
  · intro hnone
    rw [if_neg hnone]
    exact ⟨rfl, rfl⟩

end Registry

namespace Shop

/-- How many countries orders went to, by a given text. -/
def reachedCountries (sql : String) : Measure where
  name := "reached_countries"
  sql := some sql

end Shop

/-- With a blank behind the word, different countries are counted. -/
theorem Registry.compileMeasure_distinct_countries :
    let arguments := "Distinct " ++ Shop.refer "users.country"
    let m := Shop.reachedCountries ("COUNT(" ++ arguments ++ ")")
    m.declared = none ∧
      Expression.IsCall "COUNT".toList arguments.toList ("COUNT(" ++ arguments ++ ")").toList ∧
      Numeral.lower (Expression.firstWord arguments.toList) = "distinct".toList ∧
      Expression.BlankAfterFirstWord arguments.toList ∧
      ∃ node, (Shop.registry.compileMeasure {} "orders" m []).1 = .ok node ∧
        node.aggregation = .countDistinct ∧ node.aggregation.isAdditive = false := by
  intro arguments m
  have hcall : Expression.IsCall "COUNT".toList arguments.toList
      ("COUNT(" ++ arguments ++ ")").toList := ⟨by decide +kernel, [], rfl, by decide +kernel⟩
  have hword : Numeral.lower (Expression.firstWord arguments.toList) = "distinct".toList := by
    decide +kernel
  have hblank : Expression.BlankAfterFirstWord arguments.toList :=
    ⟨' ', (Shop.refer "users.country").toList, by decide +kernel, rfl⟩
  have hcompiles : (Shop.registry.compileMeasure {} "orders" m []).1.toOption.isSome = true := by
    decide +kernel
  obtain ⟨node, hnode⟩ := Option.isSome_iff_exists.1 hcompiles
  have hok := toOption_eq_some_iff.1 hnode
  obtain ⟨hcounts, -⟩ := compileMeasure_distinct rfl rfl hcall rfl hword hok
  exact ⟨rfl, hcall, hword, hblank, node, hok, hcounts hblank⟩

/-- With a parenthesis behind the word, orders are counted, once for each country that they went to
or not, and the counts are added up. -/
theorem Registry.compileMeasure_distinct_unread :
    let arguments := "DISTINCT(" ++ Shop.refer "users.country" ++ ")"
    let m := Shop.reachedCountries ("COUNT(" ++ arguments ++ ")")
    m.declared = none ∧
      Expression.IsCall "COUNT".toList arguments.toList ("COUNT(" ++ arguments ++ ")").toList ∧
      Numeral.lower (Expression.firstWord arguments.toList) = "distinct".toList ∧
      ∃ node, (Shop.registry.compileMeasure {} "orders" m []).1 = .ok node ∧
        node.aggregation ≠ .countDistinct ∧ node.aggregation.isAdditive = true := by
  intro arguments m
  have hcall : Expression.IsCall "COUNT".toList arguments.toList
      ("COUNT(" ++ arguments ++ ")").toList := ⟨by decide +kernel, [], rfl, by decide +kernel⟩
  have hcompiles : (Shop.registry.compileMeasure {} "orders" m []).1.toOption.map
      MeasureNode.aggregation = some .count := by decide +kernel
  obtain ⟨node, hnode, hkind⟩ := Option.map_eq_some_iff.1 hcompiles
  refine ⟨rfl, hcall, by decide +kernel, node, toOption_eq_some_iff.1 hnode, ?_, ?_⟩
  · rw [hkind]
    decide
  · rw [hkind]
    rfl

end MetricLayer
