import MetricLayer.Proofs.Expression.StringLiteral
import MetricLayer.Proofs.Number.Grammar
import MetricLayer.Proofs.Outcome.MeasureFilters

/-!
# Numbers that are not finite

What stands for a value in a condition is a SQL string, a truth value, a finite decimal, or the text
of a number that is not finite: a word such as `nan`, or a decimal beyond the largest finite number.
The last is taken up like any other number, and written as `null` in the plan
(`Compiler.compile_numbers`, `Compiler.compile_numbers_null`).
-/

namespace MetricLayer

open Schema

/-! ## Literals in documents -/

namespace Schema.Literal

/-- A number that is infinite or not-a-number. -/
def IsNonFinite (v : Literal) : Prop := ∃ x, v = .number x ∧ x.isFinite = false

/-- The literals that are written as `null` are the numbers that are not finite. -/
theorem leafText_toJson_iff {v : Literal} :
    v.toJson.leafText = "null".toList ↔ v.IsNonFinite := by
  cases v with
  | bool b =>
    refine iff_of_false ?_ (by simp [IsNonFinite])
    cases b <;> decide
  | string s =>
    refine iff_of_false ?_ (by simp [IsNonFinite])
    simp [toJson, Json.leafText, Json.quoted]
  | number x =>
    cases hx : x.isFinite with
    | true =>
      obtain ⟨c, cs, htext, hc⟩ := Binary64.head_text NumberStyle.writesNumerals_json hx
      refine iff_of_false ?_ (by simp [IsNonFinite, hx])
      rw [toJson, Json.leafText, htext]
      rintro ⟨⟩
      revert hc
      decide
    | false =>
      refine iff_of_true ?_ ⟨x, rfl, hx⟩
      cases x <;> first | rfl | cases hx

end Schema.Literal

/-! ## Literals in conditions -/

namespace Expression

open Numeral

variable {cs text : List Char} {v : Literal}

/-- The texts that literals are read from. -/
inductive LiteralText : List Char → Literal → Prop where
  | string (inner : List Char) :
    LiteralText ('\'' :: (inner ++ ['\'']))
      (.string (String.ofList (Literal.halveQuotes inner)))
  | truth {cs : List Char} (b : Bool) :
    lower cs = (if b then "true" else "false").toList → LiteralText cs (.bool b)
  | finite {cs : List Char} {x : Binary64} : Signed Bounded cs → x.isFinite = true →
    LiteralText cs (.number x)
  | nonFinite {cs : List Char} {x : Binary64} : Signed Unbounded cs → x.isFinite = false →
    LiteralText cs (.number x)

theorem literalText_of_literal (h : literal text = .ok v) : LiteralText (Text.trim text) v := by
  unfold literal at h
  dsimp only at h
  cases hb : between? '\'' '\'' (Text.trim text) with
  | some inner =>
    simp only [hb, Except.ok.injEq] at h
    rw [between?_eq_some_iff.1 hb, ← h]
    exact .string inner
  | none =>
    simp only [hb, ofList_eq_iff] at h
    split_ifs at h with htrue hfalse
    · cases h
      exact .truth true htrue
    · cases h
      exact .truth false hfalse
    · cases hread : read? (Text.trim text) with
      | none => simp [hread] at h
      | some x =>
        simp only [hread, Except.ok.injEq] at h
        rw [← h]
        cases hx : x.isFinite with
        | true => exact .finite (read?_finite_iff.1 ⟨x, hread, hx⟩) hx
        | false => exact .nonFinite (read?_nonFinite_iff.1 ⟨x, hread, hx⟩) hx

theorem exists_literal_of_literalText (h : LiteralText (Text.trim text) v) :
    ∃ v, literal text = .ok v := by
  have hnumber : (∃ x, read? (Text.trim text) = some x) → ∃ v, literal text = .ok v := by
    rintro ⟨x, hx⟩
    unfold literal
    dsimp only
    split
    · exact ⟨_, rfl⟩
    · simp only [hx]
      split_ifs <;> exact ⟨_, rfl⟩
  generalize hcs : Text.trim text = cs at h
  cases h with
  | string inner => exact ⟨_, literal_eq_string_iff.2 ⟨inner, hcs, rfl⟩⟩
  | truth b hlower =>
    unfold literal
    dsimp only
    split
    · exact ⟨_, rfl⟩
    · simp only [ofList_eq_iff, hcs, hlower]
      cases b <;> exact ⟨_, rfl⟩
  | finite hbounded _ =>
    obtain ⟨x, hx, -⟩ := read?_finite_iff.2 hbounded
    exact hnumber ⟨x, hcs ▸ hx⟩
  | nonFinite hunbounded _ =>
    obtain ⟨x, hx, -⟩ := read?_nonFinite_iff.2 hunbounded
    exact hnumber ⟨x, hcs ▸ hx⟩

/-- A text is of one kind: what is read as no finite number is no string, truth value or finite
number. -/
theorem LiteralText.isNonFinite_iff (h : LiteralText cs v) :
    v.IsNonFinite ↔ Signed Unbounded cs := by
  constructor
  · rintro ⟨x, rfl, hx⟩
    cases h with
    | finite _ hfinite =>
      rw [hx] at hfinite
      cases hfinite
    | nonFinite hcs _ => exact hcs
  · intro hcs
    obtain ⟨x, hread, hx⟩ := read?_nonFinite_iff.2 hcs
    cases h with
    | string inner =>
      rw [read?_of_quote] at hread
      cases hread
    | truth b hlower =>
      rw [read?_of_word hlower (by cases b <;> decide) (by cases b <;> decide)] at hread
      cases hread
    | finite hbounded _ =>
      obtain ⟨y, hread', hy⟩ := read?_finite_iff.2 hbounded
      obtain rfl := Option.some.inj (hread.symm.trans hread')
      rw [hx] at hy
      cases hy
    | nonFinite _ hy => exact ⟨_, rfl, hy⟩

theorem literalTexts_of_readCondition {entity sql : String} {c : Condition}
    (h : readCondition entity sql = .ok c) :
    List.Forall₂ (fun text v => LiteralText (Text.trim text) v ∧
        (v.IsNonFinite ↔ Signed Unbounded (Text.trim text)))
      (sourceTexts sql c.operator) c.values :=
  (readCondition_ok h).imp fun _ _ hv =>
    ⟨literalText_of_literal hv, (literalText_of_literal hv).isNonFinite_iff⟩

end Expression

/-! ## Literals in plans -/

namespace Registry

variable {r : Registry} {rules : WalkRules} {entity sql : String} {origin : Origin} {p : Predicate}

theorem readCondition_of_filtered (h : r.filtered rules entity origin (.sql sql) = .ok p) :
    ∃ c, Expression.readCondition entity sql = .ok c ∧ p.operator = c.operator ∧
      p.values = c.values := by
  obtain ⟨q, hq, rfl⟩ := map_eq_ok_iff.1 h
  obtain ⟨c, hc, -, hop, hvalues, -, -⟩ := compileFilter_ok hq
  unfold Filter.condition at hc
  cases hread : Expression.readCondition entity sql with
  | error f => simp [hread] at hc
  | ok c' =>
    simp only [hread, Except.ok.injEq] at hc
    exact ⟨c', rfl, hc ▸ hop, hc ▸ hvalues⟩

end Registry

namespace Compiler

/-- **Numbers in conditions.** The texts that are read as literals are those of SQL strings, of
truth values, of finite decimals and of numbers that are not finite. Each literal of a condition is
read from such a text, and is a number that is not finite if and only if it is read from the text of
one. Where all filters of a request and of the own measures of its entity are SQL texts, the
literals that the plan writes as `null` are those. -/
theorem compile_numbers (c : Compiler) :
    (∀ text, (∃ v, Expression.literal text = .ok v) ↔
      ∃ v, Expression.LiteralText (Text.trim text) v) ∧
    (∀ entity sql condition, Expression.readCondition entity sql = .ok condition →
      List.Forall₂ (fun text v => Expression.LiteralText (Text.trim text) v ∧
          (v.IsNonFinite ↔ Numeral.Signed Numeral.Unbounded (Text.trim text)))
        (Expression.sourceTexts sql condition.operator) condition.values) ∧
    ∀ name e filters plan, c.registry.entity? name = some e →
      (∀ f ∈ e.measures.flatMap Measure.filters ++ filters, ∃ sql, f = .sql sql) →
      (c.compile name filters).plan = some plan → ∀ p ∈ plan.predicates,
        ∃ sql, .sql sql ∈ e.measures.flatMap Measure.filters ++ filters ∧
          List.Forall₂ (fun text v => v.toJson.leafText = "null".toList ↔
              Numeral.Signed Numeral.Unbounded (Text.trim text))
            (Expression.sourceTexts sql p.operator) p.values := by
  refine ⟨fun text => ⟨?_, ?_⟩,
    fun entity sql condition h => Expression.literalTexts_of_readCondition h,
    fun name e filters plan he hsql hplan p hp => ?_⟩
  · rintro ⟨v, hv⟩
    exact ⟨v, Expression.literalText_of_literal hv⟩
  · rintro ⟨v, hv⟩
    exact Expression.exists_literal_of_literalText hv
  obtain ⟨f, hf, origin, hfiltered⟩ := (accounts_compile he hplan).exists_filter hp
  obtain ⟨sql, rfl⟩ := hsql f hf
  obtain ⟨condition, hread, hop, hvalues⟩ := Registry.readCondition_of_filtered hfiltered
  refine ⟨sql, hf, ?_⟩
  rw [hop, hvalues]
  exact (Expression.literalTexts_of_readCondition hread).imp fun _ _ hv =>
    Literal.leafText_toJson_iff.trans hv.2

/-- The orders of a large amount. -/
theorem compile_numbers_bounded :
    let c : Compiler := { registry := Shop.registry }
    let filters := [Filter.sql (Shop.refer "amount" ++ " > 2.5e3")]
    c.registry.entity? "orders" = some Shop.orders ∧
      (∀ f ∈ Shop.orders.measures.flatMap Measure.filters ++ filters, ∃ sql, f = .sql sql) ∧
      ∃ plan, (c.compile "orders" filters).plan = some plan ∧ plan.predicates ≠ [] ∧
        ∀ p ∈ plan.predicates, ∃ sql,
          .sql sql ∈ Shop.orders.measures.flatMap Measure.filters ++ filters ∧
            List.Forall₂ (fun text v => v.toJson.leafText = "null".toList ↔
                Numeral.Signed Numeral.Unbounded (Text.trim text))
              (Expression.sourceTexts sql p.operator) p.values := by
  intro c filters
  have he : c.registry.entity? "orders" = some Shop.orders := by decide +kernel
  have hsql : ∀ f ∈ Shop.orders.measures.flatMap Measure.filters ++ filters,
      ∃ sql, f = .sql sql := by
    intro f hf
    have hall : Shop.orders.measures.flatMap Measure.filters ++ filters = filters := rfl
    rw [hall, List.mem_singleton] at hf
    exact ⟨_, hf⟩
  have hcount : (c.compile "orders" filters).plan.map (fun plan => plan.predicates.length) =
      some 1 := by decide +kernel
  obtain ⟨plan, hplan, hlength⟩ := Option.map_eq_some_iff.1 hcount
  refine ⟨he, hsql, plan, hplan, ?_, (compile_numbers c).2.2 _ _ _ plan he hsql hplan⟩
  exact List.ne_nil_of_length_pos (hlength ▸ Nat.zero_lt_one)

/-- A word is read as a number that is not finite. A decimal beyond the largest finite number is
taken up in an accepted plan, which writes it as `null`. -/
theorem compile_numbers_null :
    let c : Compiler := { registry := Shop.registry }
    let filters := [Filter.sql (Shop.refer "users.id" ++ " < 1e999")]
    (∃ condition x, Expression.readCondition "orders" (Shop.refer "x" ++ " = nan") =
        .ok condition ∧ .number x ∈ condition.values ∧ x.isFinite = false) ∧
      (c.compile "shop" filters).state = .accepted ∧
      ∃ plan, (c.compile "shop" filters).plan = some plan ∧
        ∃ p ∈ plan.predicates, ∃ v ∈ p.values, v.toJson.leafText = "null".toList := by
  intro c filters
  have hread : Expression.readCondition "orders" (Shop.refer "x" ++ " = nan") =
      .ok ⟨"x", .equals, [.number .nan]⟩ := by decide +kernel
  have hvalues : (c.compile "shop" filters).plan.map
      (fun plan => plan.predicates.map Predicate.values) =
        some [[.number (.infinite false)]] := by decide +kernel
  obtain ⟨plan, hplan, hlisted⟩ := Option.map_eq_some_iff.1 hvalues
  obtain ⟨p, hp, hvalue⟩ := List.map_eq_singleton_iff.1 hlisted
  refine ⟨⟨_, .nan, hread, List.mem_singleton_self _, rfl⟩, by decide +kernel, plan, hplan, p,
    hp ▸ List.mem_singleton_self p, .number (.infinite false), ?_, rfl⟩
  rw [hvalue]
  exact List.mem_singleton_self _

end Compiler

end MetricLayer
