import MetricLayer.Measure.Aggregation
import Mathlib.Logic.Basic

/-!
# What is inferred from operands

A measure that declares no aggregation is an aggregate call over operands that it may cover, or it
combines measures outside of any call and takes the aggregation that they share. These rules, stated
of any set of operands (`Aggregation.Infers`), are those that the checks of a list of operands
implement (`Aggregation.inferred_ok_iff`).
-/

namespace MetricLayer

open Schema

theorem eraseDups_eq_singleton_iff {α : Type} [BEq α] [LawfulBEq α] {xs : List α} {a : α} :
    xs.eraseDups = [a] ↔ xs ≠ [] ∧ ∀ x ∈ xs, x = a := by
  constructor
  · intro h
    refine ⟨fun hnil => by simp [hnil] at h, fun x hx => ?_⟩
    rwa [← List.mem_eraseDups, h, List.mem_singleton] at hx
  · rintro ⟨hne, hall⟩
    obtain ⟨x, xs, rfl⟩ := List.exists_cons_of_ne_nil hne
    obtain ⟨rfl, hrest⟩ := List.forall_mem_cons.1 hall
    have hnone : (xs.filter fun y => !y == x) = [] :=
      List.filter_eq_nil_iff.2 fun y hy => by simp [hrest y hy]
    rw [List.eraseDups_cons, hnone, List.eraseDups_nil]

theorem Reference.fansOut_eq_false_iff {ref : Reference} : ref.fansOut = false ↔
    ∀ c ∈ ref.crossings, c.cardinality ≠ .oneToMany ∧ c.cardinality ≠ .manyToMany := by
  rw [fansOut, List.any_eq_false]
  refine forall₂_congr fun c _ => ?_
  cases c.cardinality <;> simp [Cardinality.causesFanout]

/-! ## The rules -/

namespace Aggregation

/-- All measures among the operands, of which there are some, have one aggregation. -/
structure SharedBy (O : Operand → Prop) (kind : Aggregation) : Prop where
  nonempty : ∃ ref n, O (.measure ref n)
  eq : ∀ ref n, O (.measure ref n) → n.aggregation = kind

/-- An aggregate call may stand around the operands: a call of an additive kind goes over additive
measures only, and one of any other kind over none; numbers are summed and averaged. -/
structure Covers (kind : Aggregation) (O : Operand → Prop) : Prop where
  additive : ∀ ref n, O (.measure ref n) →
    kind.isAdditive = true ∧ n.aggregation.isAdditive = true
  numeric : kind = .sum ∨ kind = .avg → ∀ o, O o → o.valueType = .number

/-- The operands may stand outside of any aggregate call: they are measures, and no relationship
repeats one that is not additive. -/
structure Combines (O : Operand → Prop) : Prop where
  measures : ∀ ref valueType, ¬ O (.dimension ref valueType)
  unrepeated : ∀ ref n, O (.measure ref n) → n.aggregation.isAdditive = false →
    ∀ c ∈ ref.crossings, c.cardinality ≠ .oneToMany ∧ c.cardinality ≠ .manyToMany

/-- The aggregation of a text over operands: that of the aggregate call which the text consists of,
or else the one that all measures among the operands share, or `custom` if there is none. -/
inductive Infers (sql : Option String) (O : Operand → Prop) : Aggregation → Prop where
  | call {kind : Aggregation} : sql.bind Expression.topLevelAggregate? = some kind →
      Covers kind O → Infers sql O kind
  | shared {kind : Aggregation} : sql.bind Expression.topLevelAggregate? = none → sql ≠ none →
      Combines O → SharedBy O kind → Infers sql O kind
  | mixed : sql.bind Expression.topLevelAggregate? = none → sql ≠ none →
      Combines O → (∀ kind, ¬ SharedBy O kind) → Infers sql O .custom

variable {sql : Option String} {O : Operand → Prop} {operands : List Operand}
  {kind call : Aggregation} {measures : List (Reference × MeasureNode)} {ref : Reference}
  {n : MeasureNode}

theorem infers_of_call (hcall : sql.bind Expression.topLevelAggregate? = some call) :
    Infers sql O kind ↔ kind = call ∧ Covers call O := by
  constructor
  · intro h
    cases h with
    | call hkind hcovers =>
      obtain rfl := Option.some.inj (hcall.symm.trans hkind)
      exact ⟨rfl, hcovers⟩
    | shared hnone _ _ _ => cases hcall.symm.trans hnone
    | mixed hnone _ _ _ => cases hcall.symm.trans hnone
  · rintro ⟨rfl, hcovers⟩
    exact .call hcall hcovers

theorem infers_of_noCall (hcall : sql.bind Expression.topLevelAggregate? = none) :
    Infers sql O kind ↔ sql ≠ none ∧ Combines O ∧
      (SharedBy O kind ∨ (∀ k, ¬ SharedBy O k) ∧ kind = .custom) := by
  constructor
  · intro h
    cases h with
    | call hkind _ => cases hcall.symm.trans hkind
    | shared _ hsql hcombines hshared => exact ⟨hsql, hcombines, Or.inl hshared⟩
    | mixed _ hsql hcombines hnone => exact ⟨hsql, hcombines, Or.inr ⟨hnone, rfl⟩⟩
  · rintro ⟨hsql, hcombines, hshared | ⟨hnone, rfl⟩⟩
    · exact .shared hcall hsql hcombines hshared
    · exact .mixed hcall hsql hcombines hnone

/-- What is inferred over a measure that is not additive is not additive, and no relationship
repeats the measure. -/
theorem Infers.not_additive (h : Infers sql O kind) (hn : O (.measure ref n))
    (hadditive : n.aggregation.isAdditive = false) :
    ref.fansOut = false ∧ kind.isAdditive = false := by
  cases h with
  | call _ hcovers =>
    -- a call around the measure would have been refused
    rw [(hcovers.additive ref n hn).2] at hadditive
    cases hadditive
  | shared _ _ hcombines hshared =>
    rw [← hshared.eq ref n hn]
    exact ⟨Reference.fansOut_eq_false_iff.2 (hcombines.unrepeated ref n hn hadditive), hadditive⟩
  | mixed _ _ hcombines _ =>
    exact ⟨Reference.fansOut_eq_false_iff.2 (hcombines.unrepeated ref n hn hadditive), rfl⟩

/-! ## The checks -/

theorem mem_measuresOf_iff :
    (ref, n) ∈ measuresOf operands ↔ .measure ref n ∈ operands := by
  rw [measuresOf, List.mem_filterMap]
  constructor
  · rintro ⟨o, ho, hmeasure⟩
    cases o <;> cases hmeasure
    exact ho
  · exact fun ho => ⟨_, ho, rfl⟩

theorem forall_mem_measuresOf_iff {P : Reference → MeasureNode → Prop} :
    (∀ s ∈ measuresOf operands, P s.1 s.2) ↔ ∀ ref n, .measure ref n ∈ operands → P ref n := by
  rw [Prod.forall]
  exact forall₂_congr fun ref n => imp_congr_left mem_measuresOf_iff

theorem dimensionsOf_eq_nil_iff :
    dimensionsOf operands = [] ↔ ∀ ref valueType, .dimension ref valueType ∉ operands := by
  rw [dimensionsOf, List.filterMap_eq_nil_iff]
  constructor
  · intro h ref valueType ho
    cases h _ ho
  · intro h o ho
    cases o with
    | dimension ref valueType => exact absurd ho (h ref valueType)
    | measure ref n => rfl

theorem nestedConflict?_eq_none_iff : nestedConflict? kind measures = none ↔
    ∀ s ∈ measures, kind.isAdditive = true ∧ s.2.aggregation.isAdditive = true := by
  rw [nestedConflict?, Option.map_eq_none_iff, List.find?_eq_none]
  simp only [Bool.not_eq_true', Bool.not_eq_false, Bool.and_eq_true]

theorem fanoutConflict?_eq_none_iff : fanoutConflict? measures = none ↔
    ∀ s ∈ measures, s.2.aggregation.isAdditive = false → s.1.fansOut = false := by
  rw [fanoutConflict?, Option.map_eq_none_iff, List.find?_eq_none]
  refine forall₂_congr fun s _ => ?_
  rw [Bool.and_eq_true, Bool.not_eq_true', not_and', Bool.not_eq_true]

theorem rowConflict?_eq_none_iff {dimensions : List Reference} :
    rowConflict? dimensions measures = none ↔ dimensions = [] := by
  unfold rowConflict?
  cases dimensions with
  | nil => simp
  | cons d ds => cases measures <;> simp

theorem numericConflict?_eq_none_iff : numericConflict? kind operands = none ↔
    (kind = .sum ∨ kind = .avg → ∀ o ∈ operands, o.valueType = .number) := by
  have hnumeric : ∀ t : ValueType, t.isNumeric = true ↔ t = .number := by
    intro t
    cases t <;> simp [ValueType.isNumeric]
  have hrequires : kind.requiresNumericInput = true ↔ kind = .sum ∨ kind = .avg := by
    cases kind <;> simp [Schema.Aggregation.requiresNumericInput]
  unfold numericConflict?
  rw [← hrequires]
  split
  · next hkind => simp [hkind, ← hnumeric]
  · next hkind => simp [hkind]

theorem covers_iff : Covers kind (· ∈ operands) ↔
    (nestedConflict? kind (measuresOf operands)).or (numericConflict? kind operands) = none := by
  rw [Option.or_eq_none_iff, nestedConflict?_eq_none_iff, forall_mem_measuresOf_iff
    (P := fun _ n => kind.isAdditive = true ∧ n.aggregation.isAdditive = true),
    numericConflict?_eq_none_iff]
  exact ⟨fun h => ⟨h.additive, h.numeric⟩, fun h => ⟨h.1, h.2⟩⟩

theorem combines_iff : Combines (· ∈ operands) ↔
    (rowConflict? (dimensionsOf operands) (measuresOf operands)).or
      (fanoutConflict? (measuresOf operands)) = none := by
  rw [Option.or_eq_none_iff, rowConflict?_eq_none_iff, dimensionsOf_eq_nil_iff,
    fanoutConflict?_eq_none_iff, forall_mem_measuresOf_iff
      (P := fun ref n => n.aggregation.isAdditive = false → ref.fansOut = false)]
  simp only [Reference.fansOut_eq_false_iff]
  exact ⟨fun h => ⟨h.measures, h.unrepeated⟩, fun h => ⟨h.1, h.2⟩⟩

theorem sharedBy_iff : SharedBy (· ∈ operands) kind ↔
    ((measuresOf operands).map fun s => s.2.aggregation).eraseDups = [kind] := by
  rw [eraseDups_eq_singleton_iff, List.forall_mem_map, forall_mem_measuresOf_iff
    (P := fun _ n => n.aggregation = kind), ne_eq, List.map_eq_nil_iff]
  have hnonempty : measuresOf operands ≠ [] ↔ ∃ ref n, .measure ref n ∈ operands := by
    simp only [ne_eq, List.eq_nil_iff_forall_not_mem, not_forall, not_not, Prod.exists,
      mem_measuresOf_iff]
  rw [← ne_eq, hnonempty]
  exact ⟨fun h => ⟨h.nonempty, h.eq⟩, fun h => ⟨h.1, h.2⟩⟩

/-- The measures among operands have in common what they share, or else `custom`. -/
theorem common_eq_iff : common (measuresOf operands) = kind ↔
    SharedBy (· ∈ operands) kind ∨ (∀ k, ¬ SharedBy (· ∈ operands) k) ∧ kind = .custom := by
  simp only [sharedBy_iff]
  unfold common
  split
  · next k hkinds =>
    rw [hkinds]
    simp [eq_comm]
  · next hkinds =>
    constructor
    · exact fun h => Or.inr ⟨hkinds, h.symm⟩
    · rintro (h | ⟨-, h⟩)
      · exact absurd h (hkinds kind)
      · exact h.symm

/-- **The rules are those of the checks.** What is inferred from a list of operands is what the
rules give. -/
theorem inferred_ok_iff : inferred sql operands = .ok kind ↔ Infers sql (· ∈ operands) kind := by
  unfold inferred
  cases hcall : sql.bind Expression.topLevelAggregate? with
  | some call =>
    dsimp only
    rw [infers_of_call hcall, covers_iff]
    cases (nestedConflict? call (measuresOf operands)).or (numericConflict? call operands) <;>
      simp [eq_comm]
  | none =>
    dsimp only
    rw [infers_of_noCall hcall, combines_iff, ← common_eq_iff]
    cases sql with
    | none => simp
    | some text =>
      cases (rowConflict? (dimensionsOf operands) (measuresOf operands)).or
          (fanoutConflict? (measuresOf operands)) <;> simp

theorem inferred_of_singleton (hcall : sql.bind Expression.topLevelAggregate? = none)
    (h : inferred sql [.measure ref n] = .ok kind) : kind = n.aggregation := by
  have hshared : SharedBy (· ∈ [.measure ref n]) n.aggregation := by
    refine ⟨⟨ref, n, List.mem_singleton_self _⟩, fun ref' n' ho => ?_⟩
    cases List.mem_singleton.1 ho
    rfl
  obtain ⟨-, -, hkind | ⟨hnone, -⟩⟩ := (infers_of_noCall hcall).1 (inferred_ok_iff.1 h)
  · exact (hkind.eq ref n (List.mem_singleton_self _)).symm
  · exact absurd hshared (hnone _)

end Aggregation

end MetricLayer
