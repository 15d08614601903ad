import MetricLayer.Proofs.Outcome.Accounting
import MetricLayer.Proofs.Measure.References

/-!
# The fields that a plan requires

A plan requires the fields that its columns show, that its measures refer to and that its predicates
compare, and no others: each part that is pushed adds its own (`Plan.Exact`). So a plan requires
every field that an own measure of its entity reads, as far as the compiled measure refers to it. A
measure that is declared a number and takes the values of other measures does not refer to the
dimensions beside them, and the plan may lack these (`compile_reads`, `compile_reads_unlisted`).
-/

namespace MetricLayer

open Schema

namespace Plan

variable {p : Plan} {field : String}

/-- A field that a column shows, that a measure refers to, or that a predicate compares. -/
def Reads (p : Plan) (field : String) : Prop :=
  (∃ c ∈ p.columns, columnField p.entity c = field) ∨
    (∃ n ∈ p.measures, ∃ ref ∈ n.references, ref.qualifiedName = field) ∨
    ∃ f ∈ p.predicates, f.operand.qualifiedName = field

/-- A plan that requires the fields that its parts read and no others. -/
def Exact (p : Plan) : Prop := ∀ field, field ∈ p.requiredFields ↔ p.Reads field

theorem exact_empty (entity : String) (kind : EntityKind) (isPublic : Bool) :
    Exact { entity, kind, isPublic } := by
  intro field
  simp [Reads, predicates]

theorem Exact.pushColumn (h : p.Exact) (c : Column) : (p.pushColumn c).Exact := by
  intro field
  simp only [Plan.pushColumn, FieldSet.mem_insert, h field, Reads, predicates, List.mem_append,
    List.mem_singleton]
  grind

theorem Exact.pushMeasure (h : p.Exact) (n : MeasureNode) : (p.pushMeasure n).Exact := by
  intro field
  simp only [Plan.pushMeasure, FieldSet.mem_insertAll, h field, Reads, predicates, List.mem_append,
    List.mem_singleton, List.mem_map]
  grind

theorem Exact.pushPredicate (h : p.Exact) (f : Predicate) : (p.pushPredicate f).Exact := by
  intro field
  unfold Plan.pushPredicate
  cases f.placement <;>
    simp only [FieldSet.mem_insert, h field, Reads, predicates, List.mem_append,
      List.mem_singleton] <;>
    grind

end Plan

/-! ## Drafts and fresh plans -/

namespace Draft

variable {r : Registry} {rules : WalkRules} {e : Entity} {filters : List Filter} {d : Draft}

theorem exact_take (h : d.plan.Exact) (context : String) (y : Except Fault Yield) :
    (d.take context y).plan.Exact := by
  rcases y with f | c | n | p
  · exact h
  · exact h.pushColumn c
  · exact h.pushMeasure n
  · exact h.pushPredicate p

theorem exact_add (hmemo : r.Faithful rules (Registry.Scope.around r rules e.name).holds d.memo)
    (h : d.plan.Exact) (part : Part) : (d.add r rules e part).plan.Exact := by
  obtain ⟨memo, hadd, -⟩ : ∃ memo, d.add r rules e part =
      { d.take (part.context e) (part.yield r rules e) with memo } ∧ _ := add_eq hmemo
  rw [hadd]
  exact exact_take h _ _

/-- The plan of a draft stays exact while parts are taken up: what is kept of compiled measures
stays faithful, so that each part adds what it yields on its own. -/
theorem exact_foldl {done parts : List Part} (hdrafted : Drafted r rules e d done)
    (h : d.plan.Exact) : (parts.foldl (add r rules e) d).plan.Exact := by
  induction parts generalizing d done with
  | nil => exact h
  | cons part rest ih => exact ih (hdrafted.step part) (exact_add hdrafted.faithful h part)

theorem exact_ofEntity : (ofEntity r rules e filters).plan.Exact := by
  rw [ofEntity_eq_foldl]
  exact exact_foldl drafted_start (Plan.exact_empty _ _ _)

end Draft

namespace Compiler

variable {c : Compiler} {name path : String} {e : Entity} {filters : List Filter} {plan : Plan}
  {m : Measure} {node : MeasureNode}

theorem exact_compile (he : c.registry.entity? name = some e)
    (hplan : (c.compile name filters).plan = some plan) : plan.Exact := by
  rw [plan_compile he, Option.some.injEq] at hplan
  exact hplan ▸ Draft.exact_ofEntity

/-- **Fields that a measure reads.** Each path in the text of an own measure resolves if the measure
is in the plan. The compiled measure refers to what it resolves to, and the plan requires that
field, unless the measure is reused and the path ends at a dimension. It is reused if it is declared
a number and one of its paths ends at a measure. -/
theorem compile_reads (he : c.registry.entity? name = some e)
    (hplan : (c.compile name filters).plan = some plan) (hm : m ∈ e.measures)
    (hnode : plan.measure? m.name = some node) :
    (node.isReused = true ↔ m.declared = some .number ∧
      ∃ path ∈ Registry.measurePaths name m, ∃ ref, c.resolve name path = .ok ref ∧
        ref.isMeasure = true) ∧
      ∀ path ∈ Registry.measurePaths name m, ∃ ref, c.resolve name path = .ok ref ∧
        (ref ∈ node.references ↔ (node.isReused = true → ref.isMeasure = true)) ∧
        (ref ∈ node.references → ref.qualifiedName ∈ plan.requiredFields) := by
  have hself := Registry.entity?_self he
  obtain rfl : e.name = name := Registry.entity?_name he
  have hfresh := (accounts_compile he hplan).freshMeasure?_of_measure? hself hm hnode
  have hdefine := Registry.compileMeasureAfresh_ok_iff.1
    (Registry.freshMeasure?_eq_some_iff.1 hfresh)
  refine ⟨Registry.isReused_of_defineAfresh hdefine, fun path hpath => ?_⟩
  obtain ⟨ref, hres, hmem⟩ := Registry.mem_references_of_defineAfresh hdefine hpath
  refine ⟨ref, hres, hmem, fun href => (exact_compile he hplan _).2 (Or.inr (Or.inl ?_))⟩
  exact ⟨node, List.mem_of_find?_eq_some hnode, ref, href, rfl⟩

/-- The revenue of a shop is a sum of amounts, and the plan of its orders requires the amount. -/
theorem compile_reads_amount :
    let c : Compiler := { registry := Shop.registry }
    let revenue : Measure :=
      { name := "revenue", sql := some ("SUM(" ++ Shop.refer "amount" ++ ")") }
    Shop.registry.entity? "orders" = some Shop.orders ∧ revenue ∈ Shop.orders.measures ∧
      ∃ plan node ref, (c.compile "orders" []).plan = some plan ∧
        plan.measure? "revenue" = some node ∧ c.resolve "orders" "amount" = .ok ref ∧
        ref ∈ node.references ∧ ref.qualifiedName ∈ plan.requiredFields := by
  intro c revenue
  have he : c.registry.entity? "orders" = some Shop.orders := by decide +kernel
  have hm : revenue ∈ Shop.orders.measures := by decide +kernel
  have hpath : "amount" ∈ Registry.measurePaths "orders" revenue := by decide +kernel
  have hreused : ((c.compile "orders" []).plan.bind fun p =>
      (p.measure? "revenue").map MeasureNode.isReused) = some false := by decide +kernel
  obtain ⟨plan, hplan, hnodes⟩ := Option.bind_eq_some_iff.1 hreused
  obtain ⟨node, hnode, hcomputed⟩ := Option.map_eq_some_iff.1 hnodes
  obtain ⟨-, hreads⟩ := compile_reads he hplan hm hnode
  obtain ⟨ref, hres, hmem, hrequired⟩ := hreads "amount" hpath
  have href : ref ∈ node.references := hmem.2 (by simp [hcomputed])
  exact ⟨he, hm, plan, node, ref, hplan, hnode, hres, href, hrequired href⟩

end Compiler

/-! ## A dimension beside a measure -/

namespace Shop

def agedUsers : Entity where
  name := "users"
  dimensions := [{ name := "age", valueType := .number }]

/-- The number of orders for each year of a user's age. -/
def perYear : Measure where
  name := "per_year"
  sql := some (refer "count" ++ " / " ++ refer "users.age")
  declared := some .number

def countedOrders : Entity where
  name := "orders"
  measures := [.ofCount "count", perYear]
  relationships := [{ target := "users" }]

def countedRegistry : Registry := registryOf [agedUsers, countedOrders]

end Shop

/-- A plan of orders is accepted whose number per year divides by the age of users: the measure does
not refer to the age, and the plan does not require it. -/
theorem Compiler.compile_reads_unlisted :
    let c : Compiler := { registry := Shop.countedRegistry }
    (c.compile "orders" []).state = .accepted ∧
      c.registry.entity? "orders" = some Shop.countedOrders ∧
      Shop.perYear ∈ Shop.countedOrders.measures ∧
      "users.age" ∈ Registry.measurePaths "orders" Shop.perYear ∧
      ∃ plan node ref, (c.compile "orders" []).plan = some plan ∧
        plan.measure? "per_year" = some node ∧ c.resolve "orders" "users.age" = .ok ref ∧
        ref ∉ node.references ∧ ref.qualifiedName ∉ plan.requiredFields := by
  intro c
  have hfields : (c.compile "orders" []).plan.map (·.requiredFields.toList) =
      some ["orders.count"] := by decide +kernel
  have hreferences : ((c.compile "orders" []).plan.bind fun p =>
      (p.measure? "per_year").map fun n => n.references.map Reference.path) = some ["count"] := by
    decide +kernel
  have hage : (c.resolve "orders" "users.age").toOption.map
      (fun ref => (ref.path, ref.qualifiedName)) = some ("users.age", "users.age") := by
    decide +kernel
  obtain ⟨plan, hplan, hrequired⟩ := Option.map_eq_some_iff.1 hfields
  rw [hplan, Option.bind_some] at hreferences
  obtain ⟨node, hnode, hpaths⟩ := Option.map_eq_some_iff.1 hreferences
  obtain ⟨ref, hres, hends⟩ := Option.map_eq_some_iff.1 hage
  obtain ⟨hpath, hfield⟩ := Prod.mk.inj hends
  refine ⟨by decide +kernel, by decide +kernel, by decide +kernel, by decide +kernel, plan, node,
    ref, hplan, hnode, toOption_eq_some_iff.1 hres, fun href => ?_, fun href => ?_⟩
  · have hlisted : ref.path ∈ node.references.map Reference.path := List.mem_map_of_mem href
    rw [hpaths] at hlisted
    simp [hpath] at hlisted
  · have hlisted : ref.qualifiedName ∈ plan.requiredFields.toList := href
    rw [hrequired] at hlisted
    simp [hfield] at hlisted

end MetricLayer
