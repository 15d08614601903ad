import MetricLayer.Proofs.Outcome.Operands

/-!
# The filters of measures

A filter demands something of a field (`Registry.demand?`). The predicates of an accepted plan are
those of the filters of the entity's own measures, each with the measure for its origin, and those
of the filters of the request. A measure that stands for a re-exported one has no filters, so the
plan represents a filter of a re-exported measure only if an own measure or the request demands the
same (`compile_demands`, `compile_demands_unlisted`).
-/

namespace MetricLayer

open Schema

/-- What a filter demands: what is asked, with which literals, and of which field. -/
structure Demand where
  operator : Operator
  values : List Literal
  field : String
  deriving DecidableEq

def Predicate.demand (p : Predicate) : Demand := ⟨p.operator, p.values, p.operand.qualifiedName⟩

/-- What a filter of an entity demands, if its member resolves from there. -/
def Registry.demand? (r : Registry) (rules : WalkRules) (entity : String) (f : Filter) :
    Option Demand :=
  match f.condition entity with
  | .error _ => none
  | .ok c =>
    (r.resolve rules entity c.member).toOption.map fun ref =>
      ⟨c.operator, c.values, ref.qualifiedName⟩

namespace Part

variable {e : Entity} {filters : List Filter} {f : Filter}

theorem measureFilter_mem_all {m : Measure} (hm : m ∈ e.measures) (hf : f ∈ m.filters) :
    filter (Path.qualified e.name m.name) (.measure m.name) f ∈ all e filters := by
  simp only [all, List.mem_append, List.mem_flatMap]
  exact Or.inl (Or.inr ⟨m, hm, by simp [hf]⟩)

theorem requestFilter_mem_all (hf : f ∈ filters) : filter e.name .request f ∈ all e filters := by
  simp [all, hf]

end Part

namespace Registry

variable {r : Registry} {rules : WalkRules} {e : Entity} {entity : String} {filters : List Filter}
  {f : Filter} {p : Predicate} {origin : Origin} {plan : Plan} {ds : List Diagnostic}

theorem demand?_of_filtered (h : r.filtered rules entity origin f = .ok p) :
    p.origin = origin ∧ r.demand? rules entity f = some p.demand := by
  obtain ⟨q, hq, rfl⟩ := map_eq_ok_iff.1 h
  obtain ⟨c, hc, hres, hop, hvalues, -, -⟩ := compileFilter_ok hq
  refine ⟨rfl, ?_⟩
  unfold demand?
  simp [hc, hres, Except.toOption, Predicate.demand, hop, hvalues]

/-- The predicates that are accounted for are those of the filters of own measures and of the
request. -/
theorem Accounts.mem_predicates (h : r.Accounts rules e filters plan ds) :
    p ∈ plan.predicates ↔
      (∃ m ∈ e.measures, ∃ f ∈ m.filters, r.filtered rules e.name (.measure m.name) f = .ok p) ∨
        ∃ f ∈ filters, r.filtered rules e.name .request f = .ok p := by
  have hplaced : p ∈ plan.predicates ↔ p ∈ r.predicates rules e filters := by
    rw [Plan.predicates, h.rowPredicates, h.aggregatePredicates, List.mem_append, List.mem_filter,
      List.mem_filter, ← and_or_left]
    cases hp : p.placement <;> simp
  simp only [hplaced, predicates, List.mem_append, List.mem_flatMap, List.mem_filterMap,
    toOption_eq_some_iff]

theorem Accounts.exists_filter (h : r.Accounts rules e filters plan ds)
    (hp : p ∈ plan.predicates) :
    ∃ f ∈ e.measures.flatMap Measure.filters ++ filters, ∃ origin,
      r.filtered rules e.name origin f = .ok p := by
  rcases h.mem_predicates.1 hp with ⟨m, hm, f, hf, hok⟩ | ⟨f, hf, hok⟩
  · exact ⟨f, List.mem_append_left _ (List.mem_flatMap.2 ⟨m, hm, hf⟩), _, hok⟩
  · exact ⟨f, List.mem_append_right _ hf, _, hok⟩

theorem exists_filtered {context : String}
    (hparts : ∀ part ∈ Part.all e filters, ∃ y, part.yield r rules e = .ok y)
    (hf : .filter context origin f ∈ Part.all e filters) :
    ∃ p, r.filtered rules e.name origin f = .ok p := by
  obtain ⟨y, hy⟩ := hparts _ hf
  obtain ⟨p, hp, -⟩ := map_eq_ok_iff.1 hy
  exact ⟨p, hp⟩

/-- Where none of the parts fails, what the predicates of a plan demand is what the filters of the
own measures and of the request demand. -/
theorem Accounts.exists_demand_iff (h : r.Accounts rules e filters plan ds)
    (hparts : ∀ part ∈ Part.all e filters, ∃ y, part.yield r rules e = .ok y) {d : Demand} :
    (∃ p ∈ plan.predicates, p.demand = d) ↔
      ∃ f ∈ e.measures.flatMap Measure.filters ++ filters, r.demand? rules e.name f = some d := by
  constructor
  · rintro ⟨p, hp, rfl⟩
    obtain ⟨f, hf, origin, hok⟩ := h.exists_filter hp
    exact ⟨f, hf, (demand?_of_filtered hok).2⟩
  · rintro ⟨f, hf, hd⟩
    obtain ⟨p, hp, hok⟩ : ∃ p ∈ plan.predicates, ∃ origin,
        r.filtered rules e.name origin f = .ok p := by
      rcases List.mem_append.1 hf with hf | hf
      · obtain ⟨m, hm, hf⟩ := List.mem_flatMap.1 hf
        obtain ⟨p, hok⟩ := exists_filtered hparts (Part.measureFilter_mem_all hm hf)
        exact ⟨p, h.mem_predicates.2 (Or.inl ⟨m, hm, f, hf, hok⟩), _, hok⟩
      · obtain ⟨p, hok⟩ := exists_filtered hparts (Part.requestFilter_mem_all hf)
        exact ⟨p, h.mem_predicates.2 (Or.inr ⟨f, hf, hok⟩), _, hok⟩
    obtain ⟨origin, hok⟩ := hok
    refine ⟨p, hp, Option.some.inj ?_⟩
    rw [← (demand?_of_filtered hok).2, hd]

end Registry

namespace Compiler

variable {c : Compiler} {name : String} {filters : List Filter}

/-- **The filters of measures.** An accepted plan has a predicate for each filter of an own measure,
with the measure for its origin. It has one that demands what a filter of a re-exported measure
demands, from the entity that declares that measure, if and only if a filter of an own measure or of
the request demands the same. -/
theorem compile_demands (haccepted : (c.compile name filters).state = .accepted) :
    ∃ e plan, c.registry.entity? name = some e ∧ (c.compile name filters).plan = some plan ∧
      (∀ m ∈ e.measures, ∀ f ∈ m.filters, ∃ p ∈ plan.predicates, p.origin = .measure m.name ∧
        c.registry.demand? c.settings.walk name f = some p.demand) ∧
      ∀ path ∈ e.includes, ∀ ref m, c.resolve name path = .ok ref →
        c.registry.field ref.targetEntity ref.fieldName = .ok (.measure m) → ∀ f ∈ m.filters,
          ((∃ p ∈ plan.predicates,
              c.registry.demand? c.settings.walk ref.targetEntity f = some p.demand) ↔
            ∃ g ∈ e.measures.flatMap Measure.filters ++ filters, ∃ d,
              c.registry.demand? c.settings.walk name g = some d ∧
                c.registry.demand? c.settings.walk ref.targetEntity f = some d) := by
  obtain ⟨e, he⟩ := exists_entity_of_accepted haccepted
  obtain rfl : e.name = name := Registry.entity?_name he
  have hparts := yields_of_accepted he haccepted
  have haccounts : c.registry.Accounts c.settings.walk e filters _ _ :=
    accounts_compile he (plan_compile he)
  refine ⟨e, _, he, plan_compile he, fun m hm f hf => ?_, fun path _ ref m _ _ f _ => ?_⟩
  · obtain ⟨p, hok⟩ := Registry.exists_filtered hparts (Part.measureFilter_mem_all hm hf)
    obtain ⟨horigin, hdemand⟩ := Registry.demand?_of_filtered hok
    exact ⟨p, haccounts.mem_predicates.2 (Or.inl ⟨m, hm, f, hf, hok⟩), horigin, hdemand⟩
  · constructor
    · rintro ⟨p, hp, hf⟩
      obtain ⟨g, hg, hd⟩ := (haccounts.exists_demand_iff hparts).1 ⟨p, hp, rfl⟩
      exact ⟨g, hg, p.demand, hd, hf⟩
    · rintro ⟨g, hg, d, hd, hf⟩
      obtain ⟨p, hp, rfl⟩ := (haccounts.exists_demand_iff hparts).2 ⟨g, hg, hd⟩
      exact ⟨p, hp, hf⟩

end Compiler

/-! ## A filter that is left behind -/

namespace Shop

def paidFilter : Filter := .member "status" .equals [.string "paid"]

/-- The number of orders that are paid. -/
def paid : Measure := { Measure.ofCount "paid" with filters := [paidFilter] }

def payableOrders : Entity where
  name := "orders"
  dimensions := [{ name := "status", valueType := .string }]
  measures := [paid]

def paidView : Entity where
  name := "shop"
  kind := .view
  includes := ["orders.paid"]

def paidRegistry : Registry := registryOf [payableOrders, paidView]

end Shop

/-- A view re-exports the number of paid orders. If the request demands what the filter of that
measure demands, the plan represents the filter. -/
theorem Compiler.compile_demands_requested :
    let c : Compiler := { registry := Shop.paidRegistry }
    let filters := [Filter.member "orders.status" .equals [.string "paid"]]
    (c.compile "shop" filters).state = .accepted ∧
      ∃ plan, (c.compile "shop" filters).plan = some plan ∧
        ∃ p ∈ plan.predicates,
          c.registry.demand? c.settings.walk "orders" Shop.paidFilter = some p.demand := by
  intro c filters
  have haccepted : (c.compile "shop" filters).state = .accepted := by decide +kernel
  obtain ⟨e, plan, he, hplan, -, hreexported⟩ := compile_demands haccepted
  have hview : e = Shop.paidView.withInclusions := by
    refine Option.some.inj (he.symm.trans ?_)
    decide +kernel
  have hpath : "orders.paid" ∈ e.includes := by simp [hview, Shop.paidView, Entity.withInclusions]
  have hends : (c.resolve "shop" "orders.paid").toOption.map
      (fun ref => (ref.targetEntity, ref.fieldName)) = some ("orders", "paid") := by decide +kernel
  have hfield : c.registry.field "orders" "paid" = .ok (.measure Shop.paid) := by decide +kernel
  have hdemand : c.registry.demand? c.settings.walk "shop" (.member "orders.status" .equals
      [.string "paid"]) = c.registry.demand? c.settings.walk "orders" Shop.paidFilter := by
    decide +kernel
  obtain ⟨ref, hres, hend⟩ := Option.map_eq_some_iff.1 hends
  obtain ⟨htarget, hname⟩ := Prod.mk.inj hend
  have hiff := hreexported _ hpath ref Shop.paid (toOption_eq_some_iff.1 hres)
    (by rw [htarget, hname]; exact hfield) Shop.paidFilter (by simp [Shop.paid])
  rw [htarget] at hiff
  refine ⟨haccepted, plan, hplan, hiff.2 ?_⟩
  have hdemanded : (c.registry.demand? c.settings.walk "orders" Shop.paidFilter).isSome = true := by
    decide +kernel
  obtain ⟨d, hd⟩ := Option.isSome_iff_exists.1 hdemanded
  exact ⟨_, by simp [filters], d, hdemand.trans hd, hd⟩

/-- Without such a request the plan of the view is accepted and represents no filter. -/
theorem Compiler.compile_demands_unlisted :
    let c : Compiler := { registry := Shop.paidRegistry }
    (c.compile "shop" []).state = .accepted ∧
      c.registry.entity? "shop" = some Shop.paidView.withInclusions ∧
      "orders.paid" ∈ Shop.paidView.withInclusions.includes ∧
      (∃ ref, c.resolve "shop" "orders.paid" = .ok ref ∧
        c.registry.field ref.targetEntity ref.fieldName = .ok (.measure Shop.paid)) ∧
      Shop.paidFilter ∈ Shop.paid.filters ∧
      ∃ plan, (c.compile "shop" []).plan = some plan ∧
        ¬ ∃ p ∈ plan.predicates,
          c.registry.demand? c.settings.walk "orders" Shop.paidFilter = some p.demand := by
  intro c
  have hends : (c.resolve "shop" "orders.paid").toOption.map
      (fun ref => c.registry.field ref.targetEntity ref.fieldName) =
        some (.ok (.measure Shop.paid)) := by decide +kernel
  have hnone : (c.compile "shop" []).plan.map Plan.predicates = some [] := by decide +kernel
  obtain ⟨ref, hres, hfield⟩ := Option.map_eq_some_iff.1 hends
  obtain ⟨plan, hplan, hpredicates⟩ := Option.map_eq_some_iff.1 hnone
  exact ⟨by decide +kernel, by decide +kernel, by decide +kernel,
    ⟨ref, toOption_eq_some_iff.1 hres, hfield⟩, by decide +kernel, plan, hplan,
    by simp [hpredicates]⟩

end MetricLayer
