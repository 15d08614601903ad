import MetricLayer.Proofs.Measure.Trees
import MetricLayer.Proofs.Outcome.Agreement

/-!
# Visibility

Under each of its names an entity shows one field: an own one, or the one that a re-exported path
ends at (`Registry.Shows.unique`). Own columns and measures are as visible in a plan as the fields
that they show, and so is the plan as a whole and every measure below another. Re-exported members
are not: each is shown to the public, whether the field that it ends at is public or not
(`Compiler.compile_visibility`, `Compiler.compile_visibility_hidden`).
-/

namespace MetricLayer

open Schema

namespace Registry

/-- An entity shows a field under a name: it declares the field, or re-exports a path of that name
that ends at the field. -/
inductive Shows (r : Registry) (rules : WalkRules) (e : Entity) (name : String) : Field → Prop where
  | own {f : Field} : e.field? name = some f → Shows r rules e name f
  | reexported {path : String} {ref : Reference} {f : Field} : path ∈ e.includes →
      (Path.ofText path).member = name → r.resolve rules e.name path = .ok ref →
      r.field ref.targetEntity ref.fieldName = .ok f → Shows r rules e name f

variable {r : Registry} {rules : WalkRules} {e : Entity} {name path : String} {f g : Field}
  {filters : List Filter} {plan : Plan} {ds : List Diagnostic}

theorem notMem_reexportedNames_of_field? (he : r.entity? e.name = some e)
    (hf : e.field? name = some f) : name ∉ e.reexportedNames := by
  intro hmem
  obtain ⟨path, hpath, rfl⟩ := List.mem_map.1 hmem
  have hmembers := nodup_memberNames he
  have hnone := (Entity.find_of_mem_includes hmembers hpath).1
  exact Option.some_ne_none f (hf.symm.trans hnone)

theorem Shows.unique (he : r.entity? e.name = some e) (hf : r.Shows rules e name f)
    (hg : r.Shows rules e name g) : f = g := by
  have hmembers := nodup_memberNames he
  have hapart : ∀ {f path}, e.field? name = some f → path ∈ e.includes →
      (Path.ofText path).member ≠ name := by
    rintro f path hf hpath rfl
    exact notMem_reexportedNames_of_field? he hf (List.mem_map_of_mem hpath)
  cases hf with
  | own hf =>
    cases hg with
    | own hg => exact Option.some.inj (hf.symm.trans hg)
    | reexported hpath hname _ _ => exact absurd hname (hapart hf hpath)
  | reexported hpath hname hres hf =>
    cases hg with
    | own hg => exact absurd hname (hapart hg hpath)
    | reexported hpath' hname' hres' hg =>
      -- the two paths have one name, so they are the same one
      have hlisted := (Entity.find_of_mem_includes hmembers hpath).2
      have hlisted' := (Entity.find_of_mem_includes hmembers hpath').2
      rw [hname] at hlisted
      rw [hname'] at hlisted'
      obtain rfl := Option.some.inj (hlisted.symm.trans hlisted')
      obtain rfl := Except.ok.inj (hres.symm.trans hres')
      exact Except.ok.inj (hf.symm.trans hg)

theorem Shows.iff_eq (he : r.entity? e.name = some e) (hf : r.Shows rules e name f) :
    r.Shows rules e name g ↔ g = f :=
  ⟨fun hg => hg.unique he hf, fun hg => hg ▸ hf⟩

/-- What a field of an entity is shown as: it is the one field that goes by the name, and it is
shown to the public if it is public itself or if it is re-exported. -/
structure ShownAs (r : Registry) (rules : WalkRules) (e : Entity) (name : String) (isPublic : Bool)
    (f : Field) : Prop where
  shows_iff : ∀ g, r.Shows rules e name g ↔ g = f
  isPublic_iff : isPublic = true ↔ f.isPublic = true ∨ name ∈ e.reexportedNames

theorem shownAs_own (he : r.entity? e.name = some e) (hf : e.field? name = some f) :
    r.ShownAs rules e name f.isPublic f where
  shows_iff _ := (Shows.own hf).iff_eq he
  isPublic_iff := (or_iff_left (notMem_reexportedNames_of_field? he hf)).symm

theorem shownAs_reexported {ref : Reference} (he : r.entity? e.name = some e)
    (hpath : path ∈ e.includes) (hres : r.resolve rules e.name path = .ok ref)
    (hf : r.field ref.targetEntity ref.fieldName = .ok f) :
    r.ShownAs rules e (Path.ofText path).member true f where
  shows_iff _ := (Shows.reexported hpath rfl hres hf).iff_eq he
  isPublic_iff := iff_of_true rfl (Or.inr (List.mem_map_of_mem hpath))

/-! ## Own fields -/

theorem field?_of_mem_dimensions (he : r.entity? e.name = some e) {d : Dimension}
    (hd : d ∈ e.dimensions) : e.field? d.name = some (.dimension d) := by
  have hmembers := nodup_memberNames he
  have hnames := (List.nodup_append.1 (List.nodup_append.1 hmembers).1).1
  have hfind : e.dimension? d.name = some d := find?_name_of_mem hnames hd
  rw [Entity.field?, hfind]

theorem field?_of_mem_measures (he : r.entity? e.name = some e) {m : Measure}
    (hm : m ∈ e.measures) : e.field? m.name = some (.measure m) := by
  have hmembers := nodup_memberNames he
  obtain ⟨-, hnames, hapart⟩ := List.nodup_append.1 (List.nodup_append.1 hmembers).1
  have hfind : e.measure? m.name = some m := find?_name_of_mem hnames hm
  have hnone : e.dimension? m.name = none := by
    refine List.find?_eq_none.2 fun d hd hname => ?_
    exact hapart _ (List.mem_map_of_mem hd) _ (List.mem_map_of_mem hm) (by simpa using hname)
  rw [Entity.field?, hnone, hfind]
  rfl

/-! ## What is shown in a plan -/

theorem Accounts.shownAs_column (h : r.Accounts rules e filters plan ds)
    (he : r.entity? e.name = some e) {col : Column} (hcol : col ∈ plan.columns) :
    ∃ d, r.ShownAs rules e col.name col.isPublic (.dimension d) := by
  rw [h.columns, List.mem_append, List.mem_map, List.mem_filterMap] at hcol
  rcases hcol with ⟨d, hd, rfl⟩ | ⟨path, hpath, hcol⟩
  · exact ⟨d, shownAs_own he (field?_of_mem_dimensions he hd)⟩
  · obtain ⟨ref, valueType, hres, hmember, rfl⟩ := includedColumn?_eq_some hcol
    obtain ⟨f, hf, hkind⟩ := field_of_resolve hres
    cases f with
    | measure m => cases hmember.symm.trans hkind
    | dimension d => exact ⟨d, shownAs_reexported he hpath hres hf⟩

theorem Accounts.shownAs_measure (h : r.Accounts rules e filters plan ds)
    (he : r.entity? e.name = some e) {n : MeasureNode} (hn : n ∈ plan.measures) :
    ∃ m, r.ShownAs rules e n.name n.isPublic (.measure m) := by
  rw [h.measures, List.mem_append, List.mem_filterMap, List.mem_filterMap] at hn
  rcases hn with ⟨path, hpath, hn⟩ | ⟨m, hm, hn⟩
  · obtain ⟨ref, declared, hres, hmember, hnode⟩ := includedMeasure?_eq_some hn
    obtain ⟨f, hf, hkind⟩ := field_of_resolve hres
    rw [MeasureNode.name, MeasureNode.isPublic, label_of_compileMeasureAfresh hnode]
    cases f with
    | dimension d => cases hmember.symm.trans hkind
    | measure m => exact ⟨m, shownAs_reexported he hpath hres hf⟩
  · have hlabel := label_of_compileMeasureAfresh (freshMeasure?_eq_some_iff.1 hn)
    rw [name_of_freshMeasure? hn, MeasureNode.isPublic, hlabel]
    exact ⟨m, shownAs_own he (field?_of_mem_measures he hm)⟩

theorem isPublic_of_occurs {entity : String} {root n : MeasureNode}
    (h : (r.compileNamed rules entity name []).1 = .ok root) (hn : n.Occurs root) :
    ∃ m, r.measureAt? n.entity n.name = some m ∧ n.isPublic = m.isPublic := by
  have hcompiled := compileNamed_of_occurs h hn
  obtain ⟨m, hm⟩ := measureAt?_of_compileNamed (a := (n.entity, n.name)) hcompiled
  have hlabel := label_of_defineAfresh (defineAfresh_of_compileNamed hm hcompiled)
  exact ⟨m, hm, by rw [MeasureNode.isPublic, hlabel]⟩

/-- What lies below a measure of a plan is as visible as its definition: a measure that stands for a
re-exported one has nothing below it, and any other is what it compiles to by its own name. -/
theorem Accounts.isPublic_below (h : r.Accounts rules e filters plan ds)
    (he : r.entity? e.name = some e) {n below : MeasureNode} (hn : n ∈ plan.measures)
    {s : Reference × MeasureNode} (hs : s ∈ n.sources) (hbelow : below.Occurs s.2) :
    ∃ m, r.measureAt? below.entity below.name = some m ∧ below.isPublic = m.isPublic := by
  have hreused : n.isReused = true := MeasureNode.isReused_of_mem_sources hs
  rw [h.measures, List.mem_append, List.mem_filterMap, List.mem_filterMap] at hn
  rcases hn with ⟨path, -, hn⟩ | ⟨m, hm, hn⟩
  · obtain ⟨ref, declared, -, -, hnode⟩ := includedMeasure?_eq_some hn
    have hdeclared := ((isReused_of_defineAfresh (compileMeasureAfresh_ok_iff.1 hnode)).1
      hreused).1
    simp [Draft.standIn] at hdeclared
  · have hnamed : (r.compileNamed rules e.name m.name []).1 = .ok n := by
      rw [compileNamed_eq (measureAt?_of_mem he hm)]
      exact freshMeasure?_eq_some_iff.1 hn
    exact isPublic_of_occurs hnamed (.source hs hbelow)

end Registry

namespace Compiler

variable {c : Compiler} {name : String} {e : Entity}

/-- **Visibility.** The plan of an entity is as visible as the entity. Each column and each measure
of it shows one field of the entity, and is public if and only if that field is or the entity
re-exports it: own fields keep their visibility, and what is re-exported is public always. A measure
below another is as visible as its definition. -/
theorem compile_visibility (he : c.registry.entity? name = some e) (filters : List Filter) :
    ∃ plan, (c.compile name filters).plan = some plan ∧ plan.isPublic = e.isPublic ∧
      (∀ col ∈ plan.columns, ∃ d,
        c.registry.ShownAs c.settings.walk e col.name col.isPublic (.dimension d)) ∧
      (∀ n ∈ plan.measures, ∃ m,
        c.registry.ShownAs c.settings.walk e n.name n.isPublic (.measure m)) ∧
      ∀ n ∈ plan.measures, ∀ s ∈ n.sources, ∀ below : MeasureNode, below.Occurs s.2 →
        ∃ m, c.registry.measureAt? below.entity below.name = some m ∧
          below.isPublic = m.isPublic := by
  have hself := Registry.entity?_self he
  have haccounts : c.registry.Accounts c.settings.walk e filters _ _ :=
    accounts_compile he (plan_compile he)
  refine ⟨_, plan_compile he, Draft.isPublic_ofEntity, fun col hcol => ?_, fun n hn => ?_,
    fun n hn s hs below hbelow => ?_⟩
  · exact haccounts.shownAs_column hself hcol
  · exact haccounts.shownAs_measure hself hn
  · exact haccounts.isPublic_below hself hn hs hbelow

end Compiler

/-! ## Hidden fields -/

namespace Shop

def cost : Dimension where
  name := "cost"
  valueType := .number
  isPublic := false

def costs : Measure where
  name := "costs"
  sql := some ("SUM(" ++ refer "cost" ++ ")")
  isPublic := false

/-- Orders whose costs are hidden, and their profit, which is not. -/
def guardedOrders : Entity where
  name := "orders"
  dimensions := [{ name := "amount", valueType := .number }, cost]
  measures :=
    [{ name := "revenue", sql := some ("SUM(" ++ refer "amount" ++ ")") }, costs,
      { name := "profit", sql := some (refer "revenue" ++ " - " ++ refer "costs"),
        declared := some .number }]

/-- A view that re-exports the costs of an order and of all orders. -/
def costView : Entity where
  name := "shop"
  kind := .view
  includes := ["orders.cost", "orders.costs"]

def guardedRegistry : Registry := registryOf [guardedOrders, costView]

end Shop

namespace Compiler

/-- The costs stay hidden among the columns and measures of the orders, and below the profit. -/
theorem compile_visibility_own :
    let c : Compiler := { registry := Shop.guardedRegistry }
    c.registry.entity? "orders" = some Shop.guardedOrders ∧
      ∃ plan, (c.compile "orders" []).plan = some plan ∧ plan.isPublic = true ∧
        plan.columns.map (fun col => (col.name, col.isPublic)) =
          [("amount", true), ("cost", false)] ∧
        plan.measures.map (fun n => (n.name, n.isPublic)) =
          [("revenue", true), ("costs", false), ("profit", true)] ∧
        (∀ col ∈ plan.columns, ∃ d, c.registry.ShownAs c.settings.walk Shop.guardedOrders col.name
          col.isPublic (.dimension d)) ∧
        ∀ n ∈ plan.measures, ∃ m, c.registry.ShownAs c.settings.walk Shop.guardedOrders n.name
          n.isPublic (.measure m) := by
  intro c
  have he : c.registry.entity? "orders" = some Shop.guardedOrders := by decide +kernel
  have hcolumns : (c.compile "orders" []).plan.map
      (fun plan => plan.columns.map fun col => (col.name, col.isPublic)) =
        some [("amount", true), ("cost", false)] := by decide +kernel
  have hmeasures : (c.compile "orders" []).plan.map
      (fun plan => plan.measures.map fun n => (n.name, n.isPublic)) =
        some [("revenue", true), ("costs", false), ("profit", true)] := by decide +kernel
  obtain ⟨plan, hplan, hpublic, hcol, hmeasure, -⟩ := compile_visibility he []
  rw [hplan] at hcolumns hmeasures
  exact ⟨he, plan, hplan, hpublic, Option.some.inj hcolumns, Option.some.inj hmeasures, hcol,
    hmeasure⟩

/-- The view is accepted, and shows both to the public. -/
theorem compile_visibility_hidden :
    let c : Compiler := { registry := Shop.guardedRegistry }
    let view := Shop.costView.withInclusions
    c.registry.entity? "shop" = some view ∧ (c.compile "shop" []).state = .accepted ∧
      ∃ plan, (c.compile "shop" []).plan = some plan ∧
        (∃ col ∈ plan.columns, ∃ d,
          c.registry.Shows c.settings.walk view col.name (.dimension d) ∧
            d.isPublic = false ∧ col.isPublic = true) ∧
        ∃ n ∈ plan.measures, ∃ m,
          c.registry.Shows c.settings.walk view n.name (.measure m) ∧
            m.isPublic = false ∧ n.isPublic = true := by
  intro c view
  have hcolumns : (c.compile "shop" []).plan.map
      (fun plan => plan.columns.map fun col => (col.name, col.isPublic)) =
        some [("cost", true)] := by decide +kernel
  have hmeasures : (c.compile "shop" []).plan.map
      (fun plan => plan.measures.map fun n => (n.name, n.isPublic)) =
        some [("costs", true)] := by decide +kernel
  obtain ⟨plan, hplan, hlisted⟩ := Option.map_eq_some_iff.1 hcolumns
  rw [hplan] at hmeasures
  obtain ⟨col, hcol, hcolumn⟩ := List.map_eq_singleton_iff.1 hlisted
  obtain ⟨n, hn, hmeasure⟩ := List.map_eq_singleton_iff.1 (Option.some.inj hmeasures)
  have hshown : ∀ path f, path ∈ view.includes →
      (c.registry.resolve c.settings.walk view.name path).toOption.map
        (fun ref => c.registry.field ref.targetEntity ref.fieldName) = some (.ok f) →
      c.registry.Shows c.settings.walk view (Path.ofText path).member f := by
    intro path f hpath hends
    obtain ⟨ref, hres, hf⟩ := Option.map_eq_some_iff.1 hends
    exact .reexported hpath rfl (toOption_eq_some_iff.1 hres) hf
  have hcost := hshown "orders.cost" (.dimension Shop.cost) (by decide +kernel) (by decide +kernel)
  have hcosts := hshown "orders.costs" (.measure Shop.costs) (by decide +kernel) (by decide +kernel)
  have hnames : (Path.ofText "orders.cost").member = "cost" ∧
      (Path.ofText "orders.costs").member = "costs" := by decide +kernel
  rw [hnames.1, ← (Prod.mk.inj hcolumn).1] at hcost
  rw [hnames.2, ← (Prod.mk.inj hmeasure).1] at hcosts
  refine ⟨by decide +kernel, by decide +kernel, plan, hplan, ⟨col, ?_, _, hcost, rfl, ?_⟩,
    ⟨n, ?_, _, hcosts, rfl, ?_⟩⟩
  · exact hcol ▸ List.mem_cons_self
  · exact (Prod.mk.inj hcolumn).2
  · exact hn ▸ List.mem_cons_self
  · exact (Prod.mk.inj hmeasure).2

end Compiler

end MetricLayer
