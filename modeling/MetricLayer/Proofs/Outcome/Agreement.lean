import MetricLayer.Proofs.Measure.References
import MetricLayer.Proofs.Outcome.Accounting
import MetricLayer.Proofs.Registry.IncludeCycles

/-!
# Reviews of fresh plans

A plan is drafted by following paths and checking filters, and a review does both again. What a part
of a request yields stands up to the second look (`Part.stands_of_yield`, `Part.fits_of_yield`), so
a plan that was just drafted in a registry is in order there (`inOrder_ofEntity`), and its review
finds nothing but cycles of inclusions and ambiguous joins (`compile_review`).
-/

namespace MetricLayer

open Relation Schema

/-! ## Plans in order -/

/-- A predicate whose operand stands, that is placed where its operand needs it and whose operator
and literals suit the operand. -/
structure Registry.Fits (r : Registry) (walk : WalkRules) (f : Predicate) : Prop where
  stands : r.Stands walk f.operand
  placed : f.placement = .ofOperand f.operand
  suited : checkOperator f.operand f.operator f.values = .ok ()

namespace Plan

variable {r : Registry} {walk : WalkRules} {rules : ReviewRules} {p : Plan}

/-- A plan all of whose references stand and whose predicates fit and are listed where they are
placed. -/
structure InOrder (r : Registry) (walk : WalkRules) (p : Plan) : Prop where
  references : ∀ ref ∈ p.references, r.Stands walk ref
  rows : ∀ f ∈ p.rowPredicates, f.placement = .row ∧ r.Fits walk f
  aggregates : ∀ f ∈ p.aggregatePredicates, f.placement = .aggregate ∧ r.Fits walk f

theorem referenceFaults_eq_nil (h : ∀ ref ∈ p.references, r.Stands walk ref) :
    p.referenceFaults r walk = [] := by
  rw [referenceFaults, List.filterMap_eq_nil_iff]
  intro ref href
  have hstands : r.resolve walk ref.start ref.path = .ok ref := h ref (List.mem_eraseDups.1 href)
  rw [hstands]

theorem predicateFaults_eq_nil {f : Predicate} (h : r.Fits walk f) :
    predicateFaults r walk f.placement f = [] := by
  have hstands : r.resolve walk f.operand.start f.operand.path = .ok f.operand := h.stands
  have hplaced : placementFaults f.placement f f.operand = [] := by
    rw [placementFaults, if_pos ⟨h.placed, h.placed⟩]
  simp only [predicateFaults, hstands, hplaced, h.suited, List.append_nil]

/-- The review of a plan in order reports cycles of inclusions and ambiguous joins only. -/
theorem review_of_inOrder (h : p.InOrder r walk) :
    p.review r walk rules =
      p.entityFaults r rules ++
        if rules.ambiguousJoins then
          (p.ambiguities r).map fun a => .ofFault (.ambiguousJoin a.1.1 a.1.2 a.2)
        else [] := by
  have hrows : p.rowPredicates.flatMap (predicateFaults r walk .row) = [] := by
    rw [List.flatMap_eq_nil_iff]
    intro f hf
    obtain ⟨hplaced, hfits⟩ := h.rows f hf
    exact hplaced ▸ predicateFaults_eq_nil hfits
  have haggregates : p.aggregatePredicates.flatMap (predicateFaults r walk .aggregate) = [] := by
    rw [List.flatMap_eq_nil_iff]
    intro f hf
    obtain ⟨hplaced, hfits⟩ := h.aggregates f hf
    exact hplaced ▸ predicateFaults_eq_nil hfits
  rw [review, referenceFaults_eq_nil h.references, hrows, haggregates, List.append_nil,
    List.append_nil, List.append_nil]

end Plan

/-! ## What parts yield -/

theorem Registry.compileFilter_ok {r : Registry} {rules : WalkRules} {entity : String} {f : Filter}
    {p : Predicate} (h : r.compileFilter rules entity f = .ok p) :
    ∃ c, f.condition entity = .ok c ∧ r.resolve rules entity c.member = .ok p.operand ∧
      p.operator = c.operator ∧ p.values = c.values ∧ p.placement = .ofOperand p.operand ∧
      checkOperator p.operand p.operator p.values = .ok () := by
  unfold compileFilter at h
  cases hc : f.condition entity with
  | error g => simp [hc, bind, Except.bind] at h
  | ok c =>
    cases hres : r.resolve rules entity c.member with
    | error g => simp [hc, hres, bind, Except.bind] at h
    | ok operand =>
      cases hcheck : checkOperator operand c.operator c.values with
      | error g => simp [hc, hres, hcheck, bind, Except.bind] at h
      | ok u =>
        simp only [hc, hres, hcheck, bind, Except.bind, pure, Except.pure, Except.ok.injEq] at h
        subst h
        exact ⟨c, rfl, hres, rfl, rfl, rfl, hcheck⟩

/-- The references of a part of a plan, those of measures below its measures included. -/
def Yield.references : Yield → List Reference
  | column c => c.source.toList
  | measure n => n.allReferences
  | predicate p => [p.operand]

namespace Part

variable {r : Registry} {rules : WalkRules} {e : Entity} {filters : List Filter} {part : Part}

theorem exists_yield {β : Type} {select : Yield → Option β} {b : β}
    (h : (part.yield r rules e).toOption.bind select = some b) :
    ∃ y, part.yield r rules e = .ok y ∧ select y = some b := by
  cases hy : part.yield r rules e with
  | error f => simp [hy, Except.toOption] at h
  | ok y => exact ⟨y, rfl, by simpa [hy, Except.toOption] using h⟩

theorem fits_of_yield {p : Predicate} (h : part.yield r rules e = .ok (.predicate p)) :
    r.Fits rules p := by
  cases part with
  | dimension d => simp [yield] at h
  | inclusion path =>
    have hnone : predicate? r rules e (.inclusion path) = none := predicate?_included path
    simp [predicate?, h, Except.toOption, Yield.predicate?] at hnone
  | measure m =>
    obtain ⟨node, -, hnode⟩ := map_eq_ok_iff.1 h
    cases hnode
  | filter context origin f =>
    obtain ⟨q, hq, hqp⟩ := map_eq_ok_iff.1 h
    obtain ⟨q', hq', rfl⟩ := map_eq_ok_iff.1 hq
    cases hqp
    obtain ⟨c, -, hres, -, -, hplaced, hcheck⟩ := Registry.compileFilter_ok hq'
    exact ⟨Registry.stands_of_resolve hres, hplaced, hcheck⟩

/-- Following the references of a part again leads where they led when the part was taken up. -/
theorem stands_of_yield {y : Yield} (h : part.yield r rules e = .ok y) :
    ∀ ref ∈ y.references, r.Stands rules ref := by
  cases part with
  | dimension d =>
    cases h
    simp [Yield.references, ownColumn]
  | inclusion path =>
    obtain ⟨ref, hres, ⟨valueType, -, rfl⟩ | ⟨declared, node, -, hnode, rfl⟩⟩ :=
      Draft.included_ok h
    · simpa [Yield.references] using Registry.stands_of_resolve hres
    · exact Registry.stands_of_compileMeasureAfresh hnode
  | measure m =>
    rw [yield, Registry.compileMeasure_nil] at h
    obtain ⟨node, hnode, rfl⟩ := map_eq_ok_iff.1 h
    exact Registry.stands_of_compileMeasureAfresh hnode
  | filter context origin f =>
    obtain ⟨p, -, rfl⟩ := map_eq_ok_iff.1 h
    simpa [Yield.references] using (fits_of_yield h).stands

end Part

/-! ## Fresh plans -/

/-- What a plan is of: its entity, with the kind and the visibility of that. -/
def Plan.heading (p : Plan) : String × EntityKind × Bool := (p.entity, p.kind, p.isPublic)

namespace Draft

variable {r : Registry} {rules : WalkRules} {e : Entity} {filters : List Filter} {d : Draft}

theorem heading_add (part : Part) : (d.add r rules e part).plan.heading = d.plan.heading := by
  have hcompiled : ∀ context result,
      (d.addCompiled context result).plan.heading = d.plan.heading := by
    rintro context ⟨f | n, memo⟩ <;> rfl
  cases part with
  | dimension dim => rfl
  | inclusion path =>
    show (d.addInclude r rules e path).plan.heading = _
    unfold addInclude
    split
    · rfl
    · split
      · rfl
      · exact hcompiled _ _
  | measure m => exact hcompiled _ _
  | filter context origin f =>
    show (d.addFilter context origin (r.compileFilter rules e.name f)).plan.heading = _
    unfold addFilter
    split
    · unfold Plan.pushPredicate
      split <;> rfl
    · rfl

theorem heading_ofEntity :
    (ofEntity r rules e filters).plan.heading = (e.name, e.kind, e.isPublic) := by
  have hfoldl : ∀ (parts : List Part) (d : Draft),
      (parts.foldl (add r rules e) d).plan.heading = d.plan.heading := by
    intro parts
    induction parts with
    | nil => exact fun _ => rfl
    | cons part rest ih => exact fun d => (ih _).trans (heading_add part)
  rw [ofEntity_eq_foldl, hfoldl, start]
  rfl

theorem entity_ofEntity : (ofEntity r rules e filters).plan.entity = e.name :=
  congrArg Prod.fst heading_ofEntity

theorem isPublic_ofEntity : (ofEntity r rules e filters).plan.isPublic = e.isPublic :=
  congrArg (fun heading => heading.2.2) heading_ofEntity

/-- The plan of a registered entity is in order in the registry that it was drafted in. -/
theorem inOrder_ofEntity :
    (ofEntity r rules e filters).plan.InOrder r rules := by
  have hdrafted : Drafted r rules e (ofEntity r rules e filters) (Part.all e filters) :=
    drafted_ofEntity
  have hlisted : ∀ placement, ∀ f ∈ (ofEntity r rules e filters).plan.listed placement,
      f.placement = placement ∧ r.Fits rules f := by
    intro placement f hf
    rw [hdrafted.predicates, List.mem_filter] at hf
    obtain ⟨hf, hplaced⟩ := hf
    obtain ⟨part, -, hpart⟩ := List.mem_filterMap.1 hf
    obtain ⟨y, hy, hselect⟩ := Part.exists_yield hpart
    cases y <;> cases hselect
    exact ⟨by simpa using hplaced, Part.fits_of_yield hy⟩
  refine ⟨fun ref href => ?_, hlisted .row, hlisted .aggregate⟩
  rcases List.mem_append.1 href with href | href
  · rcases List.mem_append.1 href with href | href
    · obtain ⟨c, hc, hsource⟩ := List.mem_filterMap.1 href
      rw [hdrafted.columns] at hc
      obtain ⟨part, -, hcolumn⟩ := List.mem_filterMap.1 hc
      obtain ⟨y, hy, hselect⟩ := Part.exists_yield hcolumn
      cases y <;> cases hselect
      exact Part.stands_of_yield hy ref (by simp [Yield.references, hsource])
    · obtain ⟨n, hn, href⟩ := List.mem_flatMap.1 href
      rw [hdrafted.measures] at hn
      obtain ⟨part, -, hmeasure⟩ := List.mem_filterMap.1 hn
      obtain ⟨y, hy, hselect⟩ := Part.exists_yield hmeasure
      cases y <;> cases hselect
      exact Part.stands_of_yield hy ref href
  · obtain ⟨f, hf, rfl⟩ := List.mem_map.1 href
    rcases List.mem_append.1 hf with hf | hf
    · exact (hlisted .row f hf).2.stands
    · exact (hlisted .aggregate f hf).2.stands

end Draft

namespace Plan

variable {r : Registry} {p : Plan}

theorem mem_ambiguities {source target : String} {count : Nat}
    (h : ((source, target), count) ∈ p.ambiguities r) :
    (target, count) ∈ r.ambiguousJoins source := by
  obtain ⟨ends, -, hends⟩ := List.mem_filterMap.1 h
  obtain ⟨join, hjoin, heq⟩ := Option.map_eq_some_iff.1 hends
  cases heq
  have hmem : join ∈ r.ambiguousJoins source := List.mem_of_find?_eq_some hjoin
  have htarget : join.1 = target := by simpa using List.find?_some hjoin
  rwa [← htarget]

end Plan

namespace Compiler

variable {c : Compiler} {name : String}

/-- **Fresh plans.** The plan of a registered entity is in order for a review under the same
settings: each reference, at any depth of its measures, leads again where it led, and each predicate
is listed where its operand needs it and suits it. All that the review reports are cycles of
inclusions that the entity leads to, and ambiguous joins. -/
theorem compile_review (hname : c.registry.contains name = true) (filters : List Filter) :
    ∃ plan, (c.compile name filters).plan = some plan ∧
      plan.InOrder c.registry c.settings.walk ∧
      ∀ d ∈ plan.review c.registry c.settings.walk c.settings.review,
        (∃ s cycle, d = .ofFault (.cyclicReference cycle) ∧ c.registry.IsIncludeComponent s ∧
          c.registry.IsIncludeCycle s cycle ∧
          ∀ a ∈ s, ReflTransGen c.registry.Includes name a) ∨
        ∃ source target count, d = .ofFault (.ambiguousJoin source target count) ∧
          (target, count) ∈ c.registry.ambiguousJoins source := by
  obtain ⟨e, he⟩ := Option.isSome_iff_exists.1 hname
  have hinOrder : (Draft.ofEntity c.registry c.settings.walk e filters).plan.InOrder _ _ :=
    Draft.inOrder_ofEntity
  have hentity : (Draft.ofEntity c.registry c.settings.walk e filters).plan.entity = name :=
    Draft.entity_ofEntity.trans (Registry.entity?_name he)
  refine ⟨_, plan_compile he, hinOrder, fun d hd => ?_⟩
  rw [Plan.review_of_inOrder hinOrder, List.mem_append] at hd
  rcases hd with hd | hd
  · rw [Plan.entityFaults, hentity, if_pos hname] at hd
    split at hd
    · obtain ⟨cycle, hcycle, rfl⟩ := List.mem_map.1 hd
      obtain ⟨s, hs, hmem, hreached⟩ := Registry.mem_includeCycles hname hcycle
      exact Or.inl ⟨s, cycle, rfl, hs, hmem, hreached⟩
    · exact absurd hd List.not_mem_nil
  · split at hd
    · obtain ⟨⟨⟨source, target⟩, count⟩, hmem, rfl⟩ := List.mem_map.1 hd
      exact Or.inr ⟨source, target, count, rfl, Plan.mem_ambiguities hmem⟩
    · exact absurd hd List.not_mem_nil

/-- The orders of a shop take up measures of their users and are filtered by them. -/
theorem compile_review_shop :
    let c : Compiler := { registry := Shop.registry }
    let filters := [Filter.member "users.country" .equals [.string "DE"]]
    c.registry.contains "orders" = true ∧
      ∃ plan, (c.compile "orders" filters).plan = some plan ∧
        plan.InOrder c.registry c.settings.walk ∧
        ∀ d ∈ plan.review c.registry c.settings.walk c.settings.review,
          (∃ s cycle, d = .ofFault (.cyclicReference cycle) ∧ c.registry.IsIncludeComponent s ∧
            c.registry.IsIncludeCycle s cycle ∧
            ∀ a ∈ s, ReflTransGen c.registry.Includes "orders" a) ∨
          ∃ source target count, d = .ofFault (.ambiguousJoin source target count) ∧
            (target, count) ∈ c.registry.ambiguousJoins source := by
  intro c filters
  have hname : c.registry.contains "orders" = true := by decide +kernel
  exact ⟨hname, compile_review hname filters⟩

end Compiler

end MetricLayer
