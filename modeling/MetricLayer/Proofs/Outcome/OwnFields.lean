import MetricLayer.Proofs.Outcome.RequiredFields
import MetricLayer.Proofs.Outcome.Visibility
import MetricLayer.Proofs.Plan.Verdict

/-!
# Required fields are declared

However a plan is put together, it requires what its parts read and nothing else: each push keeps it
exact. What a compiled plan reads is shown by an own column of its entity or ends a reference that
leads somewhere, and references end at fields that an entity declares itself, whatever chain of
re-exports they go through. So a compiled plan requires declared fields of registered entities only
(`Compiler.compile_requiredFields`).
-/

namespace MetricLayer

open Schema

/-! ## Plans that are put together -/

namespace Plan

variable {p : Plan} {field : String}

/-- The plan with another part. -/
def push (p : Plan) : Yield → Plan
  | .column c => p.pushColumn c
  | .measure n => p.pushMeasure n
  | .predicate f => p.pushPredicate f

theorem exact_push (h : p.Exact) (part : Yield) : (p.push part).Exact := by
  cases part with
  | column c => exact h.pushColumn c
  | measure n => exact h.pushMeasure n
  | predicate f => exact h.pushPredicate f

/-- A plan stays exact however many parts are pushed, and in whatever order. -/
theorem exact_foldl_push (h : p.Exact) (parts : List Yield) : (parts.foldl push p).Exact := by
  induction parts generalizing p with
  | nil => exact h
  | cons part rest ih => exact ih (exact_push h part)

end Plan

theorem MeasureNode.holds_of_mem_references {n : MeasureNode} {ref : Reference}
    (h : ref ∈ n.references) : n.Holds ref := by
  cases n with
  | computed label kind type text inputs => exact .input h
  | reused label text sources =>
    obtain ⟨⟨_, below⟩, hmem, rfl⟩ := List.mem_map.1 h
    exact .source hmem

/-- What a plan reads is shown by a column of its own, or ends a reference that it mentions. -/
theorem Plan.Reads.own_or_mentioned {p : Plan} {field : String} (h : p.Reads field) :
    (∃ c ∈ p.columns, c.source = none ∧ field = Path.qualified p.entity c.name) ∨
      ∃ ref, p.Mentions ref ∧ field = ref.qualifiedName := by
  rcases h with ⟨c, hc, rfl⟩ | ⟨n, hn, ref, href, rfl⟩ | ⟨f, hf, rfl⟩
  · unfold columnField
    cases hsource : c.source with
    | none => exact Or.inl ⟨c, hc, hsource, rfl⟩
    | some ref => exact Or.inr ⟨ref, .column hc hsource, rfl⟩
  · exact Or.inr ⟨ref, .measure hn (MeasureNode.holds_of_mem_references href), rfl⟩
  · exact Or.inr ⟨f.operand, .operand hf rfl, rfl⟩

/-! ## Declared fields -/

namespace Registry

variable {r : Registry} {rules : WalkRules} {e : Entity} {filters : List Filter} {plan : Plan}
  {ds : List Diagnostic} {name : String} {f : Field} {ref : Reference}

/-- The qualified name of a field that a registered entity declares, and does not re-export. -/
def IsOwnField (r : Registry) (field : String) : Prop :=
  ∃ e name f, r.entity? e.name = some e ∧ e.field? name = some f ∧ name ∉ e.reexportedNames ∧
    field = Path.qualified e.name name

theorem isOwnField_of_field? (he : r.entity? e.name = some e) (hf : e.field? name = some f) :
    r.IsOwnField (Path.qualified e.name name) :=
  ⟨e, name, f, he, hf, notMem_reexportedNames_of_field? he hf, rfl⟩

theorem Stands.isOwnField (h : r.Stands rules ref) : r.IsOwnField ref.qualifiedName := by
  obtain ⟨field, hfield, -⟩ := field_of_resolve h
  obtain ⟨target, htarget, hdeclared⟩ := field_eq_ok_iff.1 hfield
  have hname : target.name = ref.targetEntity := entity?_name htarget
  rw [Reference.qualifiedName, ← hname]
  exact isOwnField_of_field? (entity?_self htarget) hdeclared

/-- A column without a source shows a dimension of the entity itself: that of a re-exported path
carries the reference that the path resolves to. -/
theorem Accounts.isOwnField_column (h : r.Accounts rules e filters plan ds)
    (he : r.entity? e.name = some e) {c : Column} (hc : c ∈ plan.columns)
    (hsource : c.source = none) : r.IsOwnField (Path.qualified e.name c.name) := by
  rw [h.columns, List.mem_append, List.mem_map, List.mem_filterMap] at hc
  rcases hc with ⟨d, hd, rfl⟩ | ⟨path, -, hc⟩
  · exact isOwnField_of_field? he (field?_of_mem_dimensions he hd)
  · obtain ⟨ref, valueType, -, -, rfl⟩ := includedColumn?_eq_some hc
    simp at hsource

end Registry

namespace Compiler

variable {c : Compiler} {name : String} {filters : List Filter} {plan : Plan}

/-- Every field that a compiled plan requires is declared by a registered entity. -/
theorem isOwnField_of_compile (hplan : (c.compile name filters).plan = some plan) {field : String}
    (hfield : field ∈ plan.requiredFields) : c.registry.IsOwnField field := by
  obtain ⟨e, he⟩ := exists_entity_of_plan hplan
  have haccounts := accounts_compile he hplan
  obtain rfl : (Draft.ofEntity c.registry c.settings.walk e filters).plan = plan :=
    Option.some.inj ((plan_compile he).symm.trans hplan)
  rcases ((Draft.exact_ofEntity field).1 hfield).own_or_mentioned with
    ⟨col, hcol, hsource, rfl⟩ | ⟨ref, href, rfl⟩
  · rw [Draft.entity_ofEntity]
    exact haccounts.isOwnField_column (Registry.entity?_self he) hcol hsource
  · exact (Draft.inOrder_ofEntity.references ref (Plan.mem_references_iff.2 href)).isOwnField

/-- **Required fields.** Whatever columns, measures and predicates are pushed onto an empty plan, in
whatever order, it requires the fields that these read, and no others. What a compiled plan requires
are fields that registered entities declare themselves. -/
theorem compile_requiredFields (c : Compiler) :
    (∀ (entity : String) (kind : EntityKind) (isPublic : Bool) (parts : List Yield),
      (parts.foldl Plan.push { entity, kind, isPublic }).Exact) ∧
    ∀ name filters plan, (c.compile name filters).plan = some plan →
      ∀ field ∈ plan.requiredFields, c.registry.IsOwnField field :=
  ⟨fun entity kind isPublic parts =>
      Plan.exact_foldl_push (Plan.exact_empty entity kind isPublic) parts,
    fun _ _ _ hplan _ hfield => isOwnField_of_compile hplan hfield⟩

/-- The view of a shop re-exports the country of users and the revenue of orders. Its plan requires
these where they are declared. -/
theorem compile_requiredFields_shop :
    let c : Compiler := { registry := Shop.registry }
    let filters := [Filter.member "revenue" .gt [.number (.finite false .zero)]]
    ∃ plan, (c.compile "shop" filters).plan = some plan ∧
      plan.requiredFields.toList = ["orders.revenue", "users.country"] ∧
      c.registry.IsOwnField "orders.revenue" ∧ c.registry.IsOwnField "users.country" := by
  intro c filters
  have hfields : (c.compile "shop" filters).plan.map (·.requiredFields.toList) =
      some ["orders.revenue", "users.country"] := by decide +kernel
  obtain ⟨plan, hplan, hrequired⟩ := Option.map_eq_some_iff.1 hfields
  have hown := (compile_requiredFields c).2 _ _ plan hplan
  have hmem : ∀ field ∈ ["orders.revenue", "users.country"], field ∈ plan.requiredFields :=
    fun field hfield => (hrequired ▸ hfield : field ∈ plan.requiredFields.toList)
  exact ⟨plan, hplan, hrequired, hown _ (hmem _ (by decide)), hown _ (hmem _ (by decide))⟩

end Compiler

end MetricLayer
