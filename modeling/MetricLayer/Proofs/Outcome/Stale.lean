import MetricLayer.Proofs.Plan.Verdict
import MetricLayer.Proofs.Reference.Locality

/-!
# Stale plans

A plan that was accepted over one registry may be reviewed against another. A review asks of each
reference only that its path leads to some field, and of the operand of each predicate that the
field suits it. So when it finds nothing, the references lead through the same named entities to
fields of the same names, and the operands are of the same kinds; but they need not be the same
references. What can change unnoticed is what changed in the entities on their way: where these are
as they were, a reference is the one that the other registry resolves (`review_of_accepted`).
-/

namespace MetricLayer

open Schema

theorem Placement.ofOperand_inj {ref ref' : Reference} :
    ofOperand ref = ofOperand ref' ↔ ref.isMeasure = ref'.isMeasure := by
  unfold ofOperand
  cases ref.isMeasure <;> cases ref'.isMeasure <;> simp

/-- References with one start and one path that lead first through the entities that the path names
and end at fields of one name. -/
structure Reference.Retraces (found ref : Reference) : Prop where
  start : found.start = ref.start
  path : found.path = ref.path
  fieldName : found.fieldName = ref.fieldName
  led : (Path.ofText ref.path).entities <+: ref.hops.map Hop.entity
  leads : (Path.ofText ref.path).entities <+: found.hops.map Hop.entity

namespace Registry

variable {r r' : Registry} {rules : WalkRules} {ref found : Reference}

theorem retraces_of_resolve (h : r.Stands rules ref)
    (hfound : r'.resolve rules ref.start ref.path = .ok found) : found.Retraces ref where
  start := (resolve_ok hfound).1
  path := (resolve_ok hfound).2.1
  fieldName := (fieldName_of_resolve hfound).trans (fieldName_of_resolve h).symm
  led := entities_prefix_of_resolve h
  leads := entities_prefix_of_resolve hfound

/-- Where nothing has changed on its way, a reference is resolved again. -/
theorem Stands.eq_of_way (h : r.Stands rules ref)
    (hfound : r'.resolve rules ref.start ref.path = .ok found)
    (hway : ∀ name ∈ ref.way, r'.entity? name = r.entity? name) : found = ref := by
  have hkept : r.KeptIn r' {name | name ∈ ref.way} := fun name hname e he =>
    (hway name hname).trans he
  have hagain : r'.resolve rules ref.start ref.path = .ok ref := hkept.resolve_ok h fun _ => id
  exact Except.ok.inj (hfound.symm.trans hagain)

end Registry

namespace Compiler

variable {c : Compiler} {name : String} {filters : List Filter} {plan : Plan} {r' : Registry}

theorem inOrder_of_accepted (haccepted : (c.compile name filters).state = .accepted)
    (hplan : (c.compile name filters).plan = some plan) :
    plan.InOrder c.registry c.settings.walk := by
  obtain ⟨e, he⟩ := exists_entity_of_accepted haccepted
  rw [plan_compile he, Option.some.injEq] at hplan
  exact hplan ▸ Draft.inOrder_ofEntity

/-- **Stale plans.** If a plan that was accepted over one registry is reviewed against another and
nothing is found, each of its references resolves there, through the same named entities to a field
of the same name, and is what is resolved there if the entities on its way are the same. The
operands of its predicates are resolved to fields of the same kind that suit them. -/
theorem review_of_accepted (haccepted : (c.compile name filters).state = .accepted)
    (hplan : (c.compile name filters).plan = some plan)
    (hreview : plan.review r' c.settings.walk c.settings.review = []) :
    (∀ ref, plan.Mentions ref →
      c.registry.resolve c.settings.walk ref.start ref.path = .ok ref ∧
        ∃ found, r'.resolve c.settings.walk ref.start ref.path = .ok found ∧ found.Retraces ref ∧
          ((∀ entity ∈ ref.way, r'.entity? entity = c.registry.entity? entity) → found = ref)) ∧
      ∀ f ∈ plan.predicates,
        ∃ found, r'.resolve c.settings.walk f.operand.start f.operand.path = .ok found ∧
          found.isMeasure = f.operand.isMeasure ∧ f.SoundOn found := by
  have hinOrder := inOrder_of_accepted haccepted hplan
  have hsilent : hasFatal (plan.review r' c.settings.walk c.settings.review) = false := by
    rw [hreview]
    rfl
  obtain ⟨-, hreferences, hrows, haggregates⟩ := Plan.hasFatal_review_eq_false_iff.1 hsilent
  have hresolves := Plan.referenceFaults_eq_nil_iff.1 hreferences
  refine ⟨fun ref href => ?_, fun f hf => ?_⟩
  · have hstands := hinOrder.references ref (Plan.mem_references_iff.2 href)
    obtain ⟨found, hfound⟩ := hresolves ref href
    exact ⟨hstands, found, hfound, Registry.retraces_of_resolve hstands hfound,
      hstands.eq_of_way hfound⟩
  · -- A predicate is listed where its operand was placed, and the review places it there again.
    have hoperand := hresolves f.operand (.operand hf rfl)
    obtain ⟨placement, hplaced, hfits, hfaults⟩ :
        ∃ placement, f.placement = placement ∧ c.registry.Fits c.settings.walk f ∧
          Plan.predicateFaults r' c.settings.walk placement f = [] := by
      rcases List.mem_append.1 hf with hf | hf
      · exact ⟨.row, (hinOrder.rows f hf).1, (hinOrder.rows f hf).2, hrows f hf⟩
      · exact ⟨.aggregate, (hinOrder.aggregates f hf).1, (hinOrder.aggregates f hf).2,
          haggregates f hf⟩
    obtain ⟨-, found, hfound, hexpected, hsound⟩ :=
      (Plan.predicateFaults_eq_nil_iff hoperand).1 hfaults
    refine ⟨found, hfound, ?_, hsound⟩
    rw [← Placement.ofOperand_inj, hexpected, ← hplaced, hfits.placed]

end Compiler

/-! ## What goes unnoticed -/

namespace Shop

/-- The users, where a country is no column any more but the number of users. -/
def countedUsers : Entity where
  name := "users"
  dimensions := [{ name := "id", valueType := .number }]
  measures := [{ name := "country", sql := some (refer "id"), declared := some .countDistinct }]

/-- The shop over these users. -/
def changed : Registry := registryOf [countedUsers, orders, view]

/-- The column of the shop that shows the country of a user. -/
def country : Reference where
  start := "shop"
  path := "users.country"
  hops := [intoUsers, { entity := "users", field := some "country" }]
  member := .dimension .string

end Shop

namespace Compiler

/-- A plan of the shop for the users that have an identity passes the review against the changed
shop. -/
theorem review_of_accepted_shop :
    let c : Compiler := { registry := Shop.registry }
    let filters := [Filter.member "users.id" .isNotNull []]
    ∃ plan, (c.compile "shop" filters).state = .accepted ∧
      (c.compile "shop" filters).plan = some plan ∧
      plan.review Shop.changed c.settings.walk c.settings.review = [] ∧
      (∀ ref, plan.Mentions ref →
        c.registry.resolve c.settings.walk ref.start ref.path = .ok ref ∧
          ∃ found, Shop.changed.resolve c.settings.walk ref.start ref.path = .ok found ∧
            found.Retraces ref ∧
            ((∀ entity ∈ ref.way, Shop.changed.entity? entity = c.registry.entity? entity) →
              found = ref)) ∧
        ∀ f ∈ plan.predicates, ∃ found,
          Shop.changed.resolve c.settings.walk f.operand.start f.operand.path = .ok found ∧
            found.isMeasure = f.operand.isMeasure ∧ f.SoundOn found := by
  intro c filters
  have haccepted : (c.compile "shop" filters).state = .accepted := by decide +kernel
  have hreview : (c.compile "shop" filters).plan.map
      (fun plan => plan.review Shop.changed c.settings.walk c.settings.review) = some [] := by
    decide +kernel
  obtain ⟨plan, hplan, hsilent⟩ := Option.map_eq_some_iff.1 hreview
  exact ⟨plan, haccepted, hplan, hsilent, review_of_accepted haccepted hplan hsilent⟩

/-- A column of the shop's plan shows a country, and the review does not notice that the country has
become a measure. -/
theorem review_of_accepted_unnoticed :
    let c : Compiler := { registry := Shop.registry }
    ∃ plan, (c.compile "shop" []).state = .accepted ∧ (c.compile "shop" []).plan = some plan ∧
      plan.review Shop.changed c.settings.walk c.settings.review = [] ∧
      plan.Mentions Shop.country ∧
      Shop.changed.resolve c.settings.walk Shop.country.start Shop.country.path ≠
        .ok Shop.country := by
  intro c
  have haccepted : (c.compile "shop" []).state = .accepted := by decide +kernel
  have hreview : (c.compile "shop" []).plan.map
      (fun plan => plan.review Shop.changed c.settings.walk c.settings.review) = some [] := by
    decide +kernel
  have hlisted : ((c.compile "shop" []).plan.map Plan.references).any
      (fun refs => Shop.country ∈ refs) = true := by decide +kernel
  have hmeasure : (Shop.changed.resolve c.settings.walk "shop" "users.country").toOption.map
      Reference.isMeasure = some true := by decide +kernel
  obtain ⟨plan, hplan, hsilent⟩ := Option.map_eq_some_iff.1 hreview
  refine ⟨plan, haccepted, hplan, hsilent, ?_, fun hfound => ?_⟩
  · rw [hplan] at hlisted
    exact Plan.mem_references_iff.1 (by simpa using hlisted)
  · have hfound : Shop.changed.resolve c.settings.walk "shop" "users.country" =
        .ok Shop.country := hfound
    simp [hfound, Except.toOption, Shop.country, Reference.isMeasure, MemberKind.isMeasure]
      at hmeasure

end Compiler

end MetricLayer
