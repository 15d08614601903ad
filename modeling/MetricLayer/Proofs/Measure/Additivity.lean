import MetricLayer.Proofs.Measure.Inference
import MetricLayer.Proofs.Measure.Sharing

/-!
# Additivity along chains of measures

Values of a kind that is not additive must not be aggregated again, so a measure that declares no
aggregation and refers to them is refused if it aggregates them or if a relationship on the way
repeats them, and is not additive itself otherwise (`Infers.not_additive`). The same then holds
along every chain of such measures (`PassesAlong`).
-/

namespace MetricLayer

open Schema

theorem Reference.not_causesFanout {ref : Reference} (h : ref.fansOut = false) {c : Crossing}
    (hc : c ∈ ref.crossings) : c.cardinality ≠ .oneToMany ∧ c.cardinality ≠ .manyToMany :=
  Reference.fansOut_eq_false_iff.1 h c hc

/-! ## Chains of measures -/

namespace Registry

variable {r : Registry} {rules : WalkRules} {a b last : String × String} {ref : Reference}
  {m : Measure} {node : MeasureNode} {operands : List Operand}

/-- An undeclared measure refers to another, by a reference that a path in its text resolves to. -/
def Passes (r : Registry) (rules : WalkRules) (a : String × String) (ref : Reference)
    (b : String × String) : Prop :=
  ∃ m source, r.measureAt? a.1 a.2 = some m ∧ m.declared = none ∧
    r.Reads rules a.1 m ref source ∧ (ref.targetEntity, ref.fieldName) = b

/-- Undeclared measures that each refer to the next, up to a last one, each step given with its
reference. -/
def PassesAlong (r : Registry) (rules : WalkRules) :
    String × String → List (Reference × (String × String)) → String × String → Prop
  | a, [], last => a = last
  | a, (ref, b) :: rest, last => r.Passes rules a ref b ∧ r.PassesAlong rules b rest last

/-- The aggregation of an undeclared measure is inferred. -/
theorem inferred_of_assemble {entity : String} (hdeclared : m.declared = none)
    (h : m.assemble entity operands = .ok node) :
    Aggregation.inferred m.sql operands = .ok node.aggregation := by
  rcases assemble_ok h with ⟨hreused, -⟩ | ⟨-, kind, hkind, rfl⟩
  · simp [hdeclared] at hreused
  · rwa [Measure.aggregation, hdeclared] at hkind

/-- One step of a chain: if an undeclared measure compiles then so does the one it refers to, and if
that is not additive then it is not either, nor does a relationship repeat what it refers to. -/
theorem Passes.step (h : r.Passes rules a ref b)
    (hok : (r.compileNamed rules a.1 a.2 []).1 = .ok node) :
    ∃ n, (r.compileNamed rules b.1 b.2 []).1 = .ok n ∧
      (n.aggregation.isAdditive = false →
        ref.fansOut = false ∧ node.aggregation.isAdditive = false) := by
  obtain ⟨m, source, hm, hdeclared, hread, rfl⟩ := h
  rw [compileNamed_ok_iff hm, compileAlone_ok_iff hm] at hok
  obtain ⟨operands, hassemble, hreads⟩ := defineAfresh_ok hok
  obtain ⟨n, hn, hmem⟩ := hreads ref source hread
  refine ⟨n, (compileNamed_ok_iff hread.registered).2 hn, fun hadditive => ?_⟩
  have hinfers := Aggregation.inferred_ok_iff.1 (inferred_of_assemble hdeclared hassemble)
  exact hinfers.not_additive hmem hadditive

/-- **Chains of undeclared measures.** If the first measure of a chain compiles, so does the last;
if that is not additive, then no measure of the chain is, and no reference of the chain crosses a
relationship that repeats rows. The induction is on the steps of the chain. -/
theorem not_additive_along {steps : List (Reference × (String × String))}
    (hchain : r.PassesAlong rules a steps last)
    (hok : (r.compileNamed rules a.1 a.2 []).1 = .ok node) :
    ∃ n, (r.compileNamed rules last.1 last.2 []).1 = .ok n ∧
      (n.aggregation.isAdditive = false →
        node.aggregation.isAdditive = false ∧
          ∀ step ∈ steps,
            (∀ c ∈ step.1.crossings,
              c.cardinality ≠ .oneToMany ∧ c.cardinality ≠ .manyToMany) ∧
            ∃ n', (r.compileNamed rules step.2.1 step.2.2 []).1 = .ok n' ∧
              n'.aggregation.isAdditive = false) := by
  induction steps generalizing a node with
  | nil =>
    obtain rfl : a = last := hchain
    exact ⟨node, hok, fun hnode => ⟨hnode, by simp⟩⟩
  | cons step rest ih =>
    obtain ⟨ref, b⟩ := step
    obtain ⟨hpass, hrest⟩ := hchain
    obtain ⟨next, hnext, hstep⟩ := hpass.step hok
    obtain ⟨n, hn, hlaw⟩ := ih hrest hnext
    refine ⟨n, hn, fun hadditive => ?_⟩
    obtain ⟨hnextAdditive, hsteps⟩ := hlaw hadditive
    obtain ⟨hfans, hnode⟩ := hstep hnextAdditive
    refine ⟨hnode, fun x hx => ?_⟩
    rcases List.mem_cons.1 hx with rfl | hx
    · exact ⟨fun c hc => Reference.not_causesFanout hfans hc, next, hnext, hnextAdditive⟩
    · exact hsteps x hx

end Registry

/-! ## The countries that the orders of a shop reach -/

namespace Shop

def toReach : Reference where
  start := "orders"
  path := "reach"
  hops := [{ entity := "orders", field := some "reach" }]
  member := .measure none

def toCountries : Reference where
  start := "orders"
  path := "users.countries"
  hops :=
    [{ entity := "users"
       crossing := some
        { source := "orders", target := "users", kind := .join, cardinality := .manyToOne } },
      { entity := "users", field := some "countries" }]
  member := .measure (some .countDistinct)

theorem passes_reached : registry.Passes {} ("orders", "reached") toReach ("orders", "reach") :=
  ⟨{ name := "reached", sql := some (refer "reach") },
    { name := "reach", sql := some (refer "users.countries") }, by decide +kernel, rfl,
    ⟨by decide +kernel, by decide +kernel, by decide +kernel⟩, rfl⟩

theorem passes_reach : registry.Passes {} ("orders", "reach") toCountries ("users", "countries") :=
  ⟨{ name := "reach", sql := some (refer "users.countries") },
    { name := "countries", sql := some (refer "country"), declared := some .countDistinct },
    by decide +kernel, rfl, ⟨by decide +kernel, by decide +kernel, by decide +kernel⟩, rfl⟩

end Shop

/-- Different countries are counted once for all orders, and the two measures that pass them on are
not additive either. -/
theorem Registry.not_additive_along_shop :
    ∃ node n, (Shop.registry.compileNamed {} "orders" "reached" []).1 = .ok node ∧
      (Shop.registry.compileNamed {} "users" "countries" []).1 = .ok n ∧
      n.aggregation.isAdditive = false ∧ node.aggregation.isAdditive = false ∧
      ∀ step ∈ [(Shop.toReach, ("orders", "reach")), (Shop.toCountries, ("users", "countries"))],
        (∀ c ∈ step.1.crossings,
          c.cardinality ≠ .oneToMany ∧ c.cardinality ≠ .manyToMany) ∧
        ∃ n', (Shop.registry.compileNamed {} step.2.1 step.2.2 []).1 = .ok n' ∧
          n'.aggregation.isAdditive = false := by
  have hchain : Shop.registry.PassesAlong {} ("orders", "reached")
      [(Shop.toReach, ("orders", "reach")), (Shop.toCountries, ("users", "countries"))]
      ("users", "countries") := ⟨Shop.passes_reached, Shop.passes_reach, rfl⟩
  have hfirst : (Shop.registry.compileNamed {} "orders" "reached" []).1.toOption.isSome = true := by
    decide +kernel
  have hlast : (Shop.registry.compileNamed {} "users" "countries" []).1.toOption.map
      MeasureNode.aggregation = some .countDistinct := by decide +kernel
  cases hok : (Shop.registry.compileNamed {} "orders" "reached" []).1 with
  | error f => simp [hok, Except.toOption] at hfirst
  | ok node =>
    obtain ⟨n, hn, hlaw⟩ := Registry.not_additive_along hchain hok
    have hkind : n.aggregation = .countDistinct := by simpa [hn, Except.toOption] using hlast
    have hadditive : n.aggregation.isAdditive = false := by rw [hkind]; rfl
    exact ⟨node, n, rfl, hn, hadditive, hlaw hadditive⟩

end MetricLayer
