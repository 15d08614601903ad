import MetricLayer.Proofs.Outcome.Agreement

/-!
# Operands of accepted predicates

A filter is checked against what its operand says of itself, without compiling a measure. So an
operator and its literals suit the type of a dimension, and of a measure that declares an
aggregation whose results are numbers whatever they are taken of. The type of any other measure is
not known, and a measure that only filters mention is not compiled: what is known to compile are the
measures that the plan takes up (`compile_operands`).
-/

namespace MetricLayer

open Relation Schema

/-! ## What is checked -/

/-- A predicate compares its operand with literals of a type, and by an order only if the type has
one. -/
def Predicate.Suits (f : Predicate) (t : ValueType) : Prop :=
  (∀ v ∈ f.values, v.fits t = true) ∧ (f.operator.isComparison = true → t.isOrdered = true)

theorem misuse?_eq_none {t : ValueType} {op : Operator} {values : List Literal}
    (h : misuse? (some t) op values = none) :
    (∀ v ∈ values, v.fits t = true) ∧ (op.isComparison = true → t.isOrdered = true) := by
  unfold misuse? at h
  dsimp only at h
  split_ifs at h with _ hcompare
  rw [Option.map_eq_none_iff, List.find?_eq_none] at h
  refine ⟨fun v hv => by simpa using h v hv, fun hop => ?_⟩
  by_contra hordered
  exact hcompare (by simp [hop, hordered])

theorem Predicate.suits_of_checkOperator {f : Predicate} {t : ValueType}
    (h : checkOperator f.operand f.operator f.values = .ok ())
    (ht : f.operand.valueType? = some t) : f.Suits t := by
  unfold checkOperator at h
  rw [ht] at h
  split at h
  · simp at h
  · next hnone => exact misuse?_eq_none hnone

/-! ## What a declared measure results in -/

namespace Registry

variable {r : Registry} {rules : WalkRules} {entity : String} {m : Measure} {node : MeasureNode}
  {a b : String × String} {ref : Reference} {kind : Aggregation}

theorem outputType_of_assemble {operands : List Operand} (hdeclared : m.declared = some kind)
    (hmin : kind ≠ .min) (hmax : kind ≠ .max) (h : m.assemble entity operands = .ok node) :
    node.outputType = kind.outputType none := by
  have hkind : ∀ t, kind.outputType t = kind.outputType none := by
    intro t
    cases kind <;> first | rfl | contradiction
  rcases assemble_ok h with ⟨hreused, rfl⟩ | ⟨-, kind', hk, rfl⟩
  · obtain rfl : kind = .number := by simpa [hdeclared] using hreused.1
    rfl
  · have hsame : kind' = kind := by
      unfold Measure.aggregation at hk
      simp only [hdeclared] at hk
      split at hk
      · simp at hk
      · exact (Except.ok.inj hk).symm
    rw [MeasureNode.outputType, hsame, hkind]

theorem outputType_of_compileNamed (hm : r.measureAt? a.1 a.2 = some m)
    (hdeclared : m.declared = some kind) (hmin : kind ≠ .min) (hmax : kind ≠ .max)
    (h : (r.compileNamed rules a.1 a.2 []).1 = .ok node) :
    node.outputType = kind.outputType none := by
  rw [compileNamed_ok_iff hm, compileAlone_ok_iff hm] at h
  obtain ⟨operands, hassemble, -⟩ := defineAfresh_ok h
  exact outputType_of_assemble hdeclared hmin hmax hassemble

/-! ## The measures that a plan takes up -/

/-- The measures that are compiled for the plan of an entity: its own, those that stand-ins of
re-exported measures refer to, and all that these depend on. -/
inductive TakenUp (r : Registry) (rules : WalkRules) (e : Entity) : String × String → Prop where
  | own {m : Measure} : m ∈ e.measures → TakenUp r rules e (e.name, m.name)
  | reexported {path : String} {exported ref : Reference} {source : Measure} : path ∈ e.includes →
    r.resolve rules e.name path = .ok exported → exported.isMeasure = true →
    r.Reads rules e.name (Draft.standIn path (Path.ofText path).member) ref source →
    TakenUp r rules e (ref.targetEntity, ref.fieldName)
  | dependency {a b : String × String} : TakenUp r rules e a → r.DependsOn rules a b →
    TakenUp r rules e b

/-- What the text of a compiled measure refers to compiles as well. -/
theorem compileNamed_of_reads {source : Measure}
    (h : r.compileMeasureAfresh rules entity m = .ok node)
    (hread : r.Reads rules entity m ref source) :
    ∃ n, (r.compileNamed rules ref.targetEntity ref.fieldName []).1 = .ok n := by
  obtain ⟨operands, -, hreads⟩ := defineAfresh_ok (compileMeasureAfresh_ok_iff.1 h)
  obtain ⟨n, hn, -⟩ := hreads ref source hread
  have htarget : r.measureAt? (ref.targetEntity, ref.fieldName).1
      (ref.targetEntity, ref.fieldName).2 = some source := hread.registered
  exact ⟨n, (compileNamed_ok_iff htarget).2 hn⟩

/-- If all parts of a request are in its plan, the measures that the plan takes up compile. -/
theorem TakenUp.compiles {e : Entity} {filters : List Filter} (he : r.entity? e.name = some e)
    (hparts : ∀ part ∈ Part.all e filters, ∃ y, part.yield r rules e = .ok y)
    (h : r.TakenUp rules e a) : ∃ node, (r.compileNamed rules a.1 a.2 []).1 = .ok node := by
  induction h with
  | @own m hm =>
    have hmeasure := measureAt?_of_mem he hm
    obtain ⟨y, hy⟩ := hparts (.measure m) (by simp [Part.all, hm])
    obtain ⟨node, hnode, -⟩ := map_eq_ok_iff.1 hy
    refine ⟨node, ?_⟩
    rw [compileNamed_eq hmeasure, ← compileMeasure_nil]
    exact hnode
  | @reexported path exported ref source hpath hres hmeasure hread =>
    obtain ⟨y, hy⟩ := hparts (.inclusion path) (by simp [Part.all, hpath])
    rw [Part.yield, Draft.included_of_isMeasure hres hmeasure] at hy
    obtain ⟨node, hnode, -⟩ := map_eq_ok_iff.1 hy
    exact compileNamed_of_reads hnode hread
  | @dependency a b _ hdep ih =>
    obtain ⟨node, hnode⟩ := ih
    obtain ⟨m, ref, source, hm, hread, rfl⟩ := hdep
    rw [compileNamed_eq hm] at hnode
    exact compileNamed_of_reads hnode hread

/-- What is known of the operand of a predicate in an accepted plan: it is a field, the operator and
the literals suit it if it is a dimension or a measure of a declared kind whose results are always
numbers, and it compiles if the plan takes it up. -/
structure SoundOperand (r : Registry) (rules : WalkRules) (e : Entity) (f : Predicate) : Prop where
  field : ∃ field, r.field f.operand.targetEntity f.operand.fieldName = .ok field
  dimension : ∀ d, r.field f.operand.targetEntity f.operand.fieldName = .ok (.dimension d) →
    f.Suits d.valueType
  declared : ∀ m kind, r.field f.operand.targetEntity f.operand.fieldName = .ok (.measure m) →
    m.declared = some kind → kind ≠ .min → kind ≠ .max →
      f.Suits (kind.outputType none) ∧
      ∀ node, (r.compileNamed rules f.operand.targetEntity f.operand.fieldName []).1 = .ok node →
        node.outputType = kind.outputType none
  takenUp : r.TakenUp rules e (f.operand.targetEntity, f.operand.fieldName) →
    ∃ node, (r.compileNamed rules f.operand.targetEntity f.operand.fieldName []).1 = .ok node

theorem Fits.soundOperand {e : Entity} {filters : List Filter} {f : Predicate} (h : r.Fits rules f)
    (he : r.entity? e.name = some e)
    (hparts : ∀ part ∈ Part.all e filters, ∃ y, part.yield r rules e = .ok y) :
    r.SoundOperand rules e f := by
  obtain ⟨field, hfield, hmember⟩ := field_of_resolve h.stands
  have hsame : ∀ g, r.field f.operand.targetEntity f.operand.fieldName = .ok g →
      f.operand.member = g.memberKind := by
    intro g hg
    rw [hfield] at hg
    cases hg
    exact hmember
  refine ⟨⟨field, hfield⟩, fun d hd => ?_, fun m kind hm hdeclared hmin hmax => ⟨?_, ?_⟩, ?_⟩
  · refine Predicate.suits_of_checkOperator h.suited ?_
    simp [Reference.valueType?, hsame _ hd, Field.memberKind]
  · refine Predicate.suits_of_checkOperator h.suited ?_
    rw [Reference.valueType?, hsame _ hm, Field.memberKind, hdeclared]
    cases kind <;> first | rfl | contradiction
  · intro node hnode
    have ha : r.measureAt? (f.operand.targetEntity, f.operand.fieldName).1
        (f.operand.targetEntity, f.operand.fieldName).2 = some m := measureAt?_of_field hm
    exact outputType_of_compileNamed ha hdeclared hmin hmax hnode
  · exact TakenUp.compiles he hparts

end Registry

/-! ## Accepted plans -/

namespace Compiler

variable {c : Compiler} {name : String} {filters : List Filter}

/-- **Operands of accepted predicates.** In an accepted plan each predicate has a field for its
operand. Its operator and its literals suit the type of a dimension, and of a measure that declares
an aggregation other than a least or greatest value: the type that the measure has when it compiles.
A measure that the plan takes up compiles alone. -/
theorem compile_operands (haccepted : (c.compile name filters).state = .accepted) :
    ∃ e plan, c.registry.entity? name = some e ∧ (c.compile name filters).plan = some plan ∧
      ∀ f ∈ plan.predicates, c.registry.SoundOperand c.settings.walk e f := by
  obtain ⟨e, he⟩ := exists_entity_of_accepted haccepted
  have hself := Registry.entity?_self he
  have hparts := yields_of_accepted he haccepted
  have hinOrder : (Draft.ofEntity c.registry c.settings.walk e filters).plan.InOrder _ _ :=
    Draft.inOrder_ofEntity
  refine ⟨e, _, he, plan_compile he, fun f hf => ?_⟩
  rcases List.mem_append.1 hf with hf | hf
  · exact (hinOrder.rows f hf).2.soundOperand hself hparts
  · exact (hinOrder.aggregates f hf).2.soundOperand hself hparts

/-- A plan of the shop that compares a country and the number of countries. -/
theorem compile_operands_shop :
    let c : Compiler := { registry := Shop.registry }
    let filters := [Filter.member "users.country" .equals [.string "DE"],
      Filter.member "users.countries" .gt [.number (.finite false .zero)]]
    (c.compile "shop" filters).state = .accepted ∧
      ∃ e plan, c.registry.entity? "shop" = some e ∧ (c.compile "shop" filters).plan = some plan ∧
        ∀ f ∈ plan.predicates, c.registry.SoundOperand c.settings.walk e f := by
  intro c filters
  have haccepted : (c.compile "shop" filters).state = .accepted := by decide +kernel
  exact ⟨haccepted, compile_operands haccepted⟩

end Compiler

/-! ## What is not checked -/

namespace Shop

def intoUsers : Hop where
  entity := "users"
  crossing := some
    { source := "shop", target := "users", kind := .inclusion, cardinality := .oneToOne }

def backToOrders : Hop where
  entity := "orders"
  crossing := some
    { source := "users", target := "orders", kind := .join, cardinality := .oneToMany,
      reversed := true }

/-- A predicate that compares the revenue, whose kind is not declared, with a string. -/
def revenueIsMany : Predicate where
  operand :=
    { start := "shop", path := "users.orders.revenue"
      hops := [intoUsers, backToOrders, { entity := "orders", field := some "revenue" }]
      member := .measure none }
  operator := .equals
  values := [.string "many"]
  placement := .aggregate
  origin := .request

/-- A predicate on a measure that depends on itself. -/
def secondIsMissing : Predicate where
  operand :=
    { start := "shop", path := "users.second"
      hops := [intoUsers, { entity := "users", field := some "second" }]
      member := .measure none }
  operator := .isNull
  values := []
  placement := .aggregate
  origin := .request

end Shop

/-- A plan of the shop is accepted that compares a sum of numbers with a string and asks for a
measure that does not compile. -/
theorem Compiler.compile_operands_undeclared :
    let c : Compiler := { registry := Shop.registry }
    let filters := [Filter.member "users.orders.revenue" .equals [.string "many"],
      Filter.member "users.second" .isNull []]
    (c.compile "shop" filters).state = .accepted ∧
      ∃ plan, (c.compile "shop" filters).plan = some plan ∧
        (∃ f ∈ plan.predicates, f.operand.isMeasure = true ∧
          ∃ node, c.compileMeasure f.operand.targetEntity f.operand.fieldName = .ok node ∧
            ∃ v ∈ f.values, v.fits node.outputType = false) ∧
        ∃ f ∈ plan.predicates, f.operand.isMeasure = true ∧
          ∃ fault, c.compileMeasure f.operand.targetEntity f.operand.fieldName = .error fault := by
  intro c filters
  have haccepted : (c.compile "shop" filters).state = .accepted := by decide +kernel
  have hlisted : (c.compile "shop" filters).plan.map Plan.predicates =
      some [Shop.revenueIsMany, Shop.secondIsMissing] := by decide +kernel
  have hrevenue : (c.compileMeasure "orders" "revenue").toOption.map MeasureNode.outputType =
      some .number := by decide +kernel
  have hsecond : (c.compileMeasure "users" "second").toOption.isNone = true := by decide +kernel
  obtain ⟨plan, hplan, hpredicates⟩ := Option.map_eq_some_iff.1 hlisted
  refine ⟨haccepted, plan, hplan, ⟨Shop.revenueIsMany, by simp [hpredicates], rfl, ?_⟩,
    ⟨Shop.secondIsMissing, by simp [hpredicates], rfl, ?_⟩⟩
  · show ∃ node, c.compileMeasure "orders" "revenue" = .ok node ∧ _
    cases hnode : c.compileMeasure "orders" "revenue" with
    | error f => simp [hnode, Except.toOption] at hrevenue
    | ok node =>
      have htype : node.outputType = .number := by simpa [hnode, Except.toOption] using hrevenue
      exact ⟨node, rfl, .string "many", by simp [Shop.revenueIsMany], by rw [htype]; rfl⟩
  · show ∃ fault, c.compileMeasure "users" "second" = .error fault
    cases hnode : c.compileMeasure "users" "second" with
    | error f => exact ⟨f, rfl⟩
    | ok node => simp [hnode, Except.toOption] at hsecond

end MetricLayer
