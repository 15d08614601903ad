import MetricLayer.Proofs.Expression.Scanning
import MetricLayer.Proofs.Measure.References
import MetricLayer.Proofs.Measure.Sharing

/-!
# Trees of compiled measures

A reused measure carries the measures that it takes its values from, and these may be reused
themselves. Wherever a measure stands in such a tree, it is what it compiles to alone in its own
entity, whatever was being compiled around it and whatever was kept from others
(`compileNamed_of_occurs`). So at every depth the sources of a reused measure are those of the paths
in its text that resolve to measures, in their order, each with the measure it resolves to
(`compileNamed_tree`).
-/

namespace MetricLayer

open Schema

/-! ## The measures in a tree -/

namespace MeasureNode

/-- The measures that a compiled one takes its values from, with the references to them. -/
def sources : MeasureNode → List (Reference × MeasureNode)
  | computed _ _ _ _ _ => []
  | reused _ _ sources => sources

/-- A measure in the tree of a compiled one: that one itself, or one in the tree of a source. -/
inductive Occurs (n : MeasureNode) : MeasureNode → Prop where
  | here : Occurs n n
  | source {root : MeasureNode} {s : Reference × MeasureNode} :
      s ∈ root.sources → Occurs n s.2 → Occurs n root

theorem isReused_of_mem_sources {n : MeasureNode} {s : Reference × MeasureNode}
    (h : s ∈ n.sources) : n.isReused = true := by
  cases n with
  | computed => exact absurd h List.not_mem_nil
  | reused => rfl

end MeasureNode

theorem forall₂_filter_filterMap {α β γ : Type} {R : α → β → Prop} {S : α → γ → Prop}
    {p : α → Bool} {f : β → Option γ} {xs : List α} {ys : List β}
    (hnone : ∀ x y, R x y → f y = none → p x = false)
    (hsome : ∀ x y z, R x y → f y = some z → p x = true ∧ S x z) (h : List.Forall₂ R xs ys) :
    List.Forall₂ S (xs.filter p) (ys.filterMap f) := by
  induction h with
  | nil => exact .nil
  | @cons x y xs ys hxy _ ih =>
    cases hy : f y with
    | none =>
      rwa [List.filter_cons_of_neg (by simp [hnone x y hxy hy]), List.filterMap_cons_none hy]
    | some z =>
      obtain ⟨hp, hS⟩ := hsome x y z hxy hy
      rw [List.filter_cons_of_pos hp, List.filterMap_cons_some hy]
      exact .cons hS ih

namespace Registry

variable {r : Registry} {rules : WalkRules} {source : PlainSource} {entity path name : String}
  {m : Measure} {node root n : MeasureNode} {ref : Reference}

/-! ## The paths of a text -/

/-- Whether a path of an entity resolves to a measure. -/
def leadsToMeasure (r : Registry) (rules : WalkRules) (entity path : String) : Bool :=
  match r.resolve rules entity path with
  | .ok ref => ref.isMeasure
  | .error _ => false

theorem leadsToMeasure_iff : r.leadsToMeasure rules entity path = true ↔
    ∃ ref, r.resolve rules entity path = .ok ref ∧ ref.isMeasure = true := by
  unfold leadsToMeasure
  cases r.resolve rules entity path <;> simp

theorem nodup_measurePaths (entity : String) (m : Measure) : (measurePaths entity m).Nodup := by
  unfold measurePaths
  split
  · exact Expression.nodup_dropRepeats _
  · exact List.nodup_nil

/-! ## The sources of a reused measure -/

theorem operandAfresh_measure
    (h : r.operandAfresh rules source entity path = .ok (.measure ref n)) :
    r.resolve rules entity path = .ok ref ∧
      ∃ upstream, r.field ref.targetEntity ref.fieldName = .ok (.measure upstream) ∧
        source ref.targetEntity upstream = .ok n := by
  have hres : r.resolve rules entity path = .ok ref := (operandAfresh_ok h).1
  refine ⟨hres, ?_⟩
  unfold operandAfresh at h
  obtain ⟨field, hfield, -⟩ := field_of_resolve hres
  simp only [hres, hfield] at h
  cases field with
  | dimension d => simp at h
  | measure upstream =>
    refine ⟨upstream, hfield, ?_⟩
    cases hn : source ref.targetEntity upstream with
    | error f => simp [hn] at h
    | ok n' =>
      simp only [hn, Except.ok.injEq, Operand.measure.injEq, true_and] at h
      rw [h]

theorem sources_of_defineAfresh (h : r.defineAfresh rules source entity m = .ok node)
    (hreused : node.isReused = true) :
    List.Forall₂ (fun path s => r.resolve rules entity path = .ok s.1 ∧
        ∃ upstream, r.field s.1.targetEntity s.1.fieldName = .ok (.measure upstream) ∧
          source s.1.targetEntity upstream = .ok s.2)
      ((measurePaths entity m).filter (r.leadsToMeasure rules entity)) node.sources := by
  obtain ⟨operands, hos, hassemble⟩ := defineAfresh_eq_ok_iff.1 h
  rcases assemble_ok hassemble with ⟨-, rfl⟩ | ⟨-, kind, -, rfl⟩
  · show List.Forall₂ _ _ (measuresOf operands)
    refine forall₂_filter_filterMap (fun path o ho hnone => ?_) (fun path o s ho hsome => ?_)
      (operandsAfresh_ok_iff.1 hos)
    · obtain ⟨hres, hmeasure⟩ := operandAfresh_ok ho
      rw [leadsToMeasure, hres, Bool.eq_false_iff]
      exact fun h => hmeasure.1 h hnone
    · cases o with
      | dimension ref t => simp [Operand.asMeasure?] at hsome
      | measure ref n =>
        obtain rfl : (ref, n) = s := by simpa [Operand.asMeasure?] using hsome
        obtain ⟨hres, hmeasure⟩ := operandAfresh_ok ho
        exact ⟨leadsToMeasure_iff.2 ⟨_, hres, hmeasure.2 (by simp [Operand.asMeasure?])⟩,
          operandAfresh_measure ho⟩
  · simp [MeasureNode.isReused] at hreused

/-- A registered measure that compiles by its name is defined by its text over the measures that
compile alone. -/
theorem defineAfresh_of_compileNamed (hm : r.measureAt? entity name = some m)
    (h : (r.compileNamed rules entity name []).1 = .ok node) :
    r.defineAfresh rules (r.compileAlone rules) entity m = .ok node := by
  rw [compileNamed_eq hm] at h
  exact compileMeasureAfresh_ok_iff.1 h

theorem sources_of_compileNamed (hm : r.measureAt? entity name = some m)
    (h : (r.compileNamed rules entity name []).1 = .ok node) (hreused : node.isReused = true) :
    List.Forall₂ (fun path s => r.resolve rules entity path = .ok s.1 ∧
        (r.compileNamed rules s.1.targetEntity s.1.fieldName []).1 = .ok s.2)
      ((measurePaths entity m).filter (r.leadsToMeasure rules entity)) node.sources := by
  refine (sources_of_defineAfresh (defineAfresh_of_compileNamed hm h) hreused).imp ?_
  rintro path ⟨ref, below⟩ ⟨hres, upstream, hfield, hbelow⟩
  have htarget : r.measureAt? (ref.targetEntity, ref.fieldName).1
      (ref.targetEntity, ref.fieldName).2 = some upstream := measureAt?_of_field hfield
  exact ⟨hres, (compileNamed_ok_iff htarget).2 hbelow⟩

/-! ## Trees -/

/-- A measure in the tree of a compiled one is what it compiles to by its own name. The induction is
on the way down the tree. -/
theorem compileNamed_of_occurs (h : (r.compileNamed rules entity name []).1 = .ok root)
    (hn : n.Occurs root) : (r.compileNamed rules n.entity n.name []).1 = .ok n := by
  induction hn generalizing entity name with
  | here =>
    obtain ⟨m, hm⟩ := measureAt?_of_compileNamed (a := (entity, name)) h
    have hlabel := label_of_defineAfresh (defineAfresh_of_compileNamed hm h)
    have hname : m.name = name := name_of_measureAt? hm
    rwa [MeasureNode.entity, MeasureNode.name, hlabel, hname]
  | source hs _ ih =>
    obtain ⟨m, hm⟩ := measureAt?_of_compileNamed (a := (entity, name)) h
    have hreused := MeasureNode.isReused_of_mem_sources hs
    obtain ⟨path, -, -, hbelow⟩ :=
      exists_left_of_forall₂ (sources_of_compileNamed hm h hreused) hs
    exact ih hbelow

/-- **Trees of reused measures.** Every measure in the tree of a compiled measure belongs to a
registered one. It is reused if and only if that is declared a number and a path in its text
resolves to a measure. Its sources are then, in the order in which its text first mentions them and
with none left out, the paths that resolve to measures: each with what the path resolves to, and
with what the measure found there compiles to by its own name. -/
theorem compileNamed_tree (h : (r.compileNamed rules entity name []).1 = .ok root) :
    ∀ n : MeasureNode, n.Occurs root → ∃ m, r.measureAt? n.entity n.name = some m ∧
      (measurePaths n.entity m).Nodup ∧
      (n.isReused = true ↔ m.declared = some .number ∧
        ∃ path ∈ measurePaths n.entity m, r.leadsToMeasure rules n.entity path = true) ∧
      (n.isReused = true →
        List.Forall₂ (fun path s => r.resolve rules n.entity path = .ok s.1 ∧
            (r.compileNamed rules s.1.targetEntity s.1.fieldName []).1 = .ok s.2)
          ((measurePaths n.entity m).filter (r.leadsToMeasure rules n.entity)) n.sources) := by
  intro n hn
  have hcompiled := compileNamed_of_occurs h hn
  obtain ⟨m, hm⟩ := measureAt?_of_compileNamed (a := (n.entity, n.name)) hcompiled
  refine ⟨m, hm, nodup_measurePaths _ m, ?_, sources_of_compileNamed hm hcompiled⟩
  simp only [leadsToMeasure_iff]
  exact isReused_of_defineAfresh (defineAfresh_of_compileNamed hm hcompiled)

end Registry

/-! ## Margins

The margin of a shop is taken from its profit and its revenue, and the profit from the revenue and
the costs. -/

namespace Margins

def orders : Entity where
  name := "orders"
  dimensions :=
    [{ name := "amount", valueType := .number }, { name := "cost", valueType := .number }]
  measures :=
    [{ name := "revenue", sql := some ("SUM(" ++ Shop.refer "amount" ++ ")") },
      { name := "costs", sql := some ("SUM(" ++ Shop.refer "cost" ++ ")") },
      { name := "profit", declared := some .number,
        sql := some (Shop.refer "revenue" ++ " - " ++ Shop.refer "costs") },
      { name := "margin", declared := some .number,
        sql := some (Shop.refer "profit" ++ " / " ++ Shop.refer "revenue") }]

def registry : Registry := Shop.registryOf [orders]

end Margins

/-- The profit stands in the tree of the margin, and takes its values from two measures. -/
theorem Registry.compileNamed_tree_margin :
    let r := Margins.registry
    ∃ (root n : MeasureNode) (m : Measure),
      (r.compileNamed {} "orders" "margin" []).1 = .ok root ∧ n.Occurs root ∧
      n.name = "profit" ∧ n.isReused = true ∧ n.sources.length = 2 ∧
      r.measureAt? n.entity n.name = some m ∧
      List.Forall₂ (fun path s => r.resolve {} n.entity path = .ok s.1 ∧
          (r.compileNamed {} s.1.targetEntity s.1.fieldName []).1 = .ok s.2)
        ((measurePaths n.entity m).filter (r.leadsToMeasure {} n.entity)) n.sources := by
  intro r
  let shown (n : MeasureNode) := (n.name, n.isReused, n.sources.length)
  have hshown : (r.compileNamed {} "orders" "margin" []).1.toOption.map
      (fun root => root.sources.map fun s => shown s.2) =
        some [("profit", true, 2), ("revenue", false, 0)] := by decide +kernel
  cases hroot : (r.compileNamed {} "orders" "margin" []).1 with
  | error f => simp [hroot, Except.toOption] at hshown
  | ok root =>
    rw [hroot] at hshown
    have hlisted : root.sources.map (fun s => shown s.2) =
        [("profit", true, 2), ("revenue", false, 0)] := Option.some.inj hshown
    have hprofit : ("profit", true, 2) ∈ root.sources.map fun s => shown s.2 := by
      rw [hlisted]
      exact List.mem_cons_self
    obtain ⟨s, hs, hfields⟩ := List.mem_map.1 hprofit
    simp only [shown, Prod.mk.injEq] at hfields
    obtain ⟨hname, hreused, hlength⟩ := hfields
    have hoccurs : s.2.Occurs root := .source hs .here
    obtain ⟨m, hm, -, -, hall⟩ := compileNamed_tree hroot s.2 hoccurs
    exact ⟨root, s.2, m, rfl, hoccurs, hname, hreused, hlength, hm, hall hreused⟩

end MetricLayer
