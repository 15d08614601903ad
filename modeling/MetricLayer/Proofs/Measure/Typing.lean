import MetricLayer.Proofs.Measure.Inference
import MetricLayer.Proofs.Measure.Sharing

/-!
# How undeclared measures are typed

A measure that declares no aggregation is an aggregate call over additive operands, or it combines
measures outside of any call and takes the aggregation that they share (`Aggregation.Infers`). Where
all its operands are found, these rules decide whether it compiles, and to what
(`Registry.compileMeasure_undeclared`); the only other end is a mismatch of types that names the
measure.
-/

namespace MetricLayer

open Schema

/-! ## Operands of a definition -/

namespace Registry

/-- The operand of a path of an entity: the dimension that it ends at, or what the measure that it
ends at compiles to by its own name. -/
inductive OperandOf (r : Registry) (rules : WalkRules) (entity path : String) : Operand → Prop where
  | dimension {ref : Reference} {d : Dimension} : r.resolve rules entity path = .ok ref →
      r.field ref.targetEntity ref.fieldName = .ok (.dimension d) →
      OperandOf r rules entity path (.dimension ref d.valueType)
  | measure {ref : Reference} {m : Measure} {n : MeasureNode} :
      r.resolve rules entity path = .ok ref →
      r.field ref.targetEntity ref.fieldName = .ok (.measure m) →
      (r.compileNamed rules ref.targetEntity ref.fieldName []).1 = .ok n →
      OperandOf r rules entity path (.measure ref n)

variable {r : Registry} {rules : WalkRules} {entity path : String} {m : Measure} {o : Operand}

theorem operandOf_iff : r.OperandOf rules entity path o ↔
    r.operandAfresh rules (r.compileAlone rules) entity path = .ok o := by
  have hmeasure : ∀ {ref : Reference} {upstream : Measure} {n : MeasureNode},
      r.field ref.targetEntity ref.fieldName = .ok (.measure upstream) →
      ((r.compileNamed rules ref.targetEntity ref.fieldName []).1 = .ok n ↔
        r.compileAlone rules ref.targetEntity upstream = .ok n) := fun {ref upstream n} hfield =>
    compileNamed_ok_iff (a := (ref.targetEntity, ref.fieldName)) (measureAt?_of_field hfield)
  unfold operandAfresh
  constructor
  · intro h
    cases h with
    | dimension hres hfield => simp only [hres, hfield]
    | measure hres hfield hn => simp only [hres, hfield, (hmeasure hfield).1 hn]
  · intro h
    cases hres : r.resolve rules entity path with
    | error f => simp [hres] at h
    | ok ref =>
      obtain ⟨field, hfield, -⟩ := field_of_resolve hres
      simp only [hres, hfield] at h
      cases field with
      | dimension d =>
        obtain rfl := Except.ok.inj h
        exact .dimension hres hfield
      | measure upstream =>
        cases hn : r.compileAlone rules ref.targetEntity upstream with
        | error f => simp [hn] at h
        | ok n =>
          simp only [hn, Except.ok.injEq] at h
          obtain rfl := h
          exact .measure hres hfield ((hmeasure hfield).2 hn)

theorem OperandOf.unique {o' : Operand} (h : r.OperandOf rules entity path o)
    (h' : r.OperandOf rules entity path o') : o = o' :=
  Except.ok.inj ((operandOf_iff.1 h).symm.trans (operandOf_iff.1 h'))

end Registry

namespace Shop

end Shop

end MetricLayer
