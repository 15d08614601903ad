import MetricLayer.Proofs.Measure.Afresh

/-!
# The references of compiled measures

A reference depends on nothing but where it starts and its path: following the path again gives it
again. So every reference that a compiled measure holds, its own and those of the measures below it,
can be followed again in the registry it was compiled in (`stands_of_compileMeasureAfresh`).

A measure that is computed refers itself to every field that the paths in its text resolve to. One
that takes values of other measures refers to these alone, and not to the dimensions beside them
(`mem_references_of_defineAfresh`).
-/

namespace MetricLayer

open Schema

/-- The references of an operand, with those of the measure that it may be. -/
def Operand.allReferences : Operand → List Reference
  | dimension ref _ => [ref]
  | measure ref node => ref :: node.allReferences

theorem Operand.reference_mem_allReferences (o : Operand) : o.reference ∈ o.allReferences := by
  cases o <;> simp [reference, allReferences]

namespace MeasureNode

theorem mem_allReferences_ofSources {ref : Reference} {sources : List (Reference × MeasureNode)} :
    ref ∈ allReferences.ofSources sources ↔
      ∃ s ∈ sources, ref = s.1 ∨ ref ∈ s.2.allReferences := by
  induction sources with
  | nil => simp [allReferences.ofSources]
  | cons s rest ih =>
    simp only [allReferences.ofSources, List.mem_cons, List.mem_append, ih, or_and_right, exists_or,
      exists_eq_left, or_assoc]

end MeasureNode

namespace Registry

variable {r : Registry} {rules : WalkRules} {source : PlainSource} {entity path : String}
  {m : Measure} {node : MeasureNode} {ref : Reference}

/-- Following the path of a reference from where it starts gives the reference. -/
def Stands (r : Registry) (rules : WalkRules) (ref : Reference) : Prop :=
  r.resolve rules ref.start ref.path = .ok ref

theorem stands_of_resolve {start : String} (h : r.resolve rules start path = .ok ref) :
    r.Stands rules ref := by
  obtain ⟨hstart, hpath, -⟩ := resolve_ok h
  unfold Stands
  rwa [hstart, hpath]

/-- A source of measures all of whose references stand. -/
def SoundSource (r : Registry) (rules : WalkRules) (source : PlainSource) : Prop :=
  ∀ target upstream n, source target upstream = .ok n → ∀ ref ∈ n.allReferences, r.Stands rules ref

theorem stands_of_operandAfresh {o : Operand} (hsource : r.SoundSource rules source)
    (h : r.operandAfresh rules source entity path = .ok o) :
    ∀ ref ∈ o.allReferences, r.Stands rules ref := by
  unfold operandAfresh at h
  cases hres : r.resolve rules entity path with
  | error f => simp [hres] at h
  | ok reference =>
    have hstands : r.Stands rules reference := stands_of_resolve hres
    obtain ⟨field, hfield, -⟩ := field_of_resolve hres
    simp only [hres, hfield] at h
    cases field with
    | dimension d =>
      cases h
      simpa [Operand.allReferences] using hstands
    | measure upstream =>
      cases hn : source reference.targetEntity upstream with
      | error f => simp [hn] at h
      | ok n =>
        simp only [hn, Except.ok.injEq] at h
        subst h
        intro ref href
        rcases List.mem_cons.1 href with rfl | href
        · exact hstands
        · exact hsource _ _ n hn ref href

theorem mem_allReferences_of_assemble {operands : List Operand}
    (h : m.assemble entity operands = .ok node) (href : ref ∈ node.allReferences) :
    ∃ o ∈ operands, ref ∈ o.allReferences := by
  rcases assemble_ok h with ⟨-, rfl⟩ | ⟨-, kind, -, rfl⟩
  · rw [MeasureNode.allReferences, MeasureNode.mem_allReferences_ofSources] at href
    obtain ⟨s, hs, href⟩ := href
    obtain ⟨o, ho, hos⟩ := List.mem_filterMap.1 hs
    cases o with
    | dimension d t => simp [Operand.asMeasure?] at hos
    | measure reference n =>
      cases hos
      exact ⟨_, ho, List.mem_cons.2 href⟩
  · rw [MeasureNode.allReferences] at href
    obtain ⟨o, ho, rfl⟩ := List.mem_map.1 href
    exact ⟨o, ho, o.reference_mem_allReferences⟩

theorem stands_of_defineAfresh (hsource : r.SoundSource rules source)
    (h : r.defineAfresh rules source entity m = .ok node) :
    ∀ ref ∈ node.allReferences, r.Stands rules ref := by
  obtain ⟨operands, hops, hassemble⟩ := defineAfresh_eq_ok_iff.1 h
  intro ref href
  obtain ⟨o, ho, hmem⟩ := mem_allReferences_of_assemble hassemble href
  obtain ⟨path, -, hoperand⟩ := exists_path_of_operandsAfresh hops ho
  exact stands_of_operandAfresh hsource hoperand ref hmem

/-- Compiled measures are sound sources. The induction is on the measures that are not being
compiled yet: the measures below are compiled with one of them less. -/
theorem soundSource_compileAfresh {pending visiting : List String} :
    r.SoundSource rules (r.compileAfresh rules pending visiting) := by
  induction hn : pending.length using Nat.strongRecOn generalizing pending visiting with
  | ind n ih =>
    intro target upstream n' h
    have hkey := mem_pending_of_compileAfresh h
    rw [compileAfresh_of_mem hkey] at h
    exact stands_of_defineAfresh (ih _ (hn ▸ length_strike_lt hkey) rfl) h

theorem stands_of_compileMeasureAfresh (h : r.compileMeasureAfresh rules entity m = .ok node) :
    ∀ ref ∈ node.allReferences, r.Stands rules ref := by
  unfold compileMeasureAfresh at h
  split at h
  · exact soundSource_compileAfresh _ _ _ h
  · exact stands_of_defineAfresh soundSource_compileAfresh h

/-! ## The references that a measure reads itself -/

theorem operandAfresh_ok {o : Operand} (h : r.operandAfresh rules source entity path = .ok o) :
    r.resolve rules entity path = .ok o.reference ∧
      (o.reference.isMeasure = true ↔ o.asMeasure? ≠ none) := by
  unfold operandAfresh at h
  cases hres : r.resolve rules entity path with
  | error f => simp [hres] at h
  | ok reference =>
    obtain ⟨field, hfield, hmember⟩ := field_of_resolve hres
    simp only [hres, hfield] at h
    unfold Reference.isMeasure
    cases field with
    | dimension d =>
      cases h
      simp [Operand.reference, Operand.asMeasure?, hmember, Field.memberKind, MemberKind.isMeasure]
    | measure upstream =>
      cases hn : source reference.targetEntity upstream with
      | error f => simp [hn] at h
      | ok n =>
        simp only [hn, Except.ok.injEq] at h
        subst h
        simp [Operand.reference, Operand.asMeasure?, hmember, Field.memberKind,
          MemberKind.isMeasure]

theorem isReused_of_assemble {operands : List Operand} (h : m.assemble entity operands = .ok node) :
    node.isReused = true ↔ m.declared = some .number ∧ measuresOf operands ≠ [] := by
  rcases assemble_ok h with ⟨hreused, rfl⟩ | ⟨hcomputed, kind, -, rfl⟩
  · exact iff_of_true rfl hreused
  · exact iff_of_false Bool.false_ne_true hcomputed

/-- A compiled measure refers to its operands, if it is reused to the measures among them. -/
theorem mem_references_of_assemble {operands : List Operand}
    (h : m.assemble entity operands = .ok node) :
    ref ∈ node.references ↔
      ∃ o ∈ operands, o.reference = ref ∧ (node.isReused = true → o.asMeasure? ≠ none) := by
  rcases assemble_ok h with ⟨-, rfl⟩ | ⟨-, kind, -, rfl⟩
  · simp only [MeasureNode.references, MeasureNode.isReused, measuresOf, List.mem_map,
      List.mem_filterMap]
    constructor
    · rintro ⟨s, ⟨o, ho, hs⟩, rfl⟩
      cases o <;> cases hs
      exact ⟨_, ho, rfl, by simp [Operand.asMeasure?]⟩
    · rintro ⟨o, ho, rfl, hmeasure⟩
      cases o with
      | dimension d t => simp [Operand.asMeasure?] at hmeasure
      | measure reference n => exact ⟨(reference, n), ⟨_, ho, rfl⟩, rfl⟩
  · simp [MeasureNode.references, MeasureNode.isReused]

/-- Each path in the text of a measure that compiles resolves. The measure refers to what it
resolves to, unless it is reused and that is a dimension. -/
theorem mem_references_of_defineAfresh (h : r.defineAfresh rules source entity m = .ok node)
    (hpath : path ∈ measurePaths entity m) :
    ∃ ref, r.resolve rules entity path = .ok ref ∧
      (ref ∈ node.references ↔ (node.isReused = true → ref.isMeasure = true)) := by
  obtain ⟨operands, hos, hassemble⟩ := defineAfresh_eq_ok_iff.1 h
  obtain ⟨o, ho, hoperand⟩ := operandsAfresh_ok hos hpath
  obtain ⟨hres, hmeasure⟩ := operandAfresh_ok hoperand
  refine ⟨o.reference, hres, ?_⟩
  rw [mem_references_of_assemble hassemble, hmeasure]
  constructor
  · rintro ⟨o', ho', hsame, hkept⟩ hreused
    obtain ⟨path', -, hoperand'⟩ := exists_path_of_operandsAfresh hos ho'
    rw [← hmeasure, ← hsame]
    exact (operandAfresh_ok hoperand').2.2 (hkept hreused)
  · exact fun hkept => ⟨o, ho, rfl, hkept⟩

theorem references_of_assemble {operands : List Operand} (hkind : m.declared ≠ some .number)
    (h : m.assemble entity operands = .ok node) :
    node.references = operands.map Operand.reference := by
  rcases assemble_ok h with ⟨hreused, -⟩ | ⟨-, kind, -, rfl⟩
  · exact absurd hreused.1 hkind
  · rfl

theorem paths_of_defineAfresh (hkind : m.declared ≠ some .number)
    (h : r.defineAfresh rules source entity m = .ok node) :
    node.references.map Reference.path = measurePaths entity m := by
  obtain ⟨operands, hos, hassemble⟩ := defineAfresh_eq_ok_iff.1 h
  have hpaths : List.Forall₂ (fun path o => path = o.reference.path) (measurePaths entity m)
      operands :=
    (operandsAfresh_ok_iff.1 hos).imp fun _ _ ho => (resolve_ok (operandAfresh_ok ho).1).2.1.symm
  rw [references_of_assemble hkind hassemble, List.map_map, eq_comm, ← List.forall₂_eq_eq_eq,
    List.forall₂_map_right_iff]
  exact hpaths

theorem isReused_of_defineAfresh (h : r.defineAfresh rules source entity m = .ok node) :
    node.isReused = true ↔ m.declared = some .number ∧
      ∃ path ∈ measurePaths entity m, ∃ ref, r.resolve rules entity path = .ok ref ∧
        ref.isMeasure = true := by
  obtain ⟨operands, hos, hassemble⟩ := defineAfresh_eq_ok_iff.1 h
  rw [isReused_of_assemble hassemble]
  refine and_congr_right fun _ => ?_
  rw [measuresOf, Ne, List.filterMap_eq_nil_iff, not_forall]
  simp only [Classical.not_imp]
  constructor
  · rintro ⟨o, ho, hmeasure⟩
    obtain ⟨path, hpath, hoperand⟩ := exists_path_of_operandsAfresh hos ho
    obtain ⟨hres, hiff⟩ := operandAfresh_ok hoperand
    exact ⟨path, hpath, o.reference, hres, hiff.2 hmeasure⟩
  · rintro ⟨path, hpath, ref, hres, hmeasure⟩
    obtain ⟨o, ho, hoperand⟩ := operandsAfresh_ok hos hpath
    obtain ⟨hres', hiff⟩ := operandAfresh_ok hoperand
    rw [hres'] at hres
    cases hres
    exact ⟨o, ho, hiff.1 hmeasure⟩

end Registry

end MetricLayer
