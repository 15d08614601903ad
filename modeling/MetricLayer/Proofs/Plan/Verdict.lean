import MetricLayer.Proofs.Outcome.Operands

/-!
# The verdict of a review

A review finds something fatal in a plan if and only if the plan is not sound
(`hasFatal_review_iff`): its entity is registered and, if inclusions are checked, leads to no cycle
of them; every reference that it mentions, at any depth of its measures, leads to a field; and every
predicate is listed and marked for the stage of the field that its operand leads to, with an
operator and literals that suit that field. A predicate whose operand leads nowhere is passed over,
but its operand is among the references, so the plan is not sound all the same.
-/

namespace MetricLayer

open Relation Schema

/-! ## What a plan mentions -/

/-- A compiled measure holds a reference: it reads it itself, or a measure below it does. -/
inductive MeasureNode.Holds (ref : Reference) : MeasureNode → Prop where
  | input {label : NodeLabel} {kind : Aggregation} {type : ValueType} {text : Option String}
      {inputs : List Reference} : ref ∈ inputs → Holds ref (.computed label kind type text inputs)
  | source {label : NodeLabel} {text : String} {sources : List (Reference × MeasureNode)}
      {n : MeasureNode} : (ref, n) ∈ sources → Holds ref (.reused label text sources)
  | deeper {label : NodeLabel} {text : String} {sources : List (Reference × MeasureNode)}
      {s : Reference} {n : MeasureNode} : (s, n) ∈ sources → Holds ref n →
      Holds ref (.reused label text sources)

/-- A plan mentions a reference: a column shows it, a measure holds it, or a predicate is on it. -/
inductive Plan.Mentions (p : Plan) (ref : Reference) : Prop where
  | column {c : Column} : c ∈ p.columns → c.source = some ref → Mentions p ref
  | measure {n : MeasureNode} : n ∈ p.measures → n.Holds ref → Mentions p ref
  | operand {f : Predicate} : f ∈ p.predicates → f.operand = ref → Mentions p ref

namespace MeasureNode

variable {ref : Reference}

theorem Holds.mem_allReferences {n : MeasureNode} (h : n.Holds ref) : ref ∈ n.allReferences := by
  induction h with
  | input hmem => exact hmem
  | source hmem => exact mem_allReferences_ofSources.2 ⟨_, hmem, Or.inl rfl⟩
  | deeper hmem _ ih => exact mem_allReferences_ofSources.2 ⟨_, hmem, Or.inr ih⟩

theorem holds_of_mem_allReferences (n : MeasureNode) (h : ref ∈ n.allReferences) :
    n.Holds ref := by
  -- The recursion is on the measure: what lies below a measure is smaller.
  match n with
  | .computed _ _ _ _ _ => exact .input h
  | .reused _ _ sources =>
    obtain ⟨⟨s, below⟩, hmem, rfl | hbelow⟩ := mem_allReferences_ofSources.1 h
    · exact .source hmem
    · have hsize : sizeOf (s, below) < sizeOf sources := List.sizeOf_lt_of_mem hmem
      exact .deeper hmem (holds_of_mem_allReferences below hbelow)
termination_by sizeOf n
decreasing_by
  simp only [Prod.mk.sizeOf_spec, reused.sizeOf_spec] at hsize ⊢
  omega

theorem mem_allReferences_iff {n : MeasureNode} : ref ∈ n.allReferences ↔ n.Holds ref :=
  ⟨holds_of_mem_allReferences n, Holds.mem_allReferences⟩

end MeasureNode

theorem Plan.mem_references_iff {p : Plan} {ref : Reference} :
    ref ∈ p.references ↔ p.Mentions ref := by
  unfold references
  rw [List.mem_append, List.mem_append, List.mem_filterMap, List.mem_flatMap, List.mem_map]
  constructor
  · rintro ((⟨c, hc, hsource⟩ | ⟨n, hn, href⟩) | ⟨f, hf, hoperand⟩)
    · exact .column hc hsource
    · exact .measure hn (MeasureNode.mem_allReferences_iff.1 href)
    · exact .operand hf hoperand
  · rintro (⟨hc, hsource⟩ | ⟨hn, href⟩ | ⟨hf, hoperand⟩)
    · exact Or.inl (Or.inl ⟨_, hc, hsource⟩)
    · exact Or.inl (Or.inr ⟨_, hn, MeasureNode.mem_allReferences_iff.2 href⟩)
    · exact Or.inr ⟨_, hf, hoperand⟩

/-! ## Sound plans -/

/-- A predicate has as many literals as its operator takes: none for a null check, one or more for a
membership test, one for any other. -/
def Predicate.Counts (f : Predicate) : Prop :=
  (f.operator.isNullCheck = true → f.values = []) ∧
    (f.operator.isSetMembership = true → f.values ≠ []) ∧
    (f.operator.isNullCheck = false → f.operator.isSetMembership = false → ∃ v, f.values = [v])

/-- A predicate is sound on a field that a reference ends at: it has as many literals as its
operator takes, and it suits the type of the field, as far as that is known. -/
structure Predicate.SoundOn (f : Predicate) (operand : Reference) : Prop where
  counts : f.Counts
  suits : ∀ t, operand.valueType? = some t → f.Suits t

/-- A plan that nothing fatal can be said about. Of the references in it only their starts and their
paths are looked at. -/
structure Plan.Sound (r : Registry) (walk : WalkRules) (rules : ReviewRules) (p : Plan) : Prop where
  registered : r.contains p.entity = true
  acyclic : rules.includeCycles = true →
    ¬ ∃ a, ReflTransGen r.Includes p.entity a ∧ TransGen r.Includes a a
  resolves : ∀ ref, p.Mentions ref → ∃ found, r.resolve walk ref.start ref.path = .ok found
  rows : ∀ f ∈ p.rowPredicates, f.placement = .row ∧
    ∃ operand, r.resolve walk f.operand.start f.operand.path = .ok operand ∧
      operand.isMeasure = false ∧ f.SoundOn operand
  aggregates : ∀ f ∈ p.aggregatePredicates, f.placement = .aggregate ∧
    ∃ operand, r.resolve walk f.operand.start f.operand.path = .ok operand ∧
      operand.isMeasure = true ∧ f.SoundOn operand

/-! ## Operators and literals -/

namespace Predicate

variable {f : Predicate} {operand : Reference} {placement : Placement}

theorem takes_iff : f.operator.takes f.values.length = true ↔ f.Counts := by
  unfold Counts Operator.takes
  cases f.operator <;>
    simp [Operator.isNullCheck, Operator.isSetMembership, List.length_eq_one_iff,
      List.length_pos_iff]

theorem misuse?_eq_none_iff {t : Option ValueType} :
    misuse? t f.operator f.values = none ↔ f.Counts ∧ ∀ t', t = some t' → f.Suits t' := by
  rw [← takes_iff]
  constructor
  · intro h
    refine ⟨?_, ?_⟩
    · by_contra htakes
      rw [Bool.not_eq_true] at htakes
      simp [misuse?, htakes] at h
    · rintro t' rfl
      exact misuse?_eq_none h
  · rintro ⟨htakes, hsuits⟩
    unfold misuse?
    rw [if_neg (by simp [htakes])]
    cases t with
    | none => rfl
    | some t =>
      obtain ⟨hfits, hordered⟩ := hsuits t rfl
      have hcompare : ¬ (f.operator.isComparison && !t.isOrdered) = true := by
        intro h
        rw [Bool.and_eq_true] at h
        simp [hordered h.1] at h
      dsimp only
      rw [if_neg hcompare, Option.map_eq_none_iff, List.find?_eq_none]
      intro v hv
      simp [hfits v hv]

theorem checkOperator_ok_iff :
    checkOperator operand f.operator f.values = .ok () ↔ f.SoundOn operand := by
  have hsound : f.SoundOn operand ↔ misuse? operand.valueType? f.operator f.values = none := by
    rw [misuse?_eq_none_iff]
    exact ⟨fun h => ⟨h.counts, h.suits⟩, fun h => ⟨h.1, h.2⟩⟩
  rw [hsound]
  unfold checkOperator
  split <;> simp_all

end Predicate

/-! ## Fatal diagnostics -/

theorem hasFatal_append {ds ds' : List Diagnostic} :
    hasFatal (ds ++ ds') = (hasFatal ds || hasFatal ds') := by
  simp [hasFatal]

theorem hasFatal_eq_false_iff {ds : List Diagnostic} (h : ∀ d ∈ ds, d.isFatal = true) :
    hasFatal ds = false ↔ ds = [] := by
  rw [hasFatal, List.any_eq_false, List.eq_nil_iff_forall_not_mem]
  exact forall_congr' fun d => ⟨fun hd hmem => hd hmem (h d hmem), fun hd hmem => absurd hmem hd⟩

namespace Plan

variable {r : Registry} {walk : WalkRules} {rules : ReviewRules} {p : Plan} {d : Diagnostic}
  {f : Predicate} {operand : Reference} {placement : Placement}

theorem isFatal_of_entityFaults (h : d ∈ p.entityFaults r rules) : d.isFatal = true := by
  unfold entityFaults at h
  split_ifs at h
  · obtain ⟨cycle, -, rfl⟩ := List.mem_map.1 h
    rfl
  · exact absurd h List.not_mem_nil
  · rw [List.mem_singleton.1 h]
    rfl

theorem isFatal_of_referenceFaults (h : d ∈ p.referenceFaults r walk) : d.isFatal = true := by
  obtain ⟨ref, -, href⟩ := List.mem_filterMap.1 h
  cases hres : r.resolve walk ref.start ref.path with
  | ok found => simp [hres] at href
  | error fault =>
    obtain rfl : (Diagnostic.ofFault fault).orPath ref.path = d := by simpa [hres] using href
    exact Registry.isFatal_of_resolve hres

theorem isFatal_of_placementFaults (h : d ∈ placementFaults placement f operand) :
    d.isFatal = true := by
  unfold placementFaults at h
  dsimp only at h
  split_ifs at h
  · exact absurd h List.not_mem_nil
  · rw [List.mem_singleton.1 h]
    rfl

theorem isFatal_of_predicateFaults (h : d ∈ predicateFaults r walk placement f) :
    d.isFatal = true := by
  unfold predicateFaults at h
  cases hres : r.resolve walk f.operand.start f.operand.path with
  | error fault => simp [hres] at h
  | ok operand =>
    simp only [hres, List.mem_append] at h
    rcases h with h | h
    · exact isFatal_of_placementFaults h
    · unfold checkOperator at h
      cases hmisuse : misuse? operand.valueType? f.operator f.values with
      | none => simp [hmisuse] at h
      | some m =>
        simp only [hmisuse, List.mem_singleton] at h
        rw [h]
        rfl

/-! ## Checks that find nothing -/

theorem entityFaults_eq_nil_iff :
    p.entityFaults r rules = [] ↔ r.contains p.entity = true ∧ (rules.includeCycles = true →
      ¬ ∃ a, ReflTransGen r.Includes p.entity a ∧ TransGen r.Includes a a) := by
  unfold entityFaults
  by_cases hentity : r.contains p.entity = true
  · rw [← Registry.includeCycles_ne_nil_iff hentity, ne_eq, not_not, if_pos hentity]
    by_cases hrules : rules.includeCycles = true
    · simp [hentity, hrules]
    · simp [hentity, hrules]
  · simp [hentity]

theorem referenceFaults_eq_nil_iff :
    p.referenceFaults r walk = [] ↔
      ∀ ref, p.Mentions ref → ∃ found, r.resolve walk ref.start ref.path = .ok found := by
  rw [referenceFaults, List.filterMap_eq_nil_iff]
  refine forall_congr' fun ref => ?_
  rw [List.mem_eraseDups, mem_references_iff]
  refine imp_congr_right fun _ => ?_
  cases hres : r.resolve walk ref.start ref.path <;> simp

theorem placementFaults_eq_nil_iff :
    placementFaults placement f operand = [] ↔
      f.placement = placement ∧ Placement.ofOperand operand = placement := by
  unfold placementFaults
  by_cases h : f.placement = .ofOperand operand ∧ placement = .ofOperand operand
  · simp [h]
  · dsimp only
    rw [if_neg h]
    refine iff_of_false (List.cons_ne_nil _ _) fun h' => h ?_
    exact ⟨h'.1.trans h'.2.symm, h'.2.symm⟩

theorem predicateFaults_eq_nil_iff
    (hres : ∃ found, r.resolve walk f.operand.start f.operand.path = .ok found) :
    predicateFaults r walk placement f = [] ↔ f.placement = placement ∧
      ∃ operand, r.resolve walk f.operand.start f.operand.path = .ok operand ∧
        Placement.ofOperand operand = placement ∧ f.SoundOn operand := by
  obtain ⟨found, hfound⟩ := hres
  unfold predicateFaults
  simp only [hfound, List.append_eq_nil_iff, placementFaults_eq_nil_iff, Except.ok.injEq,
    exists_eq_left', and_assoc, ← Predicate.checkOperator_ok_iff]
  cases checkOperator found f.operator f.values <;> simp

theorem ofOperand_eq_row_iff : Placement.ofOperand operand = .row ↔ operand.isMeasure = false := by
  unfold Placement.ofOperand
  cases operand.isMeasure <;> simp

theorem ofOperand_eq_aggregate_iff :
    Placement.ofOperand operand = .aggregate ↔ operand.isMeasure = true := by
  unfold Placement.ofOperand
  cases operand.isMeasure <;> simp

theorem hasFatal_review_eq_false_iff :
    hasFatal (p.review r walk rules) = false ↔
      p.entityFaults r rules = [] ∧ p.referenceFaults r walk = [] ∧
        (∀ f ∈ p.rowPredicates, predicateFaults r walk .row f = []) ∧
        ∀ f ∈ p.aggregatePredicates, predicateFaults r walk .aggregate f = [] := by
  have hlisted : ∀ (placement : Placement) (fs : List Predicate),
      hasFatal (fs.flatMap (predicateFaults r walk placement)) = false ↔
        ∀ f ∈ fs, predicateFaults r walk placement f = [] := by
    intro placement fs
    rw [hasFatal_eq_false_iff, List.flatMap_eq_nil_iff]
    intro d hd
    obtain ⟨f, -, hf⟩ := List.mem_flatMap.1 hd
    exact isFatal_of_predicateFaults hf
  have hambiguous : hasFatal (if rules.ambiguousJoins then
      (p.ambiguities r).map fun a => .ofFault (.ambiguousJoin a.1.1 a.1.2 a.2)
      else []) = false := by
    rw [hasFatal, List.any_eq_false]
    intro d hd
    split_ifs at hd
    · obtain ⟨a, -, rfl⟩ := List.mem_map.1 hd
      simp [Diagnostic.isFatal, Diagnostic.ofFault, Fault.severity, Fault.kind, FaultKind.severity]
    · exact absurd hd List.not_mem_nil
  unfold review
  rw [hasFatal_append, hasFatal_append, hasFatal_append, hasFatal_append, hambiguous,
    Bool.or_false, Bool.or_eq_false_iff, Bool.or_eq_false_iff, Bool.or_eq_false_iff,
    hlisted, hlisted, hasFatal_eq_false_iff fun _ => isFatal_of_entityFaults,
    hasFatal_eq_false_iff fun _ => isFatal_of_referenceFaults, and_assoc, and_assoc]

/-- **The verdict.** Whatever plan is reviewed, the review says nothing fatal of it if and only if
the plan is sound. -/
theorem hasFatal_review_iff (r : Registry) (walk : WalkRules) (rules : ReviewRules) (p : Plan) :
    hasFatal (p.review r walk rules) = false ↔ p.Sound r walk rules := by
  have hmentions : ∀ f, f ∈ p.predicates → p.Mentions f.operand := fun f hf => .operand hf rfl
  rw [hasFatal_review_eq_false_iff, entityFaults_eq_nil_iff, referenceFaults_eq_nil_iff]
  constructor
  · rintro ⟨⟨hregistered, hacyclic⟩, hresolves, hrows, haggregates⟩
    refine ⟨hregistered, hacyclic, hresolves, fun f hf => ?_, fun f hf => ?_⟩
    · have hres := hresolves _ (hmentions f (List.mem_append_left _ hf))
      simpa only [ofOperand_eq_row_iff] using (predicateFaults_eq_nil_iff hres).1 (hrows f hf)
    · have hres := hresolves _ (hmentions f (List.mem_append_right _ hf))
      simpa only [ofOperand_eq_aggregate_iff] using
        (predicateFaults_eq_nil_iff hres).1 (haggregates f hf)
  · intro h
    refine ⟨⟨h.registered, h.acyclic⟩, h.resolves, fun f hf => ?_, fun f hf => ?_⟩
    · have hres := h.resolves _ (hmentions f (List.mem_append_left _ hf))
      rw [predicateFaults_eq_nil_iff hres]
      simpa only [ofOperand_eq_row_iff] using h.rows f hf
    · have hres := h.resolves _ (hmentions f (List.mem_append_right _ hf))
      rw [predicateFaults_eq_nil_iff hres]
      simpa only [ofOperand_eq_aggregate_iff] using h.aggregates f hf

end Plan

end MetricLayer
