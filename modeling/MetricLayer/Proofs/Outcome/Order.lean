import MetricLayer.Outcome.Basic
import MetricLayer.Proofs.Registry.Order

/-!
# Compiling after another order of registration

A compilation sees a registry through lookups, through paths that it resolves, and through the
measures and members that have not been entered, of which it only asks whether they hold one. None
of this depends on the order in which the entities were registered, so the plan does not
(`SameEntities.ofEntity_eq`). A review finds the cycles of inclusions in another order, and that is
all: compilers whose registries differ in their order come to the same end (`compile_perm`).
-/

namespace MetricLayer

open Schema

namespace Registry.SameEntities

variable {r r' : Registry} {rules : WalkRules} {pending pending' visiting : List String}

/-! ## Measures -/

theorem operand_eq (h : r.SameEntities r') : r.operand = r'.operand := by
  funext rules source entity path memo
  rw [operand, operand, h.resolve_eq, h.field_eq]

theorem operands_eq (h : r.SameEntities r') : r.operands = r'.operands := by
  funext rules source entity paths memo
  induction paths generalizing memo with
  | nil => rfl
  | cons path paths ih => simp only [operands, h.operand_eq, ih]

theorem define_eq (h : r.SameEntities r') : r.define = r'.define := by
  funext rules source entity m memo
  rw [define, define, h.operands_eq]

theorem mem_measureKeys (h : r.SameEntities r') (key : String) :
    key ∈ r.measureKeys ↔ key ∈ r'.measureKeys :=
  (List.Perm.flatMap_right _ h).mem_iff

/-- A measure compiles alike if the same measures are pending. The induction is on their number. -/
theorem compileShared_eq (h : r.SameEntities r') (hpending : ∀ k, k ∈ pending ↔ k ∈ pending') :
    r.compileShared rules pending visiting = r'.compileShared rules pending' visiting := by
  induction hn : pending.length using Nat.strongRecOn generalizing pending pending' visiting with
  | ind n ih =>
    funext entity m memo
    rw [compileShared, compileShared]
    by_cases hkey : Path.qualified entity m.name ∈ pending
    · simp only [hkey, (hpending _).1 hkey, dif_pos, h.define_eq]
      rw [ih _ (hn ▸ length_strike_lt hkey) (mem_strike_congr hpending) rfl]
    · simp only [hkey, mt (hpending _).2 hkey, dif_neg, not_false_eq_true]

theorem compileMeasure_eq (h : r.SameEntities r') : r.compileMeasure = r'.compileMeasure := by
  have hregistered : ∀ entity m, r.isRegistered entity m = r'.isRegistered entity m := by
    intro entity m
    rw [isRegistered, isRegistered, h.entity?_eq]
  funext rules entity m memo
  rw [compileMeasure, compileMeasure, hregistered, h.define_eq,
    h.compileShared_eq h.mem_measureKeys]

theorem compileFilter_eq (h : r.SameEntities r') : r.compileFilter = r'.compileFilter := by
  funext rules entity f
  rw [compileFilter, compileFilter, h.resolve_eq]

/-! ## Plans -/

theorem ofEntity_eq (h : r.SameEntities r') : Draft.ofEntity r = Draft.ofEntity r' := by
  have hinclude : Draft.addInclude r = Draft.addInclude r' := by
    funext rules e d path
    rw [Draft.addInclude, Draft.addInclude, h.resolve_eq, h.compileMeasure_eq]
  have hmeasure : Draft.addMeasure r = Draft.addMeasure r' := by
    funext rules e d m
    rw [Draft.addMeasure, Draft.addMeasure, h.compileMeasure_eq, h.compileFilter_eq]
  have hrequested : Draft.addRequested r = Draft.addRequested r' := by
    funext rules e d f
    rw [Draft.addRequested, Draft.addRequested, h.compileFilter_eq]
  funext rules e filters
  rw [Draft.ofEntity, Draft.ofEntity, hinclude, hmeasure, hrequested]

theorem review_perm (h : r.SameEntities r') (walk : WalkRules) (rules : ReviewRules) (p : Plan) :
    (p.review r walk rules).Perm (p.review r' walk rules) := by
  have hreferences : p.referenceFaults r walk = p.referenceFaults r' walk := by
    rw [Plan.referenceFaults, Plan.referenceFaults, h.resolve_eq]
  have hpredicates : Plan.predicateFaults r walk = Plan.predicateFaults r' walk := by
    funext listed f
    rw [Plan.predicateFaults, Plan.predicateFaults, h.resolve_eq]
  have hambiguities : p.ambiguities r = p.ambiguities r' := by
    rw [Plan.ambiguities, Plan.ambiguities, h.ambiguousJoins_eq]
  have hentity : (p.entityFaults r rules).Perm (p.entityFaults r' rules) := by
    unfold Plan.entityFaults
    rw [h.contains_eq]
    split_ifs
    · exact (h.includeCycles_perm p.entity).map _
    · exact .refl _
    · exact .refl _
  unfold Plan.review
  rw [hreferences, hpredicates, hambiguities]
  exact (((hentity.append_right _).append_right _).append_right _).append_right _

end Registry.SameEntities

/-! ## Diagnostics -/

variable {ds ds' new new' : List Diagnostic}

theorem report_perm (h : ds.Perm ds') (d : Diagnostic) : (report ds d).Perm (report ds' d) := by
  simp only [report, h.mem_iff]
  split_ifs
  · exact h
  · exact h.append_right _

theorem foldl_report_perm_left (h : ds.Perm ds') (new : List Diagnostic) :
    (new.foldl report ds).Perm (new.foldl report ds') := by
  induction new generalizing ds ds' with
  | nil => exact h
  | cons d new ih => exact ih (report_perm h d)

theorem report_comm (ds : List Diagnostic) (c d : Diagnostic) :
    (report (report ds c) d).Perm (report (report ds d) c) := by
  by_cases hcd : c = d
  · rw [hcd]
  · have hdc : ¬ d = c := fun h => hcd h.symm
    by_cases hc : c ∈ ds <;> by_cases hd : d ∈ ds <;>
      simp [report, hc, hd, hcd, hdc, List.perm_append_left_iff, List.Perm.swap]

theorem foldl_report_perm (h : new.Perm new') (ds : List Diagnostic) :
    (new.foldl report ds).Perm (new'.foldl report ds) := by
  induction h generalizing ds with
  | nil => exact .refl ds
  | cons d _ ih => exact ih (report ds d)
  | swap c d l => exact foldl_report_perm_left (report_comm ds d c) l
  | trans _ _ ih ih' => exact (ih ds).trans (ih' ds)

theorem Policy.rejects_perm (policy : Policy) (h : ds.Perm ds') :
    policy.rejects ds = policy.rejects ds' := by
  cases policy with
  | fatal => exact h.any_eq
  | any => rw [Policy.rejects, Policy.rejects, h.isEmpty_eq]

/-! ## Outcomes -/

/-- Two outcomes agree in all but the fingerprint and the order of the diagnostics. -/
structure Outcome.Agrees (o o' : Outcome) : Prop where
  state : o.state = o'.state
  history : o.history = o'.history
  plan : o.plan = o'.plan
  diagnostics : o.diagnostics.Perm o'.diagnostics

namespace Compiler

theorem compile_agrees {r r' : Registry} (h : r.SameEntities r') (settings : Settings)
    (name : String) (filters : List Filter) :
    ((Compiler.mk r settings).compile name filters).Agrees
      ((Compiler.mk r' settings).compile name filters) := by
  unfold compile
  rw [← h.lookup_eq, ← h.ofEntity_eq]
  -- The fingerprints differ, so the outcomes are taken apart before they are compared.
  cases r.lookup name with
  | error f =>
    refine ⟨?_, ?_, ?_, ?_⟩ <;> dsimp only
    exact .refl _
  | ok e =>
    have hdiagnostics := foldl_report_perm
      (h.review_perm settings.walk settings.review
        (Draft.ofEntity r settings.walk e filters).plan)
      (Draft.ofEntity r settings.walk e filters).diagnostics
    have hrejects := settings.review.policy.rejects_perm hdiagnostics
    refine ⟨?_, ?_, ?_, ?_⟩ <;> dsimp only
    · rw [hrejects]
    · rw [hrejects]
    · exact hdiagnostics

/-- **The order of registration** does not matter. Entities that can be registered in one order can
be registered in every other, and compiling any request under any settings then comes to the same
state through the same stages, with the same plan and the same diagnostics in some order. -/
theorem compile_perm {es es' : List Entity} {r : Registry} (hperm : es.Perm es')
    (hes : Registry.ofEntities es = .ok r) :
    ∃ r', Registry.ofEntities es' = .ok r' ∧
      ∀ (settings : Settings) (name : String) (filters : List Filter),
        ((Compiler.mk r settings).compile name filters).Agrees
          ((Compiler.mk r' settings).compile name filters) := by
  obtain ⟨r', hes', hsame⟩ := Registry.ofEntities_perm hperm hes
  exact ⟨r', hes', compile_agrees hsame⟩

/-- The reports, among which there are two cycles of inclusions, in two orders. -/
theorem compile_perm_reports :
    let es := [Reports.weekly, Reports.daily, Reports.monthly]
    let es' := [Reports.monthly, Reports.weekly, Reports.daily]
    es.Perm es' ∧ ∃ r r', Registry.ofEntities es = .ok r ∧ Registry.ofEntities es' = .ok r' ∧
      ∀ (settings : Settings) (name : String) (filters : List Filter),
        ((Compiler.mk r settings).compile name filters).Agrees
          ((Compiler.mk r' settings).compile name filters) := by
  intro es es'
  have hperm : es.Perm es' :=
    List.perm_append_singleton Reports.monthly [Reports.weekly, Reports.daily]
  have hnames : (es.map Entity.name).Nodup := by decide
  have hmembers : ∀ e ∈ es, e.memberNames.Nodup := by decide +kernel
  obtain ⟨r, hes⟩ : ∃ r, Registry.ofEntities es = .ok r :=
    Registry.exists_registerAll hnames hmembers
  obtain ⟨r', hes', hagrees⟩ := compile_perm hperm hes
  exact ⟨hperm, r, r', hes, hes', hagrees⟩

end Compiler

end MetricLayer
