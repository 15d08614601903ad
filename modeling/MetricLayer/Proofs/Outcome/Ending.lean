import MetricLayer.Proofs.Outcome.Agreement

/-!
# How compilations end

Compiling an entity that is not registered ends early, without a plan (`EndsEarly`). Any other
compilation passes all stages and ends where its policy puts it (`EndsByPolicy`). No diagnostic is
reported twice, whether it was found while the plan was drafted or by its review, and a review adds
to what is reported only cycles of inclusions and ambiguous joins. So the rules of the review move
nothing but the verdict (`compile_ending`).
-/

namespace MetricLayer

open Schema

/-- The diagnostics that a policy puts up with. -/
def Policy.Tolerates : Policy → List Diagnostic → Prop
  | fatal, ds => ∀ d ∈ ds, d.severity ≠ .fatal
  | any, ds => ds = []

/-- The diagnostics that depend on the rules of a review: cycles of inclusions and ambiguous
joins. -/
inductive Registry.FoundInReview (r : Registry) : Diagnostic → Prop
  | includeCycle {s : Set String} {cycle : List String} :
      r.IsIncludeComponent s → r.IsIncludeCycle s cycle →
      FoundInReview r (.ofFault (.cyclicReference cycle))
  | ambiguousJoin {source target : String} {count : Nat} :
      (target, count) ∈ r.ambiguousJoins source →
      FoundInReview r (.ofFault (.ambiguousJoin source target count))

namespace Outcome

/-- The end of a compilation of an entity that is not registered. -/
structure EndsEarly (o : Outcome) (name : String) : Prop where
  state : o.state = .rejected
  history : o.history = [.unresolved, .resolving, .rejected]
  plan : o.plan = none
  diagnostics : o.diagnostics = [(Diagnostic.ofFault (.unknownEntity name)).orPath name]

/-- The end of a compilation of a registered entity: all stages were passed, and the plan is
accepted exactly if the policy puts up with the diagnostics. -/
structure EndsByPolicy (o : Outcome) (policy : Policy) : Prop where
  history : o.history = [.unresolved, .resolving, .compiled, .validated, o.state]
  state : o.state = .accepted ∨ o.state = .rejected
  plan : ∃ plan, o.plan = some plan
  accepted_iff : o.state = .accepted ↔ policy.Tolerates o.diagnostics

/-- Outcomes that differ in their reviews only: they have the same plan, and the same diagnostics in
front of what the reviews found. -/
structure DiffersInReview (r : Registry) (o o' : Outcome) : Prop where
  plan : o.plan = o'.plan
  diagnostics : ∃ reported found found', o.diagnostics = reported ++ found ∧
    o'.diagnostics = reported ++ found' ∧ ∀ d ∈ found ++ found', r.FoundInReview d

end Outcome

/-! ## Reporting -/

section Reporting

variable {ds new : List Diagnostic}

theorem nodup_report (h : ds.Nodup) (d : Diagnostic) : (report ds d).Nodup := by
  unfold report
  split
  · exact h
  · next hd => simpa using h.concat hd

theorem nodup_foldl_report (h : ds.Nodup) : (new.foldl report ds).Nodup := by
  induction new generalizing ds with
  | nil => exact h
  | cons d new ih => exact ih (nodup_report h d)

/-- Reporting adds at the end, and nothing that is not reported. -/
theorem exists_foldl_report (ds new : List Diagnostic) :
    ∃ added, new.foldl report ds = ds ++ added ∧ added ⊆ new := by
  induction new generalizing ds with
  | nil => exact ⟨[], by simp⟩
  | cons d new ih =>
    obtain ⟨added, heq, hsub⟩ := ih (report ds d)
    rw [List.foldl_cons, heq]
    by_cases hd : d ∈ ds
    · exact ⟨added, by simp [report, hd], List.subset_cons_of_subset d hsub⟩
    · exact ⟨d :: added, by simp [report, hd], List.cons_subset_cons d hsub⟩

end Reporting

namespace Draft

variable {r : Registry} {rules : WalkRules} {e : Entity} {filters : List Filter} {d : Draft}

theorem nodup_fault (h : d.diagnostics.Nodup) (f : Fault) (context : String) :
    (d.fault f context).diagnostics.Nodup :=
  nodup_report h _

theorem nodup_addCompiled (h : d.diagnostics.Nodup) (context : String)
    (result : Except Fault MeasureNode × Memo) :
    (d.addCompiled context result).diagnostics.Nodup := by
  unfold addCompiled
  split
  · exact h
  · exact nodup_report h _

theorem nodup_add (h : d.diagnostics.Nodup) (part : Part) :
    (d.add r rules e part).diagnostics.Nodup := by
  cases part with
  | dimension dim => exact h
  | inclusion path =>
    show (d.addInclude r rules e path).diagnostics.Nodup
    unfold addInclude
    split
    · exact nodup_fault h _ _
    · split
      · exact h
      · exact nodup_addCompiled h _ _
  | measure m => exact nodup_addCompiled h _ _
  | filter context origin f =>
    show (d.addFilter context origin (r.compileFilter rules e.name f)).diagnostics.Nodup
    unfold addFilter
    split
    · exact h
    · exact nodup_fault h _ _

theorem nodup_diagnostics_ofEntity : (ofEntity r rules e filters).diagnostics.Nodup := by
  have hfoldl : ∀ (parts : List Part) (d : Draft), d.diagnostics.Nodup →
      (parts.foldl (add r rules e) d).diagnostics.Nodup := by
    intro parts
    induction parts with
    | nil => exact fun _ h => h
    | cons part rest ih => exact fun d h => ih _ (nodup_add h part)
  rw [ofEntity_eq_foldl]
  exact hfoldl _ _ List.nodup_nil

end Draft

theorem Policy.rejects_eq_false_iff {policy : Policy} {ds : List Diagnostic} :
    policy.rejects ds = false ↔ policy.Tolerates ds := by
  cases policy with
  | fatal => simp [rejects, Tolerates, hasFatal, Diagnostic.isFatal]
  | any => simp [rejects, Tolerates]

/-! ## Outcomes -/

namespace Compiler

variable {r : Registry} {settings : Settings} {name : String} {e : Entity}
  {filters : List Filter}

theorem foundInReview_of_mem (he : r.entity? name = some e) {d : Diagnostic}
    (h : d ∈ (Draft.ofEntity r settings.walk e filters).plan.review r settings.walk
      settings.review) : r.FoundInReview d := by
  have hname : (Compiler.mk r settings).registry.contains name = true :=
    Option.isSome_iff_exists.2 ⟨e, he⟩
  obtain ⟨plan, hplan, -, hreview⟩ := compile_review hname filters
  obtain rfl := Option.some.inj ((plan_compile he).symm.trans hplan)
  rcases hreview d h with ⟨s, cycle, rfl, hs, hcycle, -⟩ | ⟨source, target, count, rfl, hjoins⟩
  · exact .includeCycle hs hcycle
  · exact .ambiguousJoin hjoins

theorem endsEarly_of_entity?_eq_none (h : r.entity? name = none) :
    ((Compiler.mk r settings).compile name filters).EndsEarly name := by
  rw [compile_of_unregistered (c := Compiler.mk r settings) h]
  exact ⟨rfl, rfl, rfl, rfl⟩

theorem endsByPolicy_of_entity? (he : r.entity? name = some e) :
    ((Compiler.mk r settings).compile name filters).EndsByPolicy settings.review.policy := by
  have hplan : ((Compiler.mk r settings).compile name filters).plan = some _ := plan_compile he
  refine ⟨?_, ?_, ⟨_, hplan⟩, ?_⟩
  · unfold compile
    rw [Registry.lookup_eq_ok_iff.2 he]
  · unfold compile
    rw [Registry.lookup_eq_ok_iff.2 he]
    dsimp only
    split_ifs
    · exact Or.inr rfl
    · exact Or.inl rfl
  · rw [← Policy.rejects_eq_false_iff]
    exact accepted_iff_rejects he

theorem nodup_diagnostics_compile (settings : Settings) :
    ((Compiler.mk r settings).compile name filters).diagnostics.Nodup := by
  cases he : r.entity? name with
  | none =>
    rw [(endsEarly_of_entity?_eq_none he).diagnostics]
    exact List.nodup_singleton _
  | some e =>
    rw [diagnostics_compile he]
    exact nodup_foldl_report Draft.nodup_diagnostics_ofEntity

theorem differsInReview_compile {settings' : Settings} (hwalk : settings'.walk = settings.walk) :
    ((Compiler.mk r settings).compile name filters).DiffersInReview r
      ((Compiler.mk r settings').compile name filters) := by
  cases he : r.entity? name with
  | none =>
    have hend : ((Compiler.mk r settings).compile name filters).EndsEarly name :=
      endsEarly_of_entity?_eq_none he
    have hend' : ((Compiler.mk r settings').compile name filters).EndsEarly name :=
      endsEarly_of_entity?_eq_none he
    exact ⟨hend.plan.trans hend'.plan.symm, _, [], [], by rw [hend.diagnostics, List.append_nil],
      by rw [hend'.diagnostics, List.append_nil], by simp⟩
  | some e =>
    obtain ⟨found, hfound, hsub⟩ := exists_foldl_report
      (Draft.ofEntity r settings.walk e filters).diagnostics
      ((Draft.ofEntity r settings.walk e filters).plan.review r settings.walk settings.review)
    obtain ⟨found', hfound', hsub'⟩ := exists_foldl_report
      (Draft.ofEntity r settings'.walk e filters).diagnostics
      ((Draft.ofEntity r settings'.walk e filters).plan.review r settings'.walk settings'.review)
    rw [← diagnostics_compile (c := Compiler.mk r settings) he] at hfound
    rw [← diagnostics_compile (c := Compiler.mk r settings') he] at hfound'
    refine ⟨?_, _, found, found', hfound, hwalk ▸ hfound', fun d hd => ?_⟩
    · rw [plan_compile he, plan_compile he, hwalk]
    · rcases List.mem_append.1 hd with hd | hd
      · exact foundInReview_of_mem he (hsub hd)
      · exact foundInReview_of_mem he (hsub' hd)

theorem diagnostics_policy (policy : Policy) :
    ((Compiler.mk r { settings with review := { settings.review with policy } }).compile name
      filters).diagnostics = ((Compiler.mk r settings).compile name filters).diagnostics := by
  cases he : r.entity? name with
  | none =>
    rw [(endsEarly_of_entity?_eq_none he).diagnostics,
      (endsEarly_of_entity?_eq_none he).diagnostics]
  | some e =>
    rw [diagnostics_compile he, diagnostics_compile he]
    rfl

/-- A plan that is accepted when nothing may be reported is accepted when nothing fatal may. -/
theorem accepted_fatal_of_accepted_any
    (h : ((Compiler.mk r
      { settings with review := { settings.review with policy := .any } }).compile
        name filters).state = .accepted) :
    ((Compiler.mk r { settings with review := { settings.review with policy := .fatal } }).compile
      name filters).state = .accepted := by
  cases he : r.entity? name with
  | none =>
    rw [(endsEarly_of_entity?_eq_none he).state] at h
    cases h
  | some e =>
    have hnone : (Compiler.compile _ name filters).diagnostics = [] :=
      (endsByPolicy_of_entity? he).accepted_iff.1 h
    rw [diagnostics_policy] at hnone
    refine (endsByPolicy_of_entity? he).accepted_iff.2 fun d hd => ?_
    rw [diagnostics_policy, hnone] at hd
    exact absurd hd List.not_mem_nil

theorem exists_result_iff {o : Outcome} (hplan : o.state = .accepted → ∃ plan, o.plan = some plan) :
    (∃ plan, o.result = .ok plan) ↔ o.state = .accepted := by
  unfold Outcome.result Outcome.acceptedPlan? Outcome.isAccepted
  by_cases haccepted : o.state = .accepted
  · obtain ⟨plan, hsome⟩ := hplan haccepted
    simp [haccepted, hsome]
  · simp [haccepted]

/-- **The verdict.** A compilation ends early if the entity is not registered, and otherwise as its
policy says of its diagnostics, of which no two are equal; it gives out a plan exactly if that is
accepted. Settings that agree on how paths may be walked lead to the same plan, and to diagnostics
that differ in what the review of the plan finds only. A plan that is accepted where nothing may be
reported is accepted where nothing fatal may. -/
theorem compile_ending (r : Registry) (settings : Settings) (name : String)
    (filters : List Filter) :
    let compiled (s : Settings) : Outcome := (Compiler.mk r s).compile name filters
    (r.contains name = false → (compiled settings).EndsEarly name) ∧
      (r.contains name = true → (compiled settings).EndsByPolicy settings.review.policy) ∧
      ((∃ plan, (compiled settings).result = .ok plan) ↔ (compiled settings).state = .accepted) ∧
      (compiled settings).diagnostics.Nodup ∧
      (∀ settings' : Settings, settings'.walk = settings.walk →
        (compiled settings).DiffersInReview r (compiled settings')) ∧
      ((compiled { settings with review := { settings.review with policy := .any } }).state =
          .accepted →
        (compiled { settings with review := { settings.review with policy := .fatal } }).state =
          .accepted) := by
  intro compiled
  refine ⟨fun h => ?_, fun h => ?_, exists_result_iff fun haccepted => ?_,
    nodup_diagnostics_compile settings, fun _ => differsInReview_compile,
    accepted_fatal_of_accepted_any⟩
  · exact endsEarly_of_entity?_eq_none (by simpa [Registry.contains] using h)
  · obtain ⟨e, he⟩ := Option.isSome_iff_exists.1 h
    exact endsByPolicy_of_entity? he
  · cases he : r.entity? name with
    | none =>
      rw [(endsEarly_of_entity?_eq_none he).state] at haccepted
      cases haccepted
    | some e => exact (endsByPolicy_of_entity? he).plan

end Compiler

end MetricLayer
