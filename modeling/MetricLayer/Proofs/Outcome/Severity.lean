import MetricLayer.Outcome.Basic
import MetricLayer.Proofs.Outcome.Parts
import MetricLayer.Proofs.Reference.Reexport

/-!
# Faults of parts are fatal

Only the review of a plan finds faults that are not fatal. Whatever keeps a path from being
resolved, a measure or a filter from being compiled, is fatal (`Part.isFatal_of_yield`), so every
policy rejects a plan that a part is missing from (`Policy.rejects_of_mem`).
-/

namespace MetricLayer

open Schema

theorem Fault.isFatal_iff {f : Fault} : f.isFatal = true ↔ f.kind ≠ .ambiguousJoin := by
  unfold Fault.isFatal Fault.severity
  cases f.kind <;> simp [FaultKind.severity]

namespace Registry

variable {r : Registry} {rules : WalkRules} {entity path : String} {m : Measure} {f : Fault}
  {source : PlainSource} {pending visiting : List String}

theorem isFatal_of_follow {start : String} {pending through : List (String × String)}
    (h : r.follow rules pending through start path = .error f) : f.isFatal = true := by
  induction hn : pending.length using Nat.strongRecOn generalizing pending through start path with
  | ind n ih =>
    rcases follow_error h with ha | ⟨before, final, member, -, -, hend⟩
    · rw [Fault.isFatal_iff]
      rcases approach_error ha with hkind | hkind | hkind <;> simp [hkind]
    · rcases hend with ⟨-, rfl⟩ | ⟨included, -, ⟨hk, hinner⟩ | ⟨-, rfl⟩⟩
      · rfl
      · exact ih _ (hn ▸ length_strike_lt hk) hinner rfl
      · rfl

theorem isFatal_of_resolve (h : r.resolve rules entity path = .error f) : f.isFatal = true :=
  isFatal_of_follow (resolve_error h)

theorem isFatal_of_defineAfresh (h : r.defineAfresh rules source entity m = .error f)
    (hsource : ∀ target upstream, source target upstream = .error f → f.isFatal = true) :
    f.isFatal = true := by
  rcases defineAfresh_error h with ⟨path, -, hres⟩ | ⟨ref, upstream, -, herror⟩ | hkind
  · exact isFatal_of_resolve hres
  · exact hsource _ upstream herror
  · rw [Fault.isFatal_iff, hkind]
    decide

theorem isFatal_of_compileAfresh (h : r.compileAfresh rules pending visiting entity m = .error f) :
    f.isFatal = true := by
  induction hn : pending.length using Nat.strongRecOn
    generalizing pending visiting entity m with
  | ind n ih =>
    by_cases hkey : Path.qualified entity m.name ∈ pending
    · rw [compileAfresh_of_mem hkey] at h
      exact isFatal_of_defineAfresh h fun target upstream herror =>
        ih _ (hn ▸ length_strike_lt hkey) herror rfl
    · rw [compileAfresh_of_notMem hkey] at h
      cases h
      rfl

theorem isFatal_of_compileMeasureAfresh (h : r.compileMeasureAfresh rules entity m = .error f) :
    f.isFatal = true := by
  unfold compileMeasureAfresh at h
  split at h
  · exact isFatal_of_compileAfresh h
  · exact isFatal_of_defineAfresh h fun _ _ => isFatal_of_compileAfresh

theorem isFatal_of_compileFilter {g : Filter} (h : r.compileFilter rules entity g = .error f) :
    f.isFatal = true := by
  unfold compileFilter at h
  cases hc : g.condition entity with
  | error f' =>
    obtain rfl : f' = f := by simpa [hc, bind, Except.bind] using h
    unfold Filter.condition at hc
    split at hc
    · split at hc <;> cases hc
      rfl
    · cases hc
  | ok c =>
    cases hres : r.resolve rules entity c.member with
    | error f' =>
      obtain rfl : f' = f := by simpa [hc, hres, bind, Except.bind] using h
      exact isFatal_of_resolve hres
    | ok operand =>
      cases hcheck : checkOperator operand c.operator c.values with
      | error f' =>
        obtain rfl : f' = f := by simpa [hc, hres, hcheck, bind, Except.bind] using h
        unfold checkOperator at hcheck
        split at hcheck <;> cases hcheck
        rfl
      | ok u => simp [hc, hres, hcheck, bind, Except.bind, pure, Except.pure] at h

end Registry

/-- The fault of every part of a request is fatal. -/
theorem Part.isFatal_of_yield {r : Registry} {rules : WalkRules} {e : Entity} {part : Part}
    {f : Fault} (h : part.yield r rules e = .error f) : f.isFatal = true := by
  cases part with
  | dimension d => simp [Part.yield] at h
  | inclusion path =>
    rcases Draft.included_error h with hres | ⟨m, hm⟩
    · exact Registry.isFatal_of_resolve hres
    · exact Registry.isFatal_of_compileMeasureAfresh hm
  | measure m =>
    rw [Part.yield, Registry.compileMeasure_nil] at h
    exact Registry.isFatal_of_compileMeasureAfresh (map_eq_error_iff.1 h)
  | filter context origin g =>
    rw [Part.yield, Registry.filtered] at h
    exact Registry.isFatal_of_compileFilter (map_eq_error_iff.1 (map_eq_error_iff.1 h))

/-! ## Policies -/

theorem Policy.rejects_of_mem {policy : Policy} {f : Fault} {context : String}
    {ds : List Diagnostic} (hf : f.isFatal = true)
    (h : (Diagnostic.ofFault f).orPath context ∈ ds) : policy.rejects ds = true := by
  cases policy with
  | fatal => exact List.any_eq_true.2 ⟨_, h, hf⟩
  | any =>
    have hne : ds ≠ [] := List.ne_nil_of_mem h
    simpa [Policy.rejects] using hne

end MetricLayer
