import MetricLayer.Proofs.Measure.Sharing
import MetricLayer.Proofs.Reference.Reexport

/-!
# Cycles of measures

Compiling a measure ends, because the measures that are being compiled at one time are all different
(`wellFounded_asks`). If it succeeds, no measure that it leads to leads back to itself. If it
reports a cycle, this is a circuit of measures that it leads to (`IsDependencyLoop`), or a loop of
re-exported members that a text of such a measure leads into (`MeetsReexportLoop`).
-/

namespace MetricLayer

open Schema Relation

namespace Registry

variable {r : Registry} {rules : WalkRules} {s : Scope r rules} {pending : List String}
  {stack : List (String × String)} {a root : String × String} {m : Measure} {c : List String}

/-- The texts of a circuit of measures that can be reached from one. -/
def IsDependencyLoop (r : Registry) (rules : WalkRules) (root : String × String)
    (c : List String) : Prop :=
  ∃ members, c = qualifiedNames members ∧ IsCircuit members ∧
    members.IsChain (r.DependsOn rules) ∧ ∀ b ∈ members, ReflTransGen (r.DependsOn rules) root b

/-- A loop of re-exported members that is reported for a path of a measure that can be reached. -/
def MeetsReexportLoop (r : Registry) (rules : WalkRules) (root : String × String)
    (c : List String) : Prop :=
  ∃ b m path, ReflTransGen (r.DependsOn rules) root b ∧ r.measureAt? b.1 b.2 = some m ∧
    path ∈ measurePaths b.1 m ∧ r.resolve rules b.1 path = .error (.cyclicReference c) ∧
    r.IsReexportLoop rules c

/-! ## Compiling ends -/

/-- Compiling a measure below those of a stack of texts asks for a measure that it depends on, with
its own text on the stack, unless that is there already. -/
def Asks (r : Registry) (rules : WalkRules) (next call : List String × (String × String)) : Prop :=
  memberText call.2 ∉ call.1 ∧ r.DependsOn rules call.2 next.2 ∧
    next.1 = call.1 ++ [memberText call.2]

/-- The measures that are not being compiled grow fewer from each call to the next. -/
theorem wellFounded_asks : WellFounded (r.Asks rules) := by
  let free (call : List String × (String × String)) : List String :=
    r.measureKeys.filter (· ∉ call.1)
  refine Subrelation.wf (r := InvImage (· < ·) fun call => (free call).length) ?_
    (InvImage.wf _ wellFounded_lt)
  rintro ⟨stack', b⟩ ⟨stack, a⟩ ⟨hfresh, ⟨m, ref, source, hm, -, -⟩, rfl⟩
  have hkey : memberText a ∈ free (stack, a) := by simpa [free, hfresh] using mem_measureKeys hm
  have hstrike : free (stack ++ [memberText a], b) = strike (memberText a) (free (stack, a)) := by
    simp only [free, strike, List.filter_filter]
    congr 1
    funext key
    simp [Bool.and_comm]
  show (free _).length < (free _).length
  rw [hstrike]
  exact length_strike_lt hkey

/-- A search asks, from the measure it has come to, for those that the measure depends on. -/
theorem Searching.asks {b : String × String} (h : Searching s pending stack a)
    (hkey : memberText a ∈ pending) (hab : r.DependsOn rules a b) :
    r.Asks rules ((stack ++ [a]).map memberText, b) (stack.map memberText, a) :=
  ⟨h.notMem_stack _ hkey, hab, by rw [List.map_append, List.map_singleton]⟩

/-! ## The cycles that are reported -/

/-- A measure met again while it is being compiled closes a circuit of dependencies. -/
theorem Searching.isDependencyLoop (h : Searching s pending stack a)
    (hm : r.measureAt? a.1 a.2 = some m) (hkey : memberText a ∉ pending)
    (hroot : ∀ b ∈ stack ++ [a], ReflTransGen (r.DependsOn rules) root b) :
    IsCircuit (loopFrom (memberText a) (stack.map memberText)) ∧
      r.IsDependencyLoop rules root (loopFrom (memberText a) (stack.map memberText)) := by
  have ha : a ∈ stack := not_not.1 fun hstack => hkey ((h.mem_pending_iff h.holds_self hm).2 hstack)
  have hinj : ∀ b ∈ stack ++ [a], ∀ b' ∈ stack ++ [a], memberText b = memberText b' → b = b' :=
    fun b hb b' hb' => s.injective (h.holds b hb) (h.holds b' hb')
  have hcircuit : IsCircuit (loopFrom a stack) := isCircuit_loopFrom ha h.nodup
  have hsub : loopFrom a stack ⊆ stack ++ [a] := (loopFrom_suffix a stack).subset
  rw [loopFrom_map fun b hb => hinj b (List.mem_append_left _ hb) a (by simp)]
  refine ⟨hcircuit.map fun b hb b' hb' => hinj b (hsub hb) b' (hsub hb'), loopFrom a stack, ?_⟩
  exact ⟨(qualifiedNames_eq_map _).symm, hcircuit, isChain_loopFrom h.chain,
    fun b hb => hroot b (hsub hb)⟩

/-- The cycles that a definition reports are those of a path in its text, or of a measure that it
refers to. -/
theorem cycle_of_defineAfresh {source : PlainSource} (hm : r.measureAt? a.1 a.2 = some m)
    (h : r.defineAfresh rules source a.1 m = .error (.cyclicReference c))
    (hroot : ReflTransGen (r.DependsOn rules) root a)
    (hsource : ∀ ref upstream, r.Reads rules a.1 m ref upstream →
      source ref.targetEntity upstream = .error (.cyclicReference c) →
        IsCircuit c ∧ (r.IsDependencyLoop rules root c ∨ r.MeetsReexportLoop rules root c)) :
    IsCircuit c ∧ (r.IsDependencyLoop rules root c ∨ r.MeetsReexportLoop rules root c) := by
  rcases defineAfresh_error h with ⟨path, hpath, hres⟩ | ⟨ref, upstream, hread, herror⟩ | hkind
  · have hloop := isReexportLoop_of_resolve hres
    exact ⟨hloop.isCircuit, Or.inr ⟨a, m, path, hroot, hm, hpath, hres, hloop⟩⟩
  · exact hsource ref upstream hread herror
  · simp [Fault.kind] at hkind

/-- The cycles that compiling reports are circuits. The induction is on what is asked for; the
measures above lead from the root to the one that is met again. -/
theorem cycle_of_compileAfresh (h : Searching s pending stack a)
    (hm : r.measureAt? a.1 a.2 = some m)
    (hroot : ∀ b ∈ stack ++ [a], ReflTransGen (r.DependsOn rules) root b)
    (herror : r.compileAfresh rules pending (stack.map memberText) a.1 m =
      .error (.cyclicReference c)) :
    IsCircuit c ∧ (r.IsDependencyLoop rules root c ∨ r.MeetsReexportLoop rules root c) := by
  have hends : Acc (r.Asks rules) (stack.map memberText, a) := wellFounded_asks.apply _
  generalize hcall : (stack.map memberText, a) = call at hends
  induction hends generalizing pending stack a m with
  | intro call _ ih =>
    subst hcall
    by_cases hkey : memberText a ∈ pending
    · rw [compileAfresh_push hm hkey] at herror
      have hself : ReflTransGen (r.DependsOn rules) root a := hroot a (by simp)
      refine cycle_of_defineAfresh hm herror hself fun ref upstream hread hsource => ?_
      have hdep := hread.dependsOn hm
      refine ih _ (h.asks hkey hdep) (h.push hkey hdep) hread.registered (fun b hb => ?_)
        hsource rfl
      rcases List.mem_append.1 hb with hb | hb
      · exact hroot b hb
      · rw [List.mem_singleton.1 hb]
        exact hself.tail hdep
    · have htext := qualified_eq_memberText hm
      rw [compileAfresh_of_notMem (htext ▸ hkey), htext] at herror
      cases herror
      obtain ⟨hcircuit, hloop⟩ := h.isDependencyLoop hm hkey hroot
      exact ⟨hcircuit, Or.inl hloop⟩

theorem cycle_of_compileMeasureAfresh (hm : r.measureAt? a.1 a.2 = some m)
    (h : r.compileMeasureAfresh rules a.1 m = .error (.cyclicReference c)) :
    IsCircuit c ∧ (r.IsDependencyLoop rules a c ∨ r.MeetsReexportLoop rules a c) := by
  have hself : (Scope.around r rules a.1).holds a := Or.inl rfl
  unfold compileMeasureAfresh at h
  split at h
  · refine cycle_of_compileAfresh (searching_nil hself) hm (fun b hb => ?_) h
    rw [List.mem_singleton.1 hb]
  · -- A definition whose literals are no numbers differs from itself, and is compiled as another.
    refine cycle_of_defineAfresh hm h .refl fun ref upstream hread hsource => ?_
    refine cycle_of_compileAfresh (searching_nil (Scope.holds_of_reads hread)) hread.registered
      (fun b hb => ?_) hsource
    rw [List.mem_singleton.1 hb]
    exact .single (hread.dependsOn hm)

/-- **Cycles of measures.** Compiling a registered measure ends. It succeeds only if no measure that
can be reached leads back to itself, and a cycle that it reports is a circuit of measures that can
be reached, or a loop of re-exported members that a text of one of them leads into. -/
theorem compileNamed_cycle (hm : r.measureAt? a.1 a.2 = some m) :
    WellFounded (r.Asks rules) ∧
      (∀ node, (r.compileNamed rules a.1 a.2 []).1 = .ok node →
        ∀ b, ReflTransGen (r.DependsOn rules) a b → ¬ TransGen (r.DependsOn rules) b b) ∧
      ∀ c, (r.compileNamed rules a.1 a.2 []).1 = .error (.cyclicReference c) →
        IsCircuit c ∧ (r.IsDependencyLoop rules a c ∨ r.MeetsReexportLoop rules a c) := by
  refine ⟨wellFounded_asks, fun node hok b hab => ?_, fun c herror => ?_⟩
  · rw [compileNamed_ok_iff hm] at hok
    exact (grounded_of_compileAfresh hm hok).not_transGen hab
  · rw [compileNamed_eq hm] at herror
    exact cycle_of_compileMeasureAfresh hm herror

/-- The first measure of the orders of a shop and the second of its users make a circuit. -/
theorem compileNamed_cycle_shop :
    ∃ m, Shop.registry.measureAt? "orders" "first" = some m ∧
      (Shop.registry.compileNamed {} "orders" "first" []).1 =
        .error (.cyclicReference ["orders.first", "users.second", "orders.first"]) ∧
      IsCircuit ["orders.first", "users.second", "orders.first"] ∧
      (Shop.registry.IsDependencyLoop {} ("orders", "first")
          ["orders.first", "users.second", "orders.first"] ∨
        Shop.registry.MeetsReexportLoop {} ("orders", "first")
          ["orders.first", "users.second", "orders.first"]) := by
  have hm : Shop.registry.measureAt? "orders" "first" =
      some { name := "first", sql := some (Shop.refer "users.second") } := by decide +kernel
  have hfault : (Shop.registry.compileNamed {} "orders" "first" []).1.map MeasureNode.name =
      .error (.cyclicReference ["orders.first", "users.second", "orders.first"]) := by
    decide +kernel
  cases h : (Shop.registry.compileNamed {} "orders" "first" []).1 with
  | ok node => simp [h, Except.map] at hfault
  | error f =>
    obtain rfl : f = .cyclicReference ["orders.first", "users.second", "orders.first"] := by
      simpa [h, Except.map] using hfault
    exact ⟨_, hm, rfl, (compileNamed_cycle (a := ("orders", "first")) hm).2.2 _ h⟩

end Registry

end MetricLayer
