import MetricLayer.Plan.Filtering
import MetricLayer.Proofs.Measure.Sharing
import MetricLayer.Proofs.Registry.Growth

/-!
# Compiling in a larger registry

A measure compiles by resolving the paths in its text and compiling what these lead to, and a filter
by resolving its member. Both go on to succeed, with the same result, where more entities are
registered (`PartOf.compileMeasure_ok`, `PartOf.compileFilter_ok`). So a schema can grow at its end
without any change to what it has made possible (`ofEntities_append_conservative`).
-/

namespace MetricLayer

open Schema

namespace Registry

namespace PartOf

variable {r r' : Registry} {rules : WalkRules} {source source' : PlainSource}
  {pending pending' visiting visiting' : List String} {entity path name : String} {m : Measure}
  {node : MeasureNode}

/-! ## Measures -/

theorem operandAfresh_ok (h : r.PartOf r') {o : Operand}
    (hsource : ∀ target upstream n, source target upstream = .ok n →
      source' target upstream = .ok n)
    (ho : r.operandAfresh rules source entity path = .ok o) :
    r'.operandAfresh rules source' entity path = .ok o := by
  unfold operandAfresh at ho ⊢
  cases hres : r.resolve rules entity path with
  | error f => simp [hres] at ho
  | ok ref =>
    obtain ⟨field, hfield, -⟩ := field_of_resolve hres
    simp only [hres, hfield, h.resolve_ok hres, h.field_ok hfield] at ho ⊢
    cases field with
    | dimension d => exact ho
    | measure upstream =>
      cases hn : source ref.targetEntity upstream with
      | error f => simp [hn] at ho
      | ok n => simpa only [hn, hsource _ _ _ hn] using ho

/-- A definition that compiles in a part of a registry compiles in the whole, over every source that
gives the same measures. -/
theorem defineAfresh_ok (h : r.PartOf r')
    (hsource : ∀ target upstream n, source target upstream = .ok n →
      source' target upstream = .ok n)
    (hok : r.defineAfresh rules source entity m = .ok node) :
    r'.defineAfresh rules source' entity m = .ok node := by
  obtain ⟨operands, hos, hassemble⟩ := defineAfresh_eq_ok_iff.1 hok
  refine defineAfresh_eq_ok_iff.2 ⟨operands, operandsAfresh_ok_iff.2 ?_, hassemble⟩
  exact (operandsAfresh_ok_iff.1 hos).imp fun _ _ ho => h.operandAfresh_ok hsource ho

theorem compileAfresh_ok (h : r.PartOf r') (hpending : pending ⊆ pending')
    (hok : r.compileAfresh rules pending visiting entity m = .ok node) :
    r'.compileAfresh rules pending' visiting' entity m = .ok node := by
  -- The measures that the measure reads are compiled with one less of those that are pending.
  induction hn : pending.length using Nat.strongRecOn
    generalizing pending pending' visiting visiting' entity m node with
  | ind n ih =>
    have hkey := mem_pending_of_compileAfresh hok
    rw [compileAfresh_of_mem hkey] at hok
    rw [compileAfresh_of_mem (hpending hkey)]
    refine h.defineAfresh_ok (fun target upstream n hsource => ?_) hok
    exact ih _ (hn ▸ length_strike_lt hkey) (strike_subset_strike hpending) hsource rfl

theorem measureKeys_subset (h : r.PartOf r') : r.measureKeys ⊆ r'.measureKeys := by
  intro key hkey
  obtain ⟨e, he, hkey⟩ := List.mem_flatMap.1 hkey
  exact List.mem_flatMap.2 ⟨e, h he, hkey⟩

theorem compileMeasure_ok (h : r.PartOf r')
    (hok : (r.compileMeasure rules entity m []).1 = .ok node) :
    (r'.compileMeasure rules entity m []).1 = .ok node := by
  rw [compileMeasure_nil, compileMeasureAfresh_ok_iff] at hok ⊢
  exact h.defineAfresh_ok (fun _ _ _ => h.compileAfresh_ok h.measureKeys_subset) hok

theorem compileNamed_ok (h : r.PartOf r')
    (hok : (r.compileNamed rules entity name []).1 = .ok node) :
    (r'.compileNamed rules entity name []).1 = .ok node := by
  obtain ⟨m, hm⟩ := measureAt?_of_compileNamed (a := (entity, name)) hok
  rw [compileNamed_eq hm, ← compileMeasure_nil] at hok
  rw [compileNamed_eq (h.measureAt? hm), ← compileMeasure_nil]
  exact h.compileMeasure_ok hok

/-! ## Filters -/

theorem compileFilter_ok (h : r.PartOf r') {f : Filter} {p : Predicate}
    (hok : r.compileFilter rules entity f = .ok p) : r'.compileFilter rules entity f = .ok p := by
  unfold compileFilter at hok ⊢
  cases hc : f.condition entity with
  | error g => simp [hc, bind, Except.bind] at hok
  | ok c =>
    cases hres : r.resolve rules entity c.member with
    | error g => simp [hc, hres, bind, Except.bind] at hok
    | ok operand => simpa only [hc, hres, h.resolve_ok hres, bind, Except.bind] using hok

end PartOf

/-- **Schemas grow conservatively.** If entities can be registered one after another then so can
those of them that come first, and whatever succeeds with these succeeds with all of them and gives
the same: every path that resolves, every measure that compiles, by its name or by a definition of
its own, and every filter that compiles. -/
theorem ofEntities_append_conservative {es es' : List Entity} {r' : Registry}
    (h : ofEntities (es ++ es') = .ok r') :
    ∃ r, ofEntities es = .ok r ∧ ∀ rules,
      (∀ start path ref, r.resolve rules start path = .ok ref →
        r'.resolve rules start path = .ok ref) ∧
      (∀ entity name node, (r.compileNamed rules entity name []).1 = .ok node →
        (r'.compileNamed rules entity name []).1 = .ok node) ∧
      (∀ entity m node, (r.compileMeasure rules entity m []).1 = .ok node →
        (r'.compileMeasure rules entity m []).1 = .ok node) ∧
      ∀ entity f p, r.compileFilter rules entity f = .ok p →
        r'.compileFilter rules entity f = .ok p := by
  obtain ⟨r, hr, hpart⟩ := ofEntities_append h
  refine ⟨r, hr, fun rules => ⟨?_, ?_, ?_, ?_⟩⟩
  · exact fun _ _ _ => hpart.resolve_ok
  · exact fun _ _ _ => hpart.compileNamed_ok
  · exact fun _ _ _ => hpart.compileMeasure_ok
  · exact fun _ _ _ => hpart.compileFilter_ok

/-- The shop with returns added to it, which join the orders and the users: the revenue is found as
before, and so is what it compiles to. -/
theorem ofEntities_append_conservative_shop :
    let returns : Entity :=
      { name := "returns", relationships := [{ target := "orders" }, { target := "users" }] }
    ∃ r r', ofEntities [Shop.users, Shop.orders, Shop.view] = .ok r ∧
      ofEntities ([Shop.users, Shop.orders, Shop.view] ++ [returns]) = .ok r' ∧
      (∃ ref, r.resolve {} "shop" "revenue" = .ok ref ∧
        r'.resolve {} "shop" "revenue" = .ok ref) ∧
      ∃ node, (r.compileNamed {} "orders" "revenue" []).1 = .ok node ∧
        (r'.compileNamed {} "orders" "revenue" []).1 = .ok node := by
  intro returns
  have hgrown : (ofEntities ([Shop.users, Shop.orders, Shop.view] ++ [returns])).toOption.isSome =
      true := by decide +kernel
  obtain ⟨r', hr'⟩ := Option.isSome_iff_exists.1 hgrown
  obtain ⟨r, hr, hall⟩ := ofEntities_append_conservative (toOption_eq_some_iff.1 hr')
  obtain ⟨hresolve, hnamed, -, -⟩ := hall {}
  have hregistry : r = Shop.registry := by
    rw [Shop.registry, Shop.registryOf, hr]
    rfl
  have hfound : (r.resolve {} "shop" "revenue").toOption.isSome = true := by
    rw [hregistry]
    decide +kernel
  have hcompiled : (r.compileNamed {} "orders" "revenue" []).1.toOption.isSome = true := by
    rw [hregistry]
    decide +kernel
  obtain ⟨ref, href⟩ := Option.isSome_iff_exists.1 hfound
  obtain ⟨node, hnode⟩ := Option.isSome_iff_exists.1 hcompiled
  have href := toOption_eq_some_iff.1 href
  have hnode := toOption_eq_some_iff.1 hnode
  exact ⟨r, r', hr, toOption_eq_some_iff.1 hr', ⟨ref, href, hresolve _ _ _ href⟩,
    ⟨node, hnode, hnamed _ _ _ hnode⟩⟩

end Registry

end MetricLayer
