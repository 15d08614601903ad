import MetricLayer.Proofs.Reference.Obstacle

/-!
# The roots of re-exported paths are in reach

An entity includes each entity that one of its re-exported paths begins with: registration declares
what is missing. So a re-exported path never fails because its first segment is out of reach,
however it comes to be followed (`follow_ne_unreachable_root`). Where resolving a path fails that
way, it is the first segment of this path itself that cannot be reached from the start
(`resolve_unreachable_root`).
-/

namespace MetricLayer

open Schema

namespace Registry

variable {r : Registry} {rules : WalkRules} {pending through : List (String × String)}
  {start path name source target p : String} {e : Entity}

/-- A first segment that is out of reach names an entity that the start cannot be left for. -/
theorem Obstacle.root (h : r.Obstacle rules start path (.unreachableEntity source target 0 p)) :
    p = path ∧ source = start ∧ ∃ e next, r.entity? start = some e ∧
      (Path.ofText path).root? = some target ∧ r.entity? target = some next ∧
      ¬ Adjoins rules e next := by
  generalize hf : Fault.unreachableEntity source target 0 p = f at h
  cases h with
  | @unreachable before after segment last next hentities hlead hnext hfar =>
    obtain ⟨rfl, rfl, hplace, rfl⟩ : source = last.name ∧ target = segment ∧
      0 = before.length ∧ p = path := by simpa using hf
    obtain rfl := List.length_eq_zero_iff.1 hplace.symm
    -- No segment stands before the first, so the walk is still at its start.
    obtain ⟨e, he, hvisits⟩ := hlead
    cases hvisits
    exact ⟨rfl, entity?_name he, last, next, he, by rw [Path.root?, hentities]; rfl, hnext, hfar⟩
  | _ => simp at hf

theorem adjoins_root {root : String} {next : Entity} (he : r.entity? name = some e)
    (hpath : path ∈ e.includes) (hroot : (Path.ofText path).root? = some root)
    (hnext : r.entity? root = some next) : Adjoins rules e next := by
  have hmem : root ∈ e.includeRoots := List.mem_filterMap.2 ⟨path, hpath, hroot⟩
  have hdeclared := r.roots_included e (entity?_eq_some_iff.1 he).1 root hmem
  obtain ⟨rel, hrel, hkind⟩ := List.any_eq_true.1 hdeclared
  obtain ⟨-, htarget⟩ : rel.kind = .inclusion ∧ rel.target = root := by simpa using hkind
  exact Or.inl ⟨rel, hrel, by rw [htarget, entity?_name hnext]⟩

theorem approach_ne_unreachable_root (he : r.entity? name = some e) (hpath : path ∈ e.includes) :
    r.approach rules name path ≠ .error (.unreachableEntity source target 0 p) := by
  intro h
  obtain ⟨-, -, e', next, he', hroot, hnext, hfar⟩ := (obstacle_of_approach h).root
  obtain rfl := Option.some.inj (he.symm.trans he')
  exact hfar (adjoins_root he hpath hroot hnext)

/-! ## Through re-exported members -/

/-- A path of which a first segment is found out of reach fails at its own. The induction is on the
members that are pending. -/
theorem approach_of_follow_unreachable_root
    (h : r.follow rules pending through start path =
      .error (.unreachableEntity source target 0 p)) :
    r.approach rules start path = .error (.unreachableEntity source target 0 p) := by
  induction hn : pending.length using Nat.strongRecOn generalizing pending through start path with
  | ind n ih =>
    rcases follow_error h with ha | ⟨before, final, member, ha, -, hend⟩
    · exact ha
    · rcases hend with ⟨-, hunknown⟩ | ⟨included, hi, ⟨hk, hinner⟩ | ⟨-, hloop⟩⟩
      · cases hunknown
      · have hroot := ih _ (hn ▸ length_strike_lt hk) hinner rfl
        exact absurd hroot (approach_ne_unreachable_root (segmentsLead_of_approach ha).registered
          (Entity.mem_of_includedPath? hi).1)
      · cases hloop

theorem follow_ne_unreachable_root (he : r.entity? name = some e) (hpath : path ∈ e.includes) :
    r.follow rules pending through name path ≠ .error (.unreachableEntity source target 0 p) :=
  fun h => approach_ne_unreachable_root he hpath (approach_of_follow_unreachable_root h)

/-- **Registration makes roots reachable.** If resolving a path fails because a first segment is out
of reach, it is the first segment of the path itself, which names an entity that the start cannot be
left for. No re-exported path fails so, whatever members are being followed when it is followed from
the entity that declares it, and none fails so when it is resolved from there. -/
theorem resolve_unreachable_root (r : Registry) (rules : WalkRules) (start path : String) :
    (∀ source target p,
      r.resolve rules start path = .error (.unreachableEntity source target 0 p) →
      p = path ∧ source = start ∧ ∃ e next, r.entity? start = some e ∧
        (Path.ofText path).root? = some target ∧ r.entity? target = some next ∧
        ¬ Adjoins rules e next) ∧
    ∀ e ∈ r.entities, ∀ included ∈ e.includes, ∀ source target p,
      (∀ pending through, r.follow rules pending through e.name included ≠
        .error (.unreachableEntity source target 0 p)) ∧
      r.resolve rules e.name included ≠ .error (.unreachableEntity source target 0 p) := by
  constructor
  · intro source target p h
    exact (obstacle_of_approach (approach_of_follow_unreachable_root (resolve_error h))).root
  · intro e he included hincluded source target p
    have hself : r.entity? e.name = some e := entity?_eq_some_iff.2 ⟨he, rfl⟩
    exact ⟨fun pending through => follow_ne_unreachable_root hself hincluded,
      fun h => follow_ne_unreachable_root hself hincluded (resolve_error h)⟩

/-- Without joins crossed backward, the users cannot be left for the shop; the path of the shop's
revenue fails too, but not at its root. -/
theorem resolve_unreachable_root_shop :
    let rules : WalkRules := { reverseJoins := false }
    Shop.registry.resolve rules "users" "shop.revenue" =
        .error (.unreachableEntity "users" "shop" 0 "shop.revenue") ∧
      (∃ e next, Shop.registry.entity? "users" = some e ∧
        (Path.ofText "shop.revenue").root? = some "shop" ∧
        Shop.registry.entity? "shop" = some next ∧ ¬ Adjoins rules e next) ∧
      Shop.registry.resolve rules "shop" "users.orders.revenue" =
        .error (.unreachableEntity "users" "orders" 1 "users.orders.revenue") ∧
      ∀ source target p, Shop.registry.resolve rules "shop" "users.orders.revenue" ≠
        .error (.unreachableEntity source target 0 p) := by
  intro rules
  have hfar : Shop.registry.resolve rules "users" "shop.revenue" =
      .error (.unreachableEntity "users" "shop" 0 "shop.revenue") := by decide +kernel
  have hview : Shop.view.withInclusions ∈ Shop.registry.entities := by decide +kernel
  have hpath : "users.orders.revenue" ∈ Shop.view.withInclusions.includes := by decide
  refine ⟨hfar, ?_, by decide +kernel, fun source target p => ?_⟩
  · exact ((resolve_unreachable_root Shop.registry rules "users" "shop.revenue").1 _ _ _ hfar).2.2
  · exact ((resolve_unreachable_root Shop.registry rules "users" "shop.revenue").2 _ hview _ hpath
      source target p).2

end Registry

end MetricLayer
