import MetricLayer.Proofs.Reference.Reexport

/-!
# What keeps a path from being resolved

A path that does not resolve meets an obstacle: it is malformed, it names an entity that there is
not or that no relationship leads to, it asks for a member that the last entity does not have, or
re-exported members lead back to themselves (`Obstacle`). The obstacle may lie on the path itself or
on the path of a member that is followed because the last entity re-exports it (`GoesOn`). The fault
that is reported names the obstacle with the place where it lies (`exists_obstacle_of_resolve`), so
a path without an obstacle on its way resolves.
-/

namespace MetricLayer

open Relation Schema

namespace Registry

/-! ## Walking by names -/

/-- An entity can be left for another by a relationship that it declares or, where the rules allow
it, by a join that the other declares back. -/
def Adjoins (rules : WalkRules) (source target : Entity) : Prop :=
  (∃ rel ∈ source.relationships, rel.target = target.name) ∨
    rules.reverseJoins = true ∧
      ∃ rel ∈ target.relationships, rel.target = source.name ∧ rel.kind = .join

/-- Names of registered entities that are visited one after another, and the last of them. -/
inductive Visits (r : Registry) (rules : WalkRules) : Entity → List String → Entity → Prop
  | nil (e : Entity) : Visits r rules e [] e
  | cons {current next final : Entity} {name : String} {rest : List String} :
      r.entity? name = some next → Adjoins rules current next → Visits r rules next rest final →
      Visits r rules current (name :: rest) final

/-- The segments that leave a start: the first may name the start itself, which is no step. -/
def leaving (start : String) : List String → List String
  | [] => []
  | first :: rest => if first = start then rest else first :: rest

/-- Segments that lead from a registered start to an entity. -/
def SegmentsLead (r : Registry) (rules : WalkRules) (start : String) (segments : List String)
    (final : Entity) : Prop :=
  ∃ e, r.entity? start = some e ∧ r.Visits rules e (leaving start segments) final

/-- Following a path from an entity goes on with another path: the segments before the last lead to
an entity that has no own field of the name asked for, but re-exports one by the other path. -/
def GoesOn (r : Registry) (rules : WalkRules) (a b : String × String) : Prop :=
  ∃ final, r.SegmentsLead rules a.1 (Path.ofText a.2).entities final ∧ b.1 = final.name ∧
    (Path.ofText a.2).member ∉ final.fieldNames ∧ b.2 ∈ final.includes ∧
    (Path.ofText b.2).member = (Path.ofText a.2).member

/-- What a fault says of a path that is followed from a start. -/
inductive Obstacle (r : Registry) (rules : WalkRules) (start path : String) : Fault → Prop
  /-- A segment of the path is blank. -/
  | blankSegment {segment : String} :
      segment ∈ (Path.ofText path).segments → Text.allBlank segment.toList = true →
      Obstacle r rules start path
        (.invalidExpression s!"empty segment in member path '{path}'")
  /-- The path has more segments than the rules allow. -/
  | tooLong {count limit : Nat} :
      (Path.ofText path).segments.length = count → rules.maxDepth = limit → limit < count →
      Obstacle r rules start path
        (.invalidExpression
          s!"member path '{path}' has {count} segments, more than the maximum of {limit}")
  /-- The path starts nowhere. -/
  | unknownStart : r.entity? start = none → Obstacle r rules start path (.unknownEntity start)
  /-- The segments before one that names no entity lead somewhere. -/
  | unknownEntity {before after : List String} {segment : String} {reached : Entity} :
      (Path.ofText path).entities = before ++ segment :: after →
      r.SegmentsLead rules start before reached → r.entity? segment = none →
      Obstacle r rules start path (.unknownEntity segment)
  /-- The segments before one lead to an entity that cannot be left for the entity it names. -/
  | unreachable {before after : List String} {segment : String} {source target : Entity} :
      (Path.ofText path).entities = before ++ segment :: after →
      r.SegmentsLead rules start before source → r.entity? segment = some target →
      ¬ Adjoins rules source target →
      Obstacle r rules start path (.unreachableEntity source.name segment before.length path)
  /-- The entity that the segments before the last lead to has no member of the last one's name. -/
  | unknownField {final : Entity} :
      r.SegmentsLead rules start (Path.ofText path).entities final →
      (Path.ofText path).member ∉ final.memberNames →
      Obstacle r rules start path (.unknownField final.name (Path.ofText path).member)
  /-- Re-exported members lead back to themselves. -/
  | loop {c : List String} :
      r.IsReexportLoop rules c → Obstacle r rules start path (.cyclicReference c)

variable {r : Registry} {rules : WalkRules} {start path : String} {f : Fault}

theorem leaving_of_head?_ne {segments : List String} (h : segments.head? ≠ some start) :
    leaving start segments = segments := by
  cases segments with
  | nil => rfl
  | cons first rest =>
    have hfirst : first ≠ start := by simpa using h
    rw [leaving, if_neg hfirst]

theorem Visits.registered {e final : Entity} {names : List String}
    (h : r.Visits rules e names final) (he : r.entity? e.name = some e) :
    r.entity? final.name = some final := by
  induction h with
  | nil => exact he
  | cons hnext _ _ ih => exact ih (entity?_self hnext)

theorem SegmentsLead.registered {final : Entity} {segments : List String}
    (h : r.SegmentsLead rules start segments final) : r.entity? final.name = some final := by
  obtain ⟨e, he, hvisits⟩ := h
  exact hvisits.registered (entity?_self he)

/-! ## One step -/

theorem crossing?_eq_none_iff {source target : Entity} :
    crossing? rules source target = none ↔ ¬ Adjoins rules source target := by
  unfold crossing? Adjoins
  cases hrel : source.relationshipTo? target.name with
  | some rel =>
    have hdeclared : ∃ rel ∈ source.relationships, rel.target = target.name :=
      ⟨rel, List.mem_of_find?_eq_some hrel, by simpa using List.find?_some hrel⟩
    simp [hdeclared]
  | none =>
    have hundeclared : ¬ ∃ rel ∈ source.relationships, rel.target = target.name := by
      simpa [Entity.relationshipTo?] using hrel
    simp [hundeclared, Entity.joinTo?, imp.swap]

/-- A segment that cannot be stepped to from an entity, with the fault that says why. -/
inductive Stuck (r : Registry) (rules : WalkRules) (path : String) (place : Nat)
    (current : Entity) (segment : String) : Fault → Prop
  | unknown : r.entity? segment = none →
      Stuck r rules path place current segment (.unknownEntity segment)
  | outOfReach {target : Entity} : r.entity? segment = some target →
      ¬ Adjoins rules current target →
      Stuck r rules path place current segment
        (.unreachableEntity current.name segment place path)

theorem adjoins_of_step {place : Nat} {current next : Entity} {segment : String} {hop : Hop}
    (h : r.step rules path place current segment = .ok (hop, next)) :
    r.entity? segment = some next ∧ Adjoins rules current next := by
  obtain ⟨target, c, hn, hc, hreached⟩ := step_eq_ok_iff.1 h
  obtain ⟨-, rfl⟩ := Prod.mk.inj hreached
  have hnear : crossing? rules current target ≠ none := by simp [hc]
  exact ⟨hn, not_not.1 (mt crossing?_eq_none_iff.2 hnear)⟩

theorem stuck_of_step {place : Nat} {current : Entity} {segment : String}
    (h : r.step rules path place current segment = .error f) :
    r.Stuck rules path place current segment f := by
  unfold step at h
  cases hn : r.entity? segment with
  | none =>
    obtain rfl : Fault.unknownEntity segment = f := by simpa [hn] using h
    exact .unknown hn
  | some target =>
    cases hc : crossing? rules current target with
    | some c => simp [hn, hc] at h
    | none =>
      obtain rfl : Fault.unreachableEntity current.name segment place path = f := by
        simpa [hn, hc] using h
      exact .outOfReach hn (crossing?_eq_none_iff.1 hc)

/-! ## Along the segments of a path -/

theorem visits_of_walkThrough {place : Nat} {current final : Entity} {segments : List String}
    {hops : List Hop} (h : r.walkThrough rules path place current segments = .ok (hops, final)) :
    r.Visits rules current segments final := by
  induction segments generalizing place current hops with
  | nil =>
    obtain ⟨-, rfl⟩ : [] = hops ∧ current = final := by simpa [walkThrough] using h
    exact .nil current
  | cons segment rest ih =>
    obtain ⟨hop, next, further, hs, hw, hwalked⟩ := walkThrough_cons_eq_ok_iff.1 h
    obtain ⟨-, rfl⟩ := Prod.mk.inj hwalked
    obtain ⟨hnext, hadjoins⟩ := adjoins_of_step hs
    exact .cons hnext hadjoins (ih hw)

/-- A walk that fails gets as far as a segment that cannot be stepped to; the fault counts the
segments before it. -/
theorem visits_of_walkThrough_error {place : Nat} {current : Entity} {segments : List String}
    (h : r.walkThrough rules path place current segments = .error f) :
    ∃ before segment after last, segments = before ++ segment :: after ∧
      r.Visits rules current before last ∧
      r.Stuck rules path (place + before.length) last segment f := by
  induction segments generalizing place current with
  | nil => simp [walkThrough] at h
  | cons segment rest ih =>
    obtain hs | ⟨hop, next, hs, hw⟩ := walkThrough_cons_eq_error_iff.1 h
    · exact ⟨[], segment, rest, current, rfl, .nil current, stuck_of_step hs⟩
    · obtain ⟨hnext, hadjoins⟩ := adjoins_of_step hs
      obtain ⟨before, stuck, after, last, rfl, hvisits, hstuck⟩ := ih hw
      refine ⟨segment :: before, stuck, after, last, rfl, .cons hnext hadjoins hvisits, ?_⟩
      rwa [List.length_cons, Nat.add_comm before.length, ← Nat.add_assoc]

variable {e final : Entity} {segments : List String} {hops : List Hop}

theorem segmentsLead_of_walk (he : r.entity? start = some e)
    (h : r.walk rules path e segments = .ok (hops, final)) :
    r.SegmentsLead rules start segments final := by
  obtain rfl : e.name = start := entity?_name he
  refine ⟨e, he, ?_⟩
  rcases walk_eq_ok_cases h with ⟨rest, further, rfl, hw, hwalked⟩ | ⟨hother, hw⟩
  · obtain ⟨-, rfl⟩ := Prod.mk.inj hwalked
    rw [leaving, if_pos rfl]
    exact visits_of_walkThrough hw
  · rw [leaving_of_head?_ne hother]
    exact visits_of_walkThrough hw

theorem stuck_of_walk (he : r.entity? start = some e)
    (h : r.walk rules path e segments = .error f) :
    ∃ before segment after last, segments = before ++ segment :: after ∧
      r.SegmentsLead rules start before last ∧
      r.Stuck rules path before.length last segment f := by
  obtain rfl : e.name = start := entity?_name he
  cases segments with
  | nil => simp [walk] at h
  | cons first rest =>
    simp only [walk] at h
    split_ifs at h with hfirst
    · cases hw : r.walkThrough rules path 1 e rest with
      | ok walked => simp [hw] at h
      | error g =>
        obtain rfl : g = f := by simpa [hw] using h
        obtain ⟨before, segment, after, last, rfl, hvisits, hstuck⟩ :=
          visits_of_walkThrough_error hw
        refine ⟨first :: before, segment, after, last, rfl, ⟨e, he, ?_⟩, ?_⟩
        · rwa [leaving, if_pos hfirst]
        · rwa [List.length_cons, Nat.add_comm]
    · obtain ⟨before, segment, after, last, hsegments, hvisits, hstuck⟩ :=
        visits_of_walkThrough_error h
      refine ⟨before, segment, after, last, hsegments, ⟨e, he, ?_⟩, by rwa [Nat.zero_add] at hstuck⟩
      -- The first segment is not the start, so the segments walked do not begin with it either.
      cases before with
      | nil => exact hvisits
      | cons b before =>
        obtain ⟨rfl, -⟩ := List.cons.inj hsegments
        rwa [leaving, if_neg hfirst]

/-! ## Where paths lead -/

theorem checkPath_error (h : checkPath rules path = .error f) : r.Obstacle rules start path f := by
  unfold checkPath at h
  dsimp only at h
  split_ifs at h with hblank hlong
  · obtain rfl := Except.error.inj h
    obtain ⟨segment, hsegment, hall⟩ := List.any_eq_true.1 hblank
    exact .blankSegment hsegment hall
  · obtain rfl := Except.error.inj h
    exact .tooLong rfl rfl hlong

theorem obstacle_of_approach (h : r.approach rules start path = .error f) :
    r.Obstacle rules start path f := by
  unfold approach at h
  cases hp : checkPath rules path with
  | error g =>
    obtain rfl : g = f := by simpa [hp] using h
    exact checkPath_error hp
  | ok p =>
    obtain ⟨rfl, -⟩ := checkPath_eq_ok_iff.1 hp
    cases he : r.lookup start with
    | error g =>
      obtain rfl : g = f := by simpa [hp, he] using h
      unfold lookup at he
      split at he
      · cases he
      · next hnone =>
        obtain rfl := Except.error.inj he
        exact .unknownStart hnone
    | ok e =>
      cases hw : r.walk rules path e (Path.ofText path).entities with
      | ok walked => simp [hp, he, hw] at h
      | error g =>
        obtain rfl : g = f := by simpa [hp, he, hw] using h
        obtain ⟨before, segment, after, last, hentities, hlead, hstuck⟩ :=
          stuck_of_walk (lookup_eq_ok_iff.1 he) hw
        cases hstuck with
        | unknown hnone => exact .unknownEntity hentities hlead hnone
        | outOfReach hsome hfar => exact .unreachable hentities hlead hsome hfar

theorem segmentsLead_of_approach {member : String}
    (h : r.approach rules start path = .ok (hops, final, member)) :
    r.SegmentsLead rules start (Path.ofText path).entities final := by
  obtain ⟨-, e, he, hw⟩ := walk_of_approach h
  exact segmentsLead_of_walk he hw

/-! ## Through re-exported members -/

/-- Following a path that is not followed to a field goes on to a path that meets an obstacle. The
induction is on the members that are not being followed yet. -/
theorem exists_obstacle_of_follow {pending through : List (String × String)}
    (hinv : Following r rules pending through start path)
    (h : r.follow rules pending through start path = .error f) :
    ∃ start' path', ReflTransGen (r.GoesOn rules) (start, path) (start', path') ∧
      r.Obstacle rules start' path' f := by
  induction hn : pending.length using Nat.strongRecOn generalizing pending through start path with
  | ind n ih =>
    rcases follow_error h with ha | ⟨before, final, member, ha, hf, hend⟩
    · exact ⟨start, path, .refl, obstacle_of_approach ha⟩
    · have hlead := segmentsLead_of_approach ha
      obtain ⟨rfl, -⟩ := walk_of_approach ha
      have hown := Entity.field?_eq_none_iff.1 hf
      rcases hend with ⟨hi, rfl⟩ | ⟨included, hi, ⟨hk, hinner⟩ | ⟨hk, rfl⟩⟩
      · refine ⟨start, path, .refl, .unknownField hlead fun hmember => ?_⟩
        rcases List.mem_append.1 hmember with hmember | hmember
        · exact hown hmember
        · exact Entity.includedPath?_eq_none_iff.1 hi hmember
      · obtain ⟨hmem, hname⟩ := Entity.mem_of_includedPath? hi
        have hgoes : r.GoesOn rules (start, path) (final.name, included) :=
          ⟨final, hlead, rfl, hown, hmem, hname⟩
        obtain ⟨start', path', hfurther, hobstacle⟩ :=
          ih _ (hn ▸ length_strike_lt hk) (hinv.push ha hf hi hk) hinner rfl
        exact ⟨start', path', .head hgoes hfurther, hobstacle⟩
      · exact ⟨start, path, .refl, .loop (hinv.isReexportLoop ha hi hk)⟩

/-- **Faults of paths.** A path that does not resolve goes on, possibly through the paths of
re-exported members, to one that meets the obstacle that the fault names. -/
theorem exists_obstacle_of_resolve (h : r.resolve rules start path = .error f) :
    ∃ start' path', ReflTransGen (r.GoesOn rules) (start, path) (start', path') ∧
      r.Obstacle rules start' path' f :=
  exists_obstacle_of_follow following_nil (resolve_error h)

/-- Where joins may not be crossed backward, the revenue of the shop is out of reach: the path of
the re-exported member cannot leave the users for the orders. -/
theorem exists_obstacle_of_resolve_revenue :
    let rules : WalkRules := { reverseJoins := false }
    let f : Fault := .unreachableEntity "users" "orders" 1 "users.orders.revenue"
    Shop.registry.resolve rules "shop" "revenue" = .error f ∧
      ∃ start' path',
        ReflTransGen (Shop.registry.GoesOn rules) ("shop", "revenue") (start', path') ∧
        Shop.registry.Obstacle rules start' path' f := by
  intro rules f
  have h : Shop.registry.resolve rules "shop" "revenue" = .error f := by decide +kernel
  exact ⟨h, exists_obstacle_of_resolve h⟩

end Registry

end MetricLayer
