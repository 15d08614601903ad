import MetricLayer.Proofs.Reference.Ends
import MetricLayer.Proofs.Reference.Locality

/-!
# Cutting a path at a segment

What stands behind a segment of a path is a path of its own. If the whole resolves, this one
resolves from the entity that the segment names, to the same member, and its hops are those that
follow the hops up to the segment (`resolve_composes`). The segments are walked one after another,
wherever in a path they stand (`walkThrough_cut`), and from the entity at their end on following
depends on that entity and on the member alone (`resolve_of_approach_append`). Only the first
segment of a path may name the entity that the path starts from without a step to it: so the path
behind a segment must not begin with that segment again.
-/

namespace MetricLayer

open Schema

namespace Registry

variable {r : Registry} {rules : WalkRules} {start start' path path' member : String}
  {e final : Entity} {hops front back : List Hop} {before after : List String}

/-! ## Walking through segments -/

/-- A walk comes to the entity of each segment, one hop a segment, and goes on from there. -/
theorem walkThrough_cut {place : Nat} {segment : String}
    (h : r.walkThrough rules path place e (before ++ segment :: after) = .ok (hops, final)) :
    ∃ front back mid, r.entity? segment = some mid ∧ front.length = before.length + 1 ∧
      hops = front ++ back ∧ r.walkThrough rules path place mid after = .ok (back, final) := by
  induction before generalizing place e hops with
  | nil =>
    obtain ⟨hop, next, further, hs, hw, hwalked⟩ := walkThrough_cons_eq_ok_iff.1 h
    obtain ⟨rfl, rfl⟩ := Prod.mk.inj hwalked
    exact ⟨[hop], further.1, next, (entity_of_step hs).1, rfl, rfl, walkThrough_eq_ok hw⟩
  | cons first before ih =>
    obtain ⟨hop, next, further, hs, hw, hwalked⟩ := walkThrough_cons_eq_ok_iff.1 h
    obtain ⟨rfl, rfl⟩ := Prod.mk.inj hwalked
    obtain ⟨front, back, mid, hmid, hlength, hhops, hback⟩ := ih hw
    exact ⟨hop :: front, back, mid, hmid, by simp [hlength], by simp [hhops],
      walkThrough_eq_ok hback⟩

/-- A walk that may begin at its start comes to the entity of each segment, and goes on from there;
a first segment that is the start is a hop that crosses nothing. -/
theorem walk_cut {segment : String} (he : r.entity? e.name = some e)
    (h : r.walk rules path e (before ++ segment :: after) = .ok (hops, final)) :
    ∃ front back mid, r.entity? segment = some mid ∧ front.length = before.length + 1 ∧
      hops = front ++ back ∧ r.walkThrough rules path 0 mid after = .ok (back, final) ∧
      (before = [] → segment = e.name → front = [{ entity := e.name }]) := by
  rcases walk_eq_ok_cases h with ⟨rest, further, hsegments, hw, hwalked⟩ | ⟨hother, hw⟩
  · obtain ⟨rfl, rfl⟩ := Prod.mk.inj hwalked
    cases before with
    | nil =>
      obtain ⟨rfl, rfl⟩ := List.cons.inj hsegments
      exact ⟨[{ entity := e.name }], further.1, e, he, rfl, rfl, walkThrough_eq_ok hw,
        fun _ _ => rfl⟩
    | cons first before =>
      obtain ⟨rfl, rfl⟩ := List.cons.inj hsegments
      obtain ⟨front, back, mid, hmid, hlength, hhops, hback⟩ := walkThrough_cut hw
      exact ⟨{ entity := e.name } :: front, back, mid, hmid, by simp [hlength], by simp [hhops],
        walkThrough_eq_ok hback, by simp⟩
  · obtain ⟨front, back, mid, hmid, hlength, hhops, hback⟩ := walkThrough_cut hw
    refine ⟨front, back, mid, hmid, hlength, hhops, hback, ?_⟩
    rintro rfl rfl
    simp at hother

/-! ## Where the rest of a path leads -/

/-- Where a path leads to an entity, what stands behind one of its segments leads from the entity of
that segment to the same one. -/
theorem approach_cut {segment rest : String}
    (h : r.approach rules start path = .ok (hops, final, member))
    (hcut : (Path.ofText path).entities = before ++ segment :: after)
    (hrest : Path.ofText rest = ⟨after, (Path.ofText path).member⟩)
    (hnext : after.head? ≠ some segment) :
    ∃ front back, front.length = before.length + 1 ∧ hops = front ++ back ∧
      r.approach rules segment rest = .ok (back, final, member) ∧
      (before = [] → segment = start → front = [{ entity := start }]) := by
  obtain ⟨hadmits, hmember, e, he, hw⟩ := approach_eq_ok_iff.1 h
  obtain rfl : e.name = start := entity?_name he
  rw [hcut] at hw
  obtain ⟨front, back, mid, hmid, hlength, hhops, hback, hself⟩ := walk_cut he hw
  refine ⟨front, back, hlength, hhops, approach_eq_ok_iff.2 ?_, hself⟩
  rw [hrest]
  refine ⟨hadmits.of_sublist ?_, hmember, mid, hmid, ?_⟩
  · rw [Path.segments, Path.segments, hcut, List.append_assoc, List.cons_append]
    exact (List.sublist_cons_self _ _).trans (List.sublist_append_right _ _)
  · rw [← entity?_name hmid] at hnext
    rw [walk_of_head?_ne hnext]
    exact walkThrough_eq_ok hback

/-- Two paths that lead to one entity and ask it for one member, the first after some more hops,
resolve together and to the same end. -/
theorem resolve_of_approach_append
    (h : r.approach rules start path = .ok (front ++ back, final, member))
    (h' : r.approach rules start' path' = .ok (back, final, member)) :
    r.resolve rules start path =
      (r.resolve rules start' path').map fun inner =>
        ⟨start, path, front ++ inner.hops, inner.member⟩ := by
  unfold resolve
  rw [follow_of_approach h, follow_of_approach h']
  cases final.field? member with
  | some field => simp [Except.map]
  | none =>
    cases final.includedPath? member with
    | none => rfl
    | some included =>
      dsimp only
      split_ifs
      · cases r.follow rules (strike (final.name, member) r.reexports)
          ([] ++ [(final.name, member)]) final.name included <;> simp [Except.map]
      · rfl

/-! ## Resolving the parts of a path -/

theorem resolve_cut {ref : Reference} {segment rest : String}
    (h : r.resolve rules start path = .ok ref)
    (hcut : (Path.ofText path).entities = before ++ segment :: after)
    (hrest : Path.ofText rest = ⟨after, (Path.ofText path).member⟩)
    (hnext : after.head? ≠ some segment) :
    ∃ front inner, r.resolve rules segment rest = .ok inner ∧ inner.member = ref.member ∧
      front.length = before.length + 1 ∧ ref.hops = front ++ inner.hops ∧
      (before = [] → segment = start → front = [{ entity := start }]) := by
  obtain ⟨hops, final, member, ha, -⟩ := follow_ok (resolve_ok h).2.2
  obtain ⟨front, back, hlength, rfl, hback, hself⟩ := approach_cut ha hcut hrest hnext
  rw [resolve_of_approach_append ha hback] at h
  obtain ⟨inner, hinner, rfl⟩ := map_eq_ok_iff.1 h
  exact ⟨front, inner, hinner, rfl, hlength, rfl, hself⟩

theorem approach_qualified_start {rest : String} (hdot : DotFree start)
    (hblank : Text.allBlank start.toList = false)
    (hroom : (Path.ofText rest).segments.length < rules.maxDepth)
    (hnext : (Path.ofText rest).root? ≠ some start)
    (h : r.approach rules start rest = .ok (hops, final, member)) :
    r.approach rules start (Path.qualified start rest) =
      .ok ({ entity := start } :: hops, final, member) := by
  obtain ⟨hadmits, hmember, e, he, hw⟩ := approach_eq_ok_iff.1 h
  obtain rfl : e.name = start := entity?_name he
  have hsegments : (Path.ofText (Path.qualified e.name rest)).segments =
      e.name :: (Path.ofText rest).segments := by
    rw [Path.ofText_qualified hdot]
    rfl
  refine approach_eq_ok_iff.2 ⟨⟨?_, ?_⟩, ?_, e, he, ?_⟩
  · rw [hsegments]
    exact List.forall_mem_cons.2 ⟨hblank, hadmits.1⟩
  · rw [hsegments]
    exact hroom
  · rw [Path.ofText_qualified hdot, hmember]
  · rw [walk_of_head?_ne hnext] at hw
    rw [Path.ofText_qualified hdot, walk_self_cons, walkThrough_eq_ok hw]
    rfl

/-- The name of the start, in front of a path that is short enough, changes nothing but one leading
hop. -/
theorem resolve_qualified_start {rest : String} (hdot : DotFree start)
    (hblank : Text.allBlank start.toList = false)
    (hroom : (Path.ofText rest).segments.length < rules.maxDepth)
    (hnext : (Path.ofText rest).root? ≠ some start) :
    (r.resolve rules start (Path.qualified start rest)).toOption =
      (r.resolve rules start rest).toOption.map fun inner =>
        ⟨start, Path.qualified start rest, { entity := start } :: inner.hops, inner.member⟩ := by
  cases ha : r.approach rules start rest with
  | ok reached =>
    obtain ⟨hops, final, member⟩ := reached
    have hlonger : r.approach rules start (Path.qualified start rest) =
        .ok ([{ entity := start }] ++ hops, final, member) :=
      approach_qualified_start hdot hblank hroom hnext ha
    rw [resolve_of_approach_append hlonger ha]
    cases r.resolve rules start rest <;> rfl
  | error f =>
    have hfails : r.resolve rules start rest = .error f := by
      rw [resolve, follow_of_approach_error ha]
    cases h : r.resolve rules start (Path.qualified start rest) with
    | error g => rw [hfails]; rfl
    | ok ref =>
      -- If the longer path resolved, so would what stands behind its first segment.
      have hcut : (Path.ofText (Path.qualified start rest)).entities =
          [] ++ start :: (Path.ofText rest).entities := by
        rw [Path.ofText_qualified hdot]
        rfl
      have hrest : Path.ofText rest =
          ⟨(Path.ofText rest).entities, (Path.ofText (Path.qualified start rest)).member⟩ := by
        rw [Path.ofText_qualified hdot]
      obtain ⟨-, inner, hinner, -⟩ := resolve_cut h hcut hrest hnext
      cases hfails.symm.trans hinner

/-- **Resolving is compositional.** Behind each segment of a path that resolves, what is left of the
path resolves from the entity of that segment, to the same member, unless it is longer than one
segment and begins with that segment again; and the hops of the path are one for each segment up to
this one, followed by the hops of the rest. If the first segment is the start itself, its hop
crosses nothing; and the name of the start may be written in front of every path that leaves room
for it, which changes nothing but that hop. -/
theorem resolve_composes (r : Registry) (rules : WalkRules) (start : String) :
    (∀ path ref before segment after, r.resolve rules start path = .ok ref →
      (Path.ofText path).entities = before ++ segment :: after → after.head? ≠ some segment →
      ∃ front inner,
        r.resolve rules segment (Path.text ⟨after, (Path.ofText path).member⟩) = .ok inner ∧
          inner.member = ref.member ∧ front.length = before.length + 1 ∧
          ref.hops = front ++ inner.hops ∧
          (before = [] → segment = start → front = [{ entity := start }])) ∧
    ∀ rest, DotFree start → Text.allBlank start.toList = false →
      (Path.ofText rest).segments.length < rules.maxDepth →
      (Path.ofText rest).root? ≠ some start →
      (r.resolve rules start (Path.qualified start rest)).toOption =
        (r.resolve rules start rest).toOption.map fun inner =>
          ⟨start, Path.qualified start rest, { entity := start } :: inner.hops, inner.member⟩ := by
  refine ⟨fun path ref before segment after h hcut hnext => ?_,
    fun rest hdot hblank hroom hnext => resolve_qualified_start hdot hblank hroom hnext⟩
  refine resolve_cut h hcut (Path.ofText_text (fun s hs => ?_) (Path.dotFree_member path)) hnext
  have hmem : s ∈ (Path.ofText path).entities := by simp [hcut, hs]
  exact Path.dotFree_of_mem_entities hmem

/-- The revenue is found from the shop as it is from the orders, two hops later, and through the
shop's own name one hop later than through the view alone. -/
theorem resolve_composes_shop :
    (∃ ref front inner, Shop.registry.resolve {} "shop" "users.orders.revenue" = .ok ref ∧
      Shop.registry.resolve {} "orders" "revenue" = .ok inner ∧ inner.member = ref.member ∧
      front.length = 2 ∧ ref.hops = front ++ inner.hops) ∧
    ∃ inner, Shop.registry.resolve {} "shop" "revenue" = .ok inner ∧
      (Shop.registry.resolve {} "shop" "shop.revenue").toOption =
        some ⟨"shop", "shop.revenue", { entity := "shop" } :: inner.hops, inner.member⟩ := by
  obtain ⟨hcuts, hself⟩ := resolve_composes Shop.registry {} "shop"
  constructor
  · obtain ⟨ref, href⟩ := Option.isSome_iff_exists.1 (by decide +kernel :
      (Shop.registry.resolve {} "shop" "users.orders.revenue").toOption.isSome = true)
    have h := toOption_eq_some_iff.1 href
    obtain ⟨front, inner, hinner, hmember, hlength, hhops, -⟩ :=
      hcuts _ ref ["users"] "orders" [] h (by decide +kernel) (by decide)
    have htext : Path.text ⟨[], (Path.ofText "users.orders.revenue").member⟩ = "revenue" := by
      decide +kernel
    rw [htext] at hinner
    exact ⟨ref, front, inner, h, hinner, hmember, hlength, hhops⟩
  · have hprefixed := hself "revenue" (by decide) (by decide +kernel) (by decide +kernel)
      (by decide +kernel)
    obtain ⟨inner, hinner⟩ := Option.isSome_iff_exists.1 (by decide +kernel :
      (Shop.registry.resolve {} "shop" "revenue").toOption.isSome = true)
    rw [hinner] at hprefixed
    exact ⟨inner, toOption_eq_some_iff.1 hinner, hprefixed⟩

end Registry

end MetricLayer
