import MetricLayer.Proofs.Reference.Walk

/-!
# What following a path depends on

A path leads first through the entities that it names (`entities_of_approach`) and then, if the
member is re-exported, through those of the path behind it. Following it asks of the registry for no
other entity than these. So it leads the same way in every registry that has them as they are
(`KeptIn.resolve_ok`), whatever else has been changed there, taken away or added.
-/

namespace MetricLayer

open Schema

theorem mem_strike_of_mem {α : Type} [DecidableEq α] {p : α → Prop} {x : α} {xs ys : List α}
    (h : ∀ k ∈ xs, p k → k ∈ ys) : ∀ k ∈ strike x xs, p k → k ∈ strike x ys := by
  intro k hk hp
  obtain ⟨hmem, hne⟩ := mem_strike.1 hk
  exact mem_strike.2 ⟨h k hmem hp, hne⟩

/-- The entities that a reference leads through, its start first. -/
def Reference.way (ref : Reference) : List String := ref.start :: ref.hops.map Hop.entity

namespace Registry

variable {r r' : Registry} {rules : WalkRules} {start path member : String} {e final : Entity}
  {hops : List Hop} {segments : List String} {names : Set String}

/-! ## The entities on the way -/

theorem IsWalk.ends_on_way {current last : String} (h : r.IsWalk rules current hops last) :
    last = current ∨ ∃ hop ∈ hops, hop.entity = last := by
  induction hops generalizing current with
  | nil => exact Or.inl h.symm
  | cons hop rest ih =>
    rcases ih h.2 with hlast | ⟨x, hx, hlast⟩
    · exact Or.inr ⟨hop, by simp, hlast.symm⟩
    · exact Or.inr ⟨x, List.mem_cons_of_mem _ hx, hlast⟩

theorem entity_of_step {place : Nat} {current next : Entity} {segment : String} {hop : Hop}
    (h : r.step rules path place current segment = .ok (hop, next)) :
    r.entity? segment = some next ∧ hop.entity = segment := by
  obtain ⟨target, c, hn, -, hreached⟩ := step_eq_ok_iff.1 h
  obtain ⟨rfl, rfl⟩ := Prod.mk.inj hreached
  exact ⟨hn, entity?_name hn⟩

theorem entities_of_walkThrough {place : Nat} {current : Entity}
    (h : r.walkThrough rules path place current segments = .ok (hops, final)) :
    hops.map Hop.entity = segments := by
  induction segments generalizing place current hops with
  | nil =>
    obtain ⟨rfl, -⟩ : [] = hops ∧ current = final := by simpa [walkThrough] using h
    rfl
  | cons segment rest ih =>
    obtain ⟨hop, next, further, hs, hw, hwalked⟩ := walkThrough_cons_eq_ok_iff.1 h
    obtain ⟨rfl, rfl⟩ := Prod.mk.inj hwalked
    rw [List.map_cons, (entity_of_step hs).2, ih hw]

theorem entities_of_walk (h : r.walk rules path e segments = .ok (hops, final)) :
    hops.map Hop.entity = segments := by
  rcases walk_eq_ok_cases h with ⟨rest, further, rfl, hw, hwalked⟩ | ⟨-, hw⟩
  · obtain ⟨rfl, rfl⟩ := Prod.mk.inj hwalked
    rw [List.map_cons, entities_of_walkThrough hw]
  · exact entities_of_walkThrough hw

theorem entities_of_approach (h : r.approach rules start path = .ok (hops, final, member)) :
    hops.map Hop.entity = (Path.ofText path).entities := by
  obtain ⟨-, e, -, hw⟩ := walk_of_approach h
  exact entities_of_walk hw

/-- A reference leads first through the entities that its path names. -/
theorem entities_prefix_of_resolve {ref : Reference} (h : r.resolve rules start path = .ok ref) :
    (Path.ofText path).entities <+: ref.hops.map Hop.entity := by
  obtain ⟨before, final, member, happroach, hend⟩ := follow_ok (resolve_ok h).2.2
  rw [← entities_of_approach happroach]
  rcases hend with ⟨field, -, hhops, -⟩ | ⟨included, inner, -, -, -, hhops⟩
  · rw [hhops, List.map_append]
    exact List.prefix_append _ _
  · rw [hhops, List.map_append]
    exact List.prefix_append _ _

/-! ## Registries that keep some entities -/

/-- Another registry has the entities of some names as this one has them. -/
def KeptIn (r r' : Registry) (names : Set String) : Prop :=
  ∀ name ∈ names, ∀ e, r.entity? name = some e → r'.entity? name = some e

namespace KeptIn

theorem step_ok (h : r.KeptIn r' names) {place : Nat} {current : Entity} {segment : String}
    {reached : Hop × Entity} (hs : r.step rules path place current segment = .ok reached)
    (hway : reached.1.entity ∈ names) :
    r'.step rules path place current segment = .ok reached := by
  obtain ⟨next, c, hnext, hcrossing, rfl⟩ := step_eq_ok_iff.1 hs
  have hkept := h segment (entity?_name hnext ▸ hway) _ hnext
  exact step_eq_ok_iff.2 ⟨next, c, hkept, hcrossing, rfl⟩

theorem walkThrough_ok (h : r.KeptIn r' names) {place : Nat} {current : Entity}
    {walked : List Hop × Entity}
    (hw : r.walkThrough rules path place current segments = .ok walked)
    (hway : ∀ hop ∈ walked.1, hop.entity ∈ names) :
    r'.walkThrough rules path place current segments = .ok walked := by
  induction segments generalizing place current walked with
  | nil => exact hw
  | cons segment rest ih =>
    obtain ⟨hop, next, further, hs, hrest, rfl⟩ := walkThrough_cons_eq_ok_iff.1 hw
    obtain ⟨hfirst, hmore⟩ := List.forall_mem_cons.1 hway
    exact walkThrough_cons_eq_ok_iff.2
      ⟨hop, next, further, h.step_ok hs hfirst, ih hrest hmore, rfl⟩

theorem walk_ok (h : r.KeptIn r' names) {walked : List Hop × Entity}
    (hw : r.walk rules path e segments = .ok walked)
    (hway : ∀ hop ∈ walked.1, hop.entity ∈ names) :
    r'.walk rules path e segments = .ok walked := by
  rcases walk_eq_ok_cases hw with ⟨rest, further, rfl, hrest, rfl⟩ | ⟨hother, hw⟩
  · rw [walk_self_cons, h.walkThrough_ok hrest (List.forall_mem_cons.1 hway).2]
    rfl
  · rw [walk_of_head?_ne hother]
    exact h.walkThrough_ok hw hway

theorem approach_ok (h : r.KeptIn r' names) {reached : List Hop × Entity × String}
    (ha : r.approach rules start path = .ok reached) (hstart : start ∈ names)
    (hway : ∀ hop ∈ reached.1, hop.entity ∈ names) :
    r'.approach rules start path = .ok reached := by
  obtain ⟨hops, final, member⟩ := reached
  obtain ⟨hadmits, hmember, e, he, hw⟩ := approach_eq_ok_iff.1 ha
  exact approach_eq_ok_iff.2 ⟨hadmits, hmember, e, h start hstart e he, h.walk_ok hw hway⟩

/-- A path is followed the same way where the entities on the way are kept and their re-exported
members are pending. The induction is on the members that are pending. -/
theorem follow_ok (h : r.KeptIn r' names)
    {pending pending' through through' : List (String × String)}
    (hpending : ∀ k ∈ pending, k.1 ∈ names → k ∈ pending') {found : List Hop × MemberKind}
    (hf : r.follow rules pending through start path = .ok found) (hstart : start ∈ names)
    (hway : ∀ hop ∈ found.1, hop.entity ∈ names) :
    r'.follow rules pending' through' start path = .ok found := by
  induction hn : pending.length using Nat.strongRecOn
    generalizing pending pending' through through' start path found with
  | ind n ih =>
    obtain ⟨hops, kind⟩ := found
    obtain ⟨before, final, member, ha, hend⟩ := Registry.follow_ok hf
    have hbefore : ∀ hop ∈ before, hop ∈ hops := by
      rcases hend with ⟨field, -, rfl, -⟩ | ⟨included, inner, -, -, -, rfl⟩ <;>
        exact fun hop => List.mem_append_left _
    rw [follow_of_approach ha] at hf
    rw [follow_of_approach (h.approach_ok ha hstart fun hop hhop => hway hop (hbefore hop hhop))]
    cases hfield : final.field? member with
    | some field => simpa only [hfield] using hf
    | none =>
      rcases hend with ⟨field, hown, -⟩ | ⟨included, inner, hincluded, hkey, hinner, rfl⟩
      · simp [hfield] at hown
      · -- The entity that re-exports the member is on the way, so the member is pending here too.
        have hfinal : final.name ∈ names := by
          obtain ⟨-, hwalk, -⟩ := Registry.approach_ok ha
          rcases hwalk.ends_on_way with hname | ⟨hop, hhop, hname⟩
          · rwa [hname]
          · exact hname ▸ hway hop (List.mem_append_left _ hhop)
        have hmore : ∀ hop ∈ inner, hop.entity ∈ names := fun hop hhop =>
          hway hop (List.mem_append_right _ hhop)
        have hinner' : r'.follow rules (strike (final.name, member) pending')
            (through' ++ [(final.name, member)]) final.name included = .ok (inner, kind) :=
          ih _ (hn ▸ length_strike_lt hkey) (mem_strike_of_mem hpending) hinner hfinal hmore rfl
        simp only [hincluded, hpending _ hkey hfinal, if_true, hinner', Except.map]

theorem reexports_subset (h : r.KeptIn r' names) :
    ∀ k ∈ r.reexports, k.1 ∈ names → k ∈ r'.reexports := by
  intro k hk hname
  obtain ⟨e, he, hmember⟩ := List.mem_flatMap.1 hk
  obtain ⟨member, -, rfl⟩ := List.mem_map.1 hmember
  have hkept := h e.name hname e (entity?_eq_some_iff.2 ⟨he, rfl⟩)
  exact List.mem_flatMap.2 ⟨e, (entity?_eq_some_iff.1 hkept).1, hmember⟩

theorem resolve_ok (h : r.KeptIn r' names) {ref : Reference}
    (hres : r.resolve rules start path = .ok ref) (hway : ∀ name ∈ ref.way, name ∈ names) :
    r'.resolve rules start path = .ok ref := by
  obtain ⟨hstart, hpath, hfollow⟩ := Registry.resolve_ok hres
  obtain ⟨hfirst, hhops⟩ := List.forall_mem_cons.1 hway
  rw [resolve, h.follow_ok h.reexports_subset hfollow (hstart ▸ hfirst)
    (by simpa using hhops)]
  cases ref
  simp_all

end KeptIn

end Registry

end MetricLayer
