import MetricLayer.Proofs.Reference.Walk
import MetricLayer.Proofs.Registry.Growth

/-!
# Where paths end

The segments of a path lead to the entity that the last of them names, however they lead there
(`entity?_of_approach`), and what is found from there on depends on that entity and the member alone
(`SameEnd.of_approach`). So the first segment of a re-exported path may be replaced by the name of
the entity that re-exports it: if both paths resolve they end at the same member
(`sameEnd_of_ownRoot`). A re-exported path without a dot never resolves, for it asks for itself.
-/

namespace MetricLayer

open Schema

/-- References to the same field of the same entity. -/
structure Reference.SameEnd (ref ref' : Reference) : Prop where
  targetEntity : ref.targetEntity = ref'.targetEntity
  fieldName : ref.fieldName = ref'.fieldName
  member : ref.member = ref'.member

theorem Reference.SameEnd.qualifiedName {ref ref' : Reference} (h : ref.SameEnd ref') :
    ref.qualifiedName = ref'.qualifiedName := by
  unfold Reference.qualifiedName
  rw [h.targetEntity, h.fieldName]

theorem Reference.sameEnd_of_getLast? {ref ref' : Reference} {last : Hop}
    (h : ref.hops.getLast? = some last) (h' : ref'.hops.getLast? = some last)
    (hmember : ref.member = ref'.member) : ref.SameEnd ref' :=
  ⟨by simp [targetEntity, h, h'], by simp [fieldName, h, h'], hmember⟩

namespace Registry

variable {r : Registry} {rules : WalkRules} {start start' path path' member name : String}
  {e final : Entity} {hops hops' before before' : List Hop}
  {pending through : List (String × String)}

/-! ## The entity that segments lead to -/

theorem entity?_of_walkThrough {place : Nat} {current : Entity} {segments : List String}
    (hcurrent : r.entity? start = some current)
    (h : r.walkThrough rules path place current segments = .ok (hops, final)) :
    r.entity? (segments.getLastD start) = some final := by
  induction segments generalizing place current start hops with
  | nil =>
    obtain ⟨-, rfl⟩ : [] = hops ∧ current = final := by simpa [walkThrough] using h
    exact hcurrent
  | cons segment rest ih =>
    obtain ⟨hop, next, further, hs, hw, hwalked⟩ := walkThrough_cons_eq_ok_iff.1 h
    obtain ⟨-, rfl⟩ := Prod.mk.inj hwalked
    rw [List.getLastD_cons]
    exact ih (step_ok (entity?_self hcurrent) hs).1 hw

theorem entity?_of_walk {segments : List String} (he : r.entity? start = some e)
    (h : r.walk rules path e segments = .ok (hops, final)) :
    r.entity? (segments.getLastD start) = some final := by
  rcases walk_eq_ok_cases h with ⟨rest, further, rfl, hw, hwalked⟩ | ⟨-, hw⟩
  · obtain ⟨-, rfl⟩ := Prod.mk.inj hwalked
    rw [List.getLastD_cons]
    exact entity?_of_walkThrough (entity?_self he) hw
  · exact entity?_of_walkThrough he hw

/-- The segments of a path lead to the entity that the last of them names, and stay at the start if
there are none. -/
theorem entity?_of_approach (h : r.approach rules start path = .ok (hops, final, member)) :
    r.entity? ((Path.ofText path).entities.getLastD start) = some final := by
  obtain ⟨-, e, he, hw⟩ := walk_of_approach h
  exact entity?_of_walk he hw

/-! ## The end of a path -/

theorem exists_lastHop_of_follow {kind : MemberKind}
    (h : r.follow rules pending through start path = .ok (hops, kind)) :
    ∃ last, hops.getLast? = some last := by
  obtain ⟨target, field, hleads, -⟩ := follow_leadsTo h
  obtain ⟨before, hhops, -⟩ := hleads.ends
  exact ⟨lastHop target field, by rw [hhops, List.getLast?_concat]⟩

/-- Paths that lead to one entity and ask it for one member end with the same hop. -/
theorem lastHop_of_approach {kind kind' : MemberKind}
    (ha : r.approach rules start path = .ok (before, final, member))
    (ha' : r.approach rules start' path' = .ok (before', final, member))
    (h : r.follow rules pending through start path = .ok (hops, kind))
    (h' : r.follow rules pending through start' path' = .ok (hops', kind')) :
    ∃ last, hops.getLast? = some last ∧ hops'.getLast? = some last ∧ kind = kind' := by
  rw [follow_of_approach ha] at h
  rw [follow_of_approach ha'] at h'
  cases hf : final.field? member with
  | some field =>
    simp only [hf, Except.ok.injEq, Prod.mk.injEq] at h h'
    obtain ⟨rfl, rfl⟩ := h
    obtain ⟨rfl, rfl⟩ := h'
    exact ⟨lastHop final field, List.getLast?_concat, List.getLast?_concat, rfl⟩
  | none =>
    cases hi : final.includedPath? member with
    | none => simp [hf, hi] at h
    | some included =>
      simp only [hf, hi] at h h'
      split_ifs at h h'
      obtain ⟨found, hinner, hhops⟩ := map_eq_ok_iff.1 h
      obtain ⟨found', hinner', hhops'⟩ := map_eq_ok_iff.1 h'
      obtain rfl : found = found' := Except.ok.inj (hinner.symm.trans hinner')
      obtain ⟨last, hlast⟩ := exists_lastHop_of_follow hinner
      obtain ⟨rfl, rfl⟩ := Prod.mk.inj hhops
      obtain ⟨rfl, rfl⟩ := Prod.mk.inj hhops'
      exact ⟨last, by simp [hlast], by simp [hlast], rfl⟩

/-! ## Re-exported paths -/

theorem follow_of_mem_includes {kind : MemberKind} (he : r.entity? name = some e)
    (hpath : path ∈ e.includes)
    (ha : r.approach rules start path' = .ok (before, e, (Path.ofText path).member))
    (h : r.follow rules r.reexports [] start path' = .ok (hops, kind)) :
    ∃ inner, hops = before ++ inner ∧
      r.follow rules (strike (name, (Path.ofText path).member) r.reexports)
        [(name, (Path.ofText path).member)] name path = .ok (inner, kind) := by
  obtain ⟨hfield, hincluded⟩ := Entity.find_of_mem_includes (nodup_memberNames he) hpath
  obtain rfl := entity?_name he
  rw [follow_of_approach ha] at h
  simp only [hfield, hincluded] at h
  split_ifs at h
  obtain ⟨found, hinner, hhops⟩ := map_eq_ok_iff.1 h
  obtain ⟨rfl, rfl⟩ := Prod.mk.inj hhops
  exact ⟨found.1, rfl, hinner⟩

theorem eq_of_approach_dotFree (he : r.entity? name = some e) (hdot : DotFree path)
    (ha : r.approach rules name path = .ok (before, final, member)) :
    final = e ∧ member = (Path.ofText path).member := by
  have hfinal := entity?_of_approach ha
  rw [Path.ofText_of_dotFree hdot, List.getLastD_nil, he] at hfinal
  exact ⟨(Option.some.inj hfinal).symm, (walk_of_approach ha).1⟩

/-- The path of a re-exported member, followed for that member, has a dot: without one it would ask
for the member again. -/
theorem not_dotFree_of_follow {found : List Hop × MemberKind} (he : r.entity? name = some e)
    (hpath : path ∈ e.includes) (hkey : (name, (Path.ofText path).member) ∉ pending)
    (h : r.follow rules pending through name path = .ok found) : ¬ DotFree path := by
  intro hdot
  obtain ⟨before, final, member, ha, -⟩ := follow_ok h
  obtain ⟨rfl, rfl⟩ := eq_of_approach_dotFree he hdot ha
  obtain ⟨hfield, hincluded⟩ := Entity.find_of_mem_includes (nodup_memberNames he) hpath
  obtain rfl := entity?_name he
  rw [follow_of_approach ha] at h
  simp [hfield, hincluded, hkey] at h

theorem not_dotFree_of_resolve {ref : Reference} (he : r.entity? name = some e)
    (hpath : path ∈ e.includes) (h : r.resolve rules name path = .ok ref) : ¬ DotFree path := by
  intro hdot
  obtain ⟨-, -, hfollow⟩ := resolve_ok h
  obtain ⟨before, final, member, ha, -⟩ := follow_ok hfollow
  obtain ⟨rfl, rfl⟩ := eq_of_approach_dotFree he hdot ha
  obtain ⟨inner, -, hinner⟩ := follow_of_mem_includes he hpath ha hfollow
  exact not_dotFree_of_follow he hpath (by simp [mem_strike]) hinner hdot

/-- Replacing the first segment of a re-exported path by the name of the entity that re-exports it
does not change where the path ends. -/
theorem sameEnd_of_ownRoot {root rest : String} {ref ref' : Reference}
    (he : r.entity? name = some e) (hpath : Path.qualified root rest ∈ e.includes)
    (hroot : DotFree root) (hname : DotFree name)
    (h : r.resolve rules name (Path.qualified root rest) = .ok ref)
    (h' : r.resolve rules name (Path.qualified name rest) = .ok ref') : ref.SameEnd ref' := by
  obtain ⟨-, -, hfollow⟩ := resolve_ok h
  obtain ⟨-, -, hfollow'⟩ := resolve_ok h'
  obtain ⟨before, final, member, ha, -⟩ := follow_ok hfollow
  obtain ⟨before', final', member', ha', -⟩ := follow_ok hfollow'
  have hfinal := entity?_of_approach ha
  have hfinal' := entity?_of_approach ha'
  obtain ⟨hmember, -⟩ := walk_of_approach ha
  obtain ⟨hmember', -⟩ := walk_of_approach ha'
  rw [Path.ofText_qualified hroot] at hfinal hmember
  rw [Path.ofText_qualified hname] at hfinal' hmember'
  cases hentities : (Path.ofText rest).entities with
  | cons first more =>
    -- Both paths have the same last entity.
    rw [hentities] at hfinal hfinal'
    obtain rfl : final = final' := Option.some.inj (hfinal.symm.trans hfinal')
    obtain rfl : member = member' := hmember.trans hmember'.symm
    obtain ⟨last, hlast, hlast', hkind⟩ := lastHop_of_approach ha ha' hfollow hfollow'
    exact Reference.sameEnd_of_getLast? hlast hlast' hkind
  | nil =>
    -- The second path stays at the entity, and goes on from there with the first.
    rw [hentities] at hfinal'
    obtain rfl : e = final' := Option.some.inj (he.symm.trans hfinal')
    have hsame : member' = (Path.ofText (Path.qualified root rest)).member := by
      rw [hmember', Path.ofText_qualified hroot]
    subst hsame
    obtain ⟨inner, hhops, hinner⟩ := follow_of_mem_includes he hpath ha' hfollow'
    have hagain : r.follow rules r.reexports [] name (Path.qualified root rest) = .ok _ :=
      (PartOf.refl r).follow_ok (fun k hk => (mem_strike.1 hk).1) hinner
    obtain ⟨hsameHops, hkind⟩ := Prod.mk.inj (Except.ok.inj (hfollow.symm.trans hagain))
    obtain ⟨last, hlast⟩ := exists_lastHop_of_follow hinner
    have hlast' : ref'.hops.getLast? = some last := by
      rw [hhops, List.getLast?_append, hlast, Option.some_or]
    exact Reference.sameEnd_of_getLast? (hsameHops ▸ hlast) hlast' hkind

end Registry

end MetricLayer
