import MetricLayer.Proofs.Reference.Composition
import MetricLayer.Proofs.Reference.Nesting

/-!
# Re-exported members are transparent

Asked for a member that it re-exports, an entity answers as it does for the path behind that member
(`resolve_reexported`). Following the member strikes it out before the path is followed, while
following the path itself strikes out nothing: this makes no difference, for a path that is followed
to a field does not come to the member again (`not_comesTo_of_resolve`), and a member that following
never comes to need not be pending (`follow_strike`).
-/

namespace MetricLayer

open Relation Schema

theorem strike_comm {α : Type} [DecidableEq α] (x y : α) (xs : List α) :
    strike x (strike y xs) = strike y (strike x xs) := by
  unfold strike
  rw [List.filter_filter, List.filter_filter]
  exact List.filter_congr fun _ _ => Bool.and_comm _ _

namespace Registry

variable {r : Registry} {rules : WalkRules} {pending through : List (String × String)}
  {start path name member : String} {e : Entity} {m : String × String}

/-- Following a path needs no member that it does not come to. The induction is on the members that
are pending. -/
theorem follow_strike {found : List Hop × MemberKind}
    (h : r.follow rules pending through start path = .ok found)
    (hm : ¬ r.ComesTo rules start path m) (through' : List (String × String)) :
    r.follow rules (strike m pending) through' start path = .ok found := by
  induction hn : pending.length using Nat.strongRecOn
    generalizing pending through through' start path found with
  | ind n ih =>
    obtain ⟨hops, kind⟩ := found
    obtain ⟨before, final, member, ha, hend⟩ := follow_ok h
    rw [follow_of_approach ha]
    rcases hend with ⟨field, hfield, rfl, rfl⟩ | ⟨included, inner, hincluded, hkey, hinner, rfl⟩
    · simp only [hfield]
    · have hfield :=
        Entity.field?_of_includedPath? (nodup_memberNames (approach_ok ha).1) hincluded
      have hother : (final.name, member) ≠ m := fun heq => hm (heq ▸ .first ha)
      have hinner' : r.follow rules (strike (final.name, member) (strike m pending))
          (through' ++ [(final.name, member)]) final.name included = .ok (inner, kind) := by
        rw [strike_comm]
        exact ih _ (hn ▸ length_strike_lt hkey) hinner
          (fun hinside => hm (.of_included ha hfield hincluded hinside)) _ rfl
      simp only [hfield, hincluded, mem_strike.2 ⟨hkey, hother⟩, if_true, hinner', Except.map]

/-- The path of a re-exported member, if it resolves, does not come to that member again: the member
would lead back to itself. -/
theorem not_comesTo_of_resolve {ref : Reference} (he : r.entity? name = some e)
    (hpath : path ∈ e.includes) (h : r.resolve rules name path = .ok ref) :
    ¬ r.ComesTo rules name path (name, (Path.ofText path).member) := by
  intro hm
  obtain ⟨before, final, member, ha⟩ := hm.exists_approach
  obtain ⟨hfield, hincluded⟩ := Entity.find_of_mem_includes (nodup_memberNames he) hpath
  have hstep : r.Reexports rules (name, (Path.ofText path).member) (final.name, member) :=
    ⟨e, path, before, final, he, hfield, hincluded, ha, rfl⟩
  obtain ⟨n, -, hends⟩ := endsAfter_resolve r rules name path
  obtain ⟨c, hc⟩ := ((hends n _).2 ⟨rfl, rfl⟩).of_revisit hm
    (TransGen.head' hstep (hm.reflTransGen ha))
  rw [h] at hc
  cases hc

theorem approach_single (he : r.entity? name = some e) (hdot : DotFree member)
    (hadmits : rules.Admits ⟨[], member⟩) :
    r.approach rules name member = .ok ([], e, member) := by
  have hmember := Path.ofText_of_dotFree hdot
  exact approach_eq_ok_iff.2 ⟨hmember ▸ hadmits, by rw [hmember], e, he, by rw [hmember]; rfl⟩

theorem resolve_member_of_resolve {ref : Reference} (he : r.entity? name = some e)
    (hpath : path ∈ e.includes) (h : r.resolve rules name path = .ok ref) :
    r.resolve rules name (Path.ofText path).member =
      .ok ⟨name, (Path.ofText path).member, ref.hops, ref.member⟩ := by
  obtain ⟨-, -, hfollow⟩ := resolve_ok h
  obtain ⟨before, final, member, ha, -⟩ := follow_ok hfollow
  have hadmits := (approach_eq_ok_iff.1 ha).1
  have hstart := approach_single he (Path.dotFree_member path)
    (hadmits.of_sublist (List.sublist_append_right _ _))
  obtain rfl := entity?_name he
  obtain ⟨hfield, hincluded⟩ := Entity.find_of_mem_includes (nodup_memberNames he) hpath
  have hinner := follow_strike hfollow (not_comesTo_of_resolve he hpath h)
    [(e.name, (Path.ofText path).member)]
  rw [resolve, follow_of_approach hstart]
  simp only [hfield, hincluded, mem_reexports he hincluded, if_true, List.nil_append, hinner,
    Except.map]

theorem resolve_of_resolve_member {ref : Reference} (he : r.entity? name = some e)
    (hpath : path ∈ e.includes) (h : r.resolve rules name (Path.ofText path).member = .ok ref) :
    r.resolve rules name path = .ok ⟨name, path, ref.hops, ref.member⟩ := by
  obtain ⟨-, -, hfollow⟩ := resolve_ok h
  obtain ⟨before, final, member, ha, -⟩ := follow_ok hfollow
  have hadmits := (approach_eq_ok_iff.1 ha).1
  rw [Path.ofText_of_dotFree (Path.dotFree_member path)] at hadmits
  have hstart := approach_single he (Path.dotFree_member path) hadmits
  obtain ⟨inner, hhops, hinner⟩ := follow_of_mem_includes he hpath hstart hfollow
  have hagain : r.follow rules r.reexports [] name path = .ok _ :=
    (PartOf.refl r).follow_ok (fun k hk => (mem_strike.1 hk).1) hinner
  rw [resolve, hagain, hhops, List.nil_append]

/-- **Re-exports are transparent.** A member that an entity re-exports resolves there if and only if
its path does, and then both references have the same hops and end at the same field. -/
theorem resolve_reexported (rules : WalkRules) (he : r.entity? name = some e)
    (hpath : path ∈ e.includes) (hmember : (Path.ofText path).member = member) :
    ((∃ ref, r.resolve rules name member = .ok ref) ↔ ∃ ref, r.resolve rules name path = .ok ref) ∧
      ∀ ref ref', r.resolve rules name member = .ok ref → r.resolve rules name path = .ok ref' →
        ref.hops = ref'.hops ∧ ref.targetEntity = ref'.targetEntity ∧
          ref.fieldName = ref'.fieldName ∧ ref.member = ref'.member := by
  subst hmember
  refine ⟨⟨fun ⟨ref, h⟩ => ⟨_, resolve_of_resolve_member he hpath h⟩,
    fun ⟨ref, h⟩ => ⟨_, resolve_member_of_resolve he hpath h⟩⟩, fun ref ref' h h' => ?_⟩
  obtain rfl := Except.ok.inj (h.symm.trans (resolve_member_of_resolve he hpath h'))
  have hstart := (resolve_ok h').1
  refine ⟨rfl, ?_, rfl, rfl⟩
  rw [Reference.targetEntity, Reference.targetEntity, hstart]

/-- The revenue of the shop is found as its path is, over the same hops. -/
theorem resolve_reexported_shop :
    ∃ ref ref', Shop.registry.resolve {} "shop" "revenue" = .ok ref ∧
      Shop.registry.resolve {} "shop" "users.orders.revenue" = .ok ref' ∧
      ref.hops = ref'.hops ∧ ref.targetEntity = ref'.targetEntity ∧
      ref.fieldName = ref'.fieldName ∧ ref.member = ref'.member := by
  have he : Shop.registry.entity? "shop" = some Shop.view.withInclusions := by decide +kernel
  obtain ⟨hiff, hsame⟩ := resolve_reexported {} he
    (by decide : "users.orders.revenue" ∈ Shop.view.withInclusions.includes)
    (by decide +kernel : _ = "revenue")
  obtain ⟨ref', href'⟩ := Option.isSome_iff_exists.1 (by decide +kernel :
    (Shop.registry.resolve {} "shop" "users.orders.revenue").toOption.isSome = true)
  have h' := toOption_eq_some_iff.1 href'
  obtain ⟨ref, h⟩ := hiff.2 ⟨ref', h'⟩
  exact ⟨ref, ref', h, h', hsame ref ref' h h'⟩

end Registry

end MetricLayer
