import MetricLayer.Proofs.Reference.Ends
import MetricLayer.Proofs.Reference.Obstacle
import Mathlib.Algebra.GroupWithZero.Nat

/-!
# The number of hops

A resolved path has a hop for each of its segments before the last, and so has the path of each
re-exported member that is followed from its end; the field at the very end is one hop more
(`hopCount_of_resolve`). Which paths are followed is told by the segments alone (`GoesThrough`), in
one way only. The path of a member that is followed has at least two segments, for one alone would
ask for the member again: so a path that ends at a re-exported member has more hops than segments.
-/

namespace MetricLayer

open Schema

namespace Registry

/-- The paths that following one goes on with, one after another, down to a path that ends at an own
field; each with the entity that it is followed from. -/
inductive GoesThrough (r : Registry) (rules : WalkRules) :
    String × String → List (String × String) → Prop
  | own {a : String × String} {final : Entity} :
      r.SegmentsLead rules a.1 (Path.ofText a.2).entities final →
      (Path.ofText a.2).member ∈ final.fieldNames → GoesThrough r rules a []
  | reexported {a b : String × String} {others : List (String × String)} :
      r.GoesOn rules a b → GoesThrough r rules b others → GoesThrough r rules a (b :: others)

variable {r : Registry} {rules : WalkRules} {start path : String}
  {pending through others others' : List (String × String)} {final final' : Entity}
  {a b b' : String × String}

/-! ## Paths go on in one way -/

theorem Visits.unique {e : Entity} {names : List String} (h : r.Visits rules e names final)
    (h' : r.Visits rules e names final') : final' = final := by
  induction h with
  | nil => cases h'; rfl
  | cons hnext _ _ ih =>
    cases h' with
    | cons hnext' _ hrest =>
      obtain rfl := Option.some.inj (hnext.symm.trans hnext')
      exact ih hrest

theorem SegmentsLead.unique {segments : List String}
    (h : r.SegmentsLead rules start segments final)
    (h' : r.SegmentsLead rules start segments final') : final' = final := by
  obtain ⟨e, he, hvisits⟩ := h
  obtain ⟨e', he', hvisits'⟩ := h'
  obtain rfl := Option.some.inj (he.symm.trans he')
  exact hvisits.unique hvisits'

theorem GoesOn.unique (h : r.GoesOn rules a b) (h' : r.GoesOn rules a b') : b' = b := by
  obtain ⟨final, hlead, hname, -, hpath, hmember⟩ := h
  obtain ⟨final', hlead', hname', -, hpath', hmember'⟩ := h'
  obtain rfl := hlead.unique hlead'
  have hnodup := nodup_memberNames hlead.registered
  have hfound := (Entity.find_of_mem_includes hnodup hpath).2
  have hfound' := (Entity.find_of_mem_includes hnodup hpath').2
  rw [hmember] at hfound
  rw [hmember', hfound] at hfound'
  exact Prod.ext (hname'.trans hname.symm) (Option.some.inj hfound').symm

theorem GoesThrough.unique (h : r.GoesThrough rules a others)
    (h' : r.GoesThrough rules a others') : others' = others := by
  induction h generalizing others' with
  | own hlead hown =>
    cases h' with
    | own => rfl
    | reexported hgoes _ =>
      obtain ⟨final', hlead', -, hother, -⟩ := hgoes
      obtain rfl := hlead.unique hlead'
      exact absurd hown hother
  | reexported hgoes _ ih =>
    cases h' with
    | own hlead' hown =>
      obtain ⟨final, hlead, -, hother, -⟩ := hgoes
      obtain rfl := hlead'.unique hlead
      exact absurd hown hother
    | reexported hgoes' hrest =>
      obtain rfl := hgoes.unique hgoes'
      rw [ih hrest]

/-! ## Hops along the paths -/

theorem length_of_approach {before : List Hop} {member : String}
    (h : r.approach rules start path = .ok (before, final, member)) :
    before.length = (Path.ofText path).entities.length := by
  rw [← entities_of_approach h, List.length_map]

/-- Following a path to a field goes through paths of two or more segments each, and makes a hop for
each segment before their last. The induction is on the members that are pending. -/
theorem exists_goesThrough_of_follow {hops : List Hop} {kind : MemberKind}
    (h : r.follow rules pending through start path = .ok (hops, kind)) :
    ∃ others, r.GoesThrough rules (start, path) others ∧
      (∀ p ∈ others, (Path.ofText p.2).entities ≠ []) ∧
      hops.length =
        1 + (((start, path) :: others).map fun p => (Path.ofText p.2).entities.length).sum := by
  induction hn : pending.length using Nat.strongRecOn
    generalizing pending through start path hops with
  | ind n ih =>
    obtain ⟨before, final, member, ha, hend⟩ := follow_ok h
    have hlead := segmentsLead_of_approach ha
    have hbefore := length_of_approach ha
    obtain ⟨rfl, -⟩ := walk_of_approach ha
    rcases hend with ⟨field, hfield, rfl, -⟩ | ⟨included, inner, hincluded, hkey, hinner, rfl⟩
    · refine ⟨[], .own hlead (Entity.mem_fieldNames_of_field? hfield), by simp, ?_⟩
      simp [hbefore, Nat.add_comm]
    · obtain ⟨hpath, hname⟩ := Entity.mem_of_includedPath? hincluded
      have hother := Entity.field?_eq_none_iff.1
        (Entity.field?_of_includedPath? (nodup_memberNames hlead.registered) hincluded)
      obtain ⟨others, hothers, hdots, hcount⟩ := ih _ (hn ▸ length_strike_lt hkey) hinner rfl
      have hdot : ¬ DotFree included :=
        not_dotFree_of_follow hlead.registered hpath (by simp [hname, mem_strike]) hinner
      refine ⟨(final.name, included) :: others,
        .reexported ⟨final, hlead, rfl, hother, hpath, hname⟩ hothers,
        List.forall_mem_cons.2 ⟨Path.entities_ne_nil_of_not_dotFree hdot, hdots⟩, ?_⟩
      simp only [List.map_cons, List.sum_cons] at hcount ⊢
      rw [List.length_append, hbefore, hcount]
      omega

/-! ## Hops and segments -/

/-- **Hop counts.** The paths that resolving goes through are told by the segments in one way, and
the number of hops is one more than the sum of their segments before the last. A path has as many
hops as segments if and only if it ends at an own field of the entity that it leads to, and more if
it ends at a re-exported member. -/
theorem hopCount_of_resolve {ref : Reference} (h : r.resolve rules start path = .ok ref) :
    (∃ others, r.GoesThrough rules (start, path) others ∧
      (∀ others', r.GoesThrough rules (start, path) others' → others' = others) ∧
      ref.hopCount =
        1 + (((start, path) :: others).map fun p => (Path.ofText p.2).segments.length - 1).sum) ∧
    ∃ final, r.SegmentsLead rules start (Path.ofText path).entities final ∧
      (ref.hopCount = (Path.ofText path).segments.length ↔
        (Path.ofText path).member ∈ final.fieldNames) ∧
      ((Path.ofText path).member ∈ final.reexportedNames →
        (Path.ofText path).segments.length < ref.hopCount) := by
  obtain ⟨-, -, hfollow⟩ := resolve_ok h
  obtain ⟨others, hothers, hdots, hcount⟩ := exists_goesThrough_of_follow hfollow
  rw [← Reference.hopCount] at hcount
  refine ⟨⟨others, hothers, fun _ => hothers.unique, ?_⟩, ?_⟩
  · simpa only [Path.length_segments, Nat.add_sub_cancel] using hcount
  · rw [Path.length_segments]
    cases hothers with
    | own hlead hown =>
      have hapart := (List.nodup_append.1 (nodup_memberNames hlead.registered)).2.2
      refine ⟨_, hlead, iff_of_true ?_ hown, fun hother => absurd rfl (hapart _ hown _ hother)⟩
      simpa [Nat.add_comm] using hcount
    | reexported hgoes hrest =>
      obtain ⟨final, hlead, -, hother, -⟩ := hgoes
      have hmore := List.length_pos_iff.2 (hdots _ List.mem_cons_self)
      simp only [List.map_cons, List.sum_cons] at hcount
      exact ⟨final, hlead, iff_of_false (by omega) hother, fun _ => by omega⟩

end Registry

namespace Shop

/-- The shop with a view over its view. -/
def worldRegistry : Registry :=
  registryOf [users, orders, view, { name := "world", kind := .view, includes := ["shop.revenue"] }]

end Shop

/-- The revenue of the world is followed through the path of the shop's, which makes four hops for
its one segment. -/
theorem Registry.hopCount_of_resolve_world :
    let r := Shop.worldRegistry
    ∃ ref, r.resolve {} "world" "revenue" = .ok ref ∧ ref.hopCount = 4 ∧
      (∃ others, r.GoesThrough {} ("world", "revenue") others ∧
        ref.hopCount = 1 + ((("world", "revenue") :: others).map fun p =>
          (Path.ofText p.2).segments.length - 1).sum) ∧
      ∃ final, r.SegmentsLead {} "world" (Path.ofText "revenue").entities final ∧
        (Path.ofText "revenue").member ∉ final.fieldNames := by
  intro r
  have hfour : (r.resolve {} "world" "revenue").toOption.map Reference.hopCount = some 4 := by
    decide +kernel
  obtain ⟨ref, href, hcount⟩ := Option.map_eq_some_iff.1 hfour
  have h := toOption_eq_some_iff.1 href
  obtain ⟨⟨others, hothers, -, hsum⟩, final, hlead, hown, -⟩ := hopCount_of_resolve h
  refine ⟨ref, h, hcount, ⟨others, hothers, hsum⟩, final, hlead, fun hmem => ?_⟩
  have hone := hown.2 hmem
  rw [hcount] at hone
  exact absurd hone (by decide +kernel)

end MetricLayer
