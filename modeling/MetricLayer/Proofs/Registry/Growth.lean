import MetricLayer.Proofs.Reference.Locality
import MetricLayer.Proofs.Registry.Order

/-!
# Registering more entities

What is registered first can be registered without what comes after it, and all of it is found again
in the larger registry (`ofEntities_append`). Following a path asks only for the entities on its
way, so a path that resolves goes on to resolve to the same reference (`PartOf.resolve_ok`): an
entity that is new ends no walk that succeeds, nor does it come in the way of one.
-/

namespace MetricLayer

open Schema

theorem strike_subset_strike {α : Type} [DecidableEq α] {x : α} {xs ys : List α} (h : xs ⊆ ys) :
    strike x xs ⊆ strike x ys := fun k hk =>
  mem_strike_of_mem (p := fun _ => True) (fun _ hmem _ => h hmem) k hk trivial

namespace Registry

variable {r r' : Registry} {rules : WalkRules} {e : Entity} {es es' : List Entity}
  {name start path : String}

/-- Every entity of a registry is an entity of another. -/
def PartOf (r r' : Registry) : Prop := r.entities ⊆ r'.entities

theorem PartOf.refl (r : Registry) : r.PartOf r := List.Subset.refl _

/-- Where a list of entities can be registered, so can each of its beginnings. -/
theorem ofEntities_append (h : ofEntities (es ++ es') = .ok r') :
    ∃ r, ofEntities es = .ok r ∧ r.PartOf r' := by
  obtain ⟨hnames, hmembers, hentities⟩ := registerAll_ok h
  rw [List.map_append, ← List.append_assoc] at hnames
  obtain ⟨r, hr⟩ := exists_registerAll (List.nodup_append.1 hnames).1
    fun e he => hmembers e (List.mem_append_left _ he)
  refine ⟨r, hr, ?_⟩
  rw [PartOf, hentities, (registerAll_ok hr).2.2, List.map_append, ← List.append_assoc]
  exact List.subset_append_left _ _

namespace PartOf

/-! ## Lookups -/

theorem entity? (h : r.PartOf r') (he : r.entity? name = some e) : r'.entity? name = some e := by
  obtain ⟨hmem, hname⟩ := entity?_eq_some_iff.1 he
  exact entity?_eq_some_iff.2 ⟨h hmem, hname⟩

theorem field_ok (h : r.PartOf r') {entity : String} {field : Field}
    (hfield : r.field entity name = .ok field) : r'.field entity name = .ok field := by
  obtain ⟨e, he, hname⟩ := field_eq_ok_iff.1 hfield
  exact field_eq_ok_iff.2 ⟨e, h.entity? he, hname⟩

theorem measureAt? (h : r.PartOf r') {entity : String} {m : Measure}
    (hm : r.measureAt? entity name = some m) : r'.measureAt? entity name = some m := by
  obtain ⟨e, he, hname⟩ := measureAt?_eq_some_iff.1 hm
  exact measureAt?_eq_some_iff.2 ⟨e, h.entity? he, hname⟩

/-! ## Following a path -/

theorem keptIn (h : r.PartOf r') : r.KeptIn r' Set.univ := fun _ _ _ => h.entity?

/-- A path that is followed to a field is followed to it where more members are pending. -/
theorem follow_ok (h : r.PartOf r') {pending pending' through through' : List (String × String)}
    (hpending : pending ⊆ pending') {found : List Hop × MemberKind}
    (hf : r.follow rules pending through start path = .ok found) :
    r'.follow rules pending' through' start path = .ok found :=
  h.keptIn.follow_ok (fun _ hk _ => hpending hk) hf trivial fun _ _ => trivial

theorem resolve_ok (h : r.PartOf r') {ref : Reference}
    (hres : r.resolve rules start path = .ok ref) : r'.resolve rules start path = .ok ref :=
  h.keptIn.resolve_ok hres fun _ _ => trivial

end PartOf

end Registry

end MetricLayer
