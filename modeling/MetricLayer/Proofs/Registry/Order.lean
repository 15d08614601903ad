import MetricLayer.Proofs.Digraph.Order
import MetricLayer.Proofs.Reference.Following
import MetricLayer.Proofs.Registry.IncludeCycles
import Mathlib.Data.List.Perm.Basic

/-!
# The order of registration

Entities can be registered if their names are different and so are the names of the members of each,
in whatever order they come (`ofEntities_perm`). Two registries of the same entities then answer
every lookup alike, and as following a path asks for nothing else, every path resolves alike
(`SameEntities.resolve_eq`). Their include graphs differ in the order of the nodes alone, and so do
the cycles found in them in theirs (`SameEntities.includeCycles_perm`).
-/

namespace MetricLayer

open Schema

theorem mem_strike_congr {α : Type} [DecidableEq α] {x : α} {xs ys : List α}
    (h : ∀ k, k ∈ xs ↔ k ∈ ys) (k : α) : k ∈ strike x xs ↔ k ∈ strike x ys := by
  rw [mem_strike, mem_strike, h]

namespace Registry

variable {r r' : Registry} {e : Entity} {es es' : List Entity}

/-- Two registries hold the same entities, in whatever order. -/
def SameEntities (r r' : Registry) : Prop := r.entities.Perm r'.entities

/-! ## Registering -/

theorem firstRepeat?_eq_none_of_nodup {seen names : List String} (hnodup : names.Nodup)
    (hseen : ∀ name ∈ names, name ∉ seen) : firstRepeat? seen names = none := by
  induction names generalizing seen with
  | nil => rfl
  | cons name rest ih =>
    obtain ⟨hname, hrest⟩ := List.nodup_cons.1 hnodup
    rw [firstRepeat?, if_neg (hseen name (by simp))]
    refine ih hrest fun x hx hmem => ?_
    rcases List.mem_cons.1 hmem with rfl | hmem
    · exact hname hx
    · exact hseen x (List.mem_cons_of_mem _ hx) hmem

theorem register_ok (h : r.register e = .ok r') :
    e.name ∉ r.names ∧ e.memberNames.Nodup ∧ r'.entities = r.entities ++ [e.withInclusions] := by
  unfold register at h
  split_ifs at h with hname
  split at h
  · simp at h
  · next hmembers =>
    cases h
    exact ⟨hname, (firstRepeat?_eq_none hmembers).1, rfl⟩

theorem exists_register (hname : e.name ∉ r.names) (hmembers : e.memberNames.Nodup) :
    ∃ r', r.register e = .ok r' := by
  unfold register
  rw [dif_neg hname]
  split
  · next name hrepeat =>
    rw [firstRepeat?_eq_none_of_nodup hmembers (by simp)] at hrepeat
    cases hrepeat
  · exact ⟨_, rfl⟩

theorem names_register (h : r.register e = .ok r') : r'.names = r.names ++ [e.name] := by
  simp [names, (register_ok h).2.2]

theorem registerAll_ok (h : r.registerAll es = .ok r') :
    (r.names ++ es.map Entity.name).Nodup ∧ (∀ e ∈ es, e.memberNames.Nodup) ∧
      r'.entities = r.entities ++ es.map Entity.withInclusions := by
  induction es generalizing r with
  | nil =>
    cases h
    exact ⟨by simpa [names] using r'.names_nodup, by simp, by simp⟩
  | cons e es ih =>
    rw [registerAll] at h
    cases hr : r.register e with
    | error f => simp [hr] at h
    | ok next =>
      rw [hr] at h
      obtain ⟨-, hmembers, hentities⟩ := register_ok hr
      obtain ⟨hnames, hall, hrest⟩ := ih h
      rw [names_register hr] at hnames
      refine ⟨by simpa using hnames, List.forall_mem_cons.2 ⟨hmembers, hall⟩, ?_⟩
      simp [hrest, hentities]

theorem exists_registerAll (hnames : (r.names ++ es.map Entity.name).Nodup)
    (hmembers : ∀ e ∈ es, e.memberNames.Nodup) : ∃ r', r.registerAll es = .ok r' := by
  induction es generalizing r with
  | nil => exact ⟨r, rfl⟩
  | cons e es ih =>
    obtain ⟨hself, hrest⟩ := List.forall_mem_cons.1 hmembers
    have hname : e.name ∉ r.names := fun h =>
      (List.nodup_append.1 hnames).2.2 _ h _ (by simp) rfl
    obtain ⟨next, hnext⟩ := exists_register hname hself
    rw [registerAll, hnext]
    exact ih (by simpa [names_register hnext] using hnames) hrest

/-- Entities that can be registered can be registered in every order. -/
theorem ofEntities_perm (hperm : es.Perm es') (h : ofEntities es = .ok r) :
    ∃ r', ofEntities es' = .ok r' ∧ r.SameEntities r' := by
  obtain ⟨hnames, hmembers, hentities⟩ := registerAll_ok h
  have hnames' : (empty.names ++ es'.map Entity.name).Nodup :=
    (((hperm.map _).append_left _).nodup_iff).1 hnames
  obtain ⟨r', hr'⟩ := exists_registerAll hnames' fun e he => hmembers e (hperm.mem_iff.2 he)
  refine ⟨r', hr', ?_⟩
  rw [SameEntities, hentities, (registerAll_ok hr').2.2]
  exact (hperm.map _).append_left _

/-! ## Lookups -/

namespace SameEntities

theorem entity?_eq (h : r.SameEntities r') : r.entity? = r'.entity? := by
  funext name
  refine Option.ext fun e => ?_
  rw [entity?_eq_some_iff, entity?_eq_some_iff, h.mem_iff]

theorem contains_eq (h : r.SameEntities r') : r.contains = r'.contains := by
  funext name
  rw [contains, contains, h.entity?_eq]

theorem lookup_eq (h : r.SameEntities r') : r.lookup = r'.lookup := by
  funext name
  rw [lookup, lookup, h.entity?_eq]

theorem field_eq (h : r.SameEntities r') : r.field = r'.field := by
  funext entity name
  rw [field, field, h.lookup_eq]

theorem ambiguousJoins_eq (h : r.SameEntities r') : r.ambiguousJoins = r'.ambiguousJoins := by
  funext name
  rw [ambiguousJoins, ambiguousJoins, h.entity?_eq]

theorem mem_reexports (h : r.SameEntities r') (member : String × String) :
    member ∈ r.reexports ↔ member ∈ r'.reexports :=
  (List.Perm.flatMap_right _ h).mem_iff

/-! ## Following a path -/

variable {rules : WalkRules} {pending pending' through : List (String × String)}
  {start path : String}

theorem step_eq (h : r.SameEntities r') (place : Nat) (current : Entity) (segment : String) :
    r.step rules path place current segment = r'.step rules path place current segment := by
  rw [step, step, h.entity?_eq]

theorem walkThrough_eq (h : r.SameEntities r') (place : Nat) (current : Entity)
    (segments : List String) :
    r.walkThrough rules path place current segments =
      r'.walkThrough rules path place current segments := by
  induction segments generalizing place current with
  | nil => rfl
  | cons segment rest ih => simp only [walkThrough, h.step_eq, ih]

theorem approach_eq (h : r.SameEntities r') :
    r.approach rules start path = r'.approach rules start path := by
  have hwalk : ∀ e segments, r.walk rules path e segments = r'.walk rules path e segments := by
    intro e segments
    cases segments with
    | nil => rfl
    | cons first rest => simp only [walk, h.walkThrough_eq]
  simp only [approach, h.lookup_eq, hwalk]

/-- A path is followed alike if the same members are pending. The induction is on their number. -/
theorem follow_eq (h : r.SameEntities r') (hpending : ∀ k, k ∈ pending ↔ k ∈ pending') :
    r.follow rules pending through start path = r'.follow rules pending' through start path := by
  induction hn : pending.length using Nat.strongRecOn
    generalizing pending pending' through start path with
  | ind n ih =>
    cases ha : r.approach rules start path with
    | error f =>
      rw [follow_of_approach_error ha, follow_of_approach_error (h.approach_eq ▸ ha)]
    | ok reached =>
      obtain ⟨hops, final, member⟩ := reached
      rw [follow_of_approach ha, follow_of_approach (h.approach_eq ▸ ha)]
      cases final.field? member with
      | some field => rfl
      | none =>
        cases final.includedPath? member with
        | none => rfl
        | some included =>
          by_cases hkey : (final.name, member) ∈ pending
          · simp only [hkey, (hpending _).1 hkey, if_true]
            rw [ih _ (hn ▸ length_strike_lt hkey) (mem_strike_congr hpending) rfl]
          · simp only [hkey, mt (hpending _).2 hkey, if_false]

theorem resolve_eq (h : r.SameEntities r') : r.resolve = r'.resolve := by
  funext rules start path
  rw [resolve, resolve, h.follow_eq h.mem_reexports]

/-! ## Cycles of inclusions -/

theorem includeTargets_eq (h : r.SameEntities r') : r.includeTargets = r'.includeTargets := by
  funext e
  rw [includeTargets, includeTargets, h.contains_eq]

theorem reorders_includeGraph (h : r.SameEntities r') :
    r.includeGraph.Reorders r'.includeGraph where
  nodes := h.map Entity.name
  next := by
    funext a
    rw [next_includeGraph, next_includeGraph, h.entity?_eq, h.includeTargets_eq]

theorem includeCycles_perm (h : r.SameEntities r') (entity : String) :
    (r.includeCycles entity).Perm (r'.includeCycles entity) := by
  unfold includeCycles
  rw [h.contains_eq]
  split
  · refine h.reorders_includeGraph.cyclesFrom_perm decide_le_trans decide_le_total ?_
      (isClosed_includeGraph r) entity
    exact fun a b hab hba => le_antisymm (of_decide_eq_true hab) (of_decide_eq_true hba)
  · exact .nil

end SameEntities

end Registry

end MetricLayer
