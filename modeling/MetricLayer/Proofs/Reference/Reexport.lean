import MetricLayer.Proofs.Digraph.Circuit
import MetricLayer.Proofs.Reference.Walk

/-!
# Loops of re-exported members

A re-exported member leads to another if its own path ends at that one (`Reexports`). The only
cycles that resolving a path reports are circuits of this relation (`isReexportLoop_of_resolve`),
and following the path comes to each member of the circuit (`exists_loop_of_resolve`).
-/

namespace MetricLayer

open Schema

namespace Registry

/-- The path of a re-exported member ends at another member, given with its entity. -/
def Reexports (r : Registry) (rules : WalkRules) (a b : String × String) : Prop :=
  ∃ e included hops final, r.entity? a.1 = some e ∧ e.field? a.2 = none ∧
    e.includedPath? a.2 = some included ∧
    r.approach rules a.1 included = .ok (hops, final, b.2) ∧ final.name = b.1

/-- The texts of a circuit of re-exported members. -/
def IsReexportLoop (r : Registry) (rules : WalkRules) (c : List String) : Prop :=
  ∃ members, c = qualifiedNames members ∧ IsCircuit members ∧ members.IsChain (r.Reexports rules) ∧
    ∀ m ∈ members, DotFree m.2

/-- The members that following a path comes to, whatever was followed before: the one that the path
ends at, and each that the path of a re-exported one ends at. -/
inductive ComesTo (r : Registry) (rules : WalkRules) (start path : String) :
    String × String → Prop
  | first {hops : List Hop} {final : Entity} {member : String} :
      r.approach rules start path = .ok (hops, final, member) →
      ComesTo r rules start path (final.name, member)
  | next {a b : String × String} :
      ComesTo r rules start path a → r.Reexports rules a b → ComesTo r rules start path b

variable {r : Registry} {rules : WalkRules}

/-! ## Faults on the way to an entity -/

theorem walkThrough_error {path : String} {place : Nat} {current : Entity} {segments : List String}
    {f : Fault} (h : r.walkThrough rules path place current segments = .error f) :
    f.kind = .unknownEntity ∨ f.kind = .unreachableEntity := by
  induction segments generalizing place current with
  | nil => simp [walkThrough] at h
  | cons segment rest ih =>
    obtain hs | ⟨hop, next, -, hw⟩ := walkThrough_cons_eq_error_iff.1 h
    · unfold step at hs
      cases hn : r.entity? segment with
      | none => exact Or.inl (by simp [hn] at hs; simp [← hs, Fault.kind])
      | some next =>
        cases hc : crossing? rules current next with
        | none => exact Or.inr (by simp [hn, hc] at hs; simp [← hs, Fault.kind])
        | some c => simp [hn, hc] at hs
    · exact ih hw

theorem walk_error {path : String} {start : Entity} {segments : List String} {f : Fault}
    (h : r.walk rules path start segments = .error f) :
    f.kind = .unknownEntity ∨ f.kind = .unreachableEntity := by
  unfold walk at h
  split at h
  · next first rest =>
    split at h
    · cases hw : r.walkThrough rules path 1 start rest with
      | error g =>
        simp only [hw, Except.error.injEq] at h
        subst h
        exact walkThrough_error hw
      | ok walked => simp [hw] at h
    · exact walkThrough_error h
  · simp at h

/-- A path that leads to no entity is malformed, or names an entity that is unknown or out of
reach. -/
theorem approach_error {start path : String} {f : Fault}
    (h : r.approach rules start path = .error f) :
    f.kind = .invalidExpression ∨ f.kind = .unknownEntity ∨ f.kind = .unreachableEntity := by
  unfold approach at h
  cases hp : checkPath rules path with
  | error g =>
    simp only [hp, Except.error.injEq] at h
    subst h
    unfold checkPath at hp
    exact Or.inl (by grind [Fault.kind])
  | ok p =>
    cases he : r.lookup start with
    | error g =>
      simp only [hp, he, Except.error.injEq] at h
      subst h
      unfold lookup at he
      exact Or.inr (Or.inl (by grind [Fault.kind]))
    | ok e =>
      cases hw : r.walk rules path e p.entities with
      | error g =>
        simp only [hp, he, hw, Except.error.injEq] at h
        subst h
        exact Or.inr (walk_error hw)
      | ok walked => simp [hp, he, hw] at h

/-! ## The members that are being followed -/

/-- What is known while members are followed, before the next path is followed from a start: each
member leads to the next, the path is that of the last, and the others are still pending. -/
structure Following (r : Registry) (rules : WalkRules) (pending through : List (String × String))
    (start path : String) : Prop where
  chain : through.IsChain (r.Reexports rules)
  top : ∀ a ∈ through.getLast?, a.1 = start ∧ ∃ e, r.entity? start = some e ∧
    e.field? a.2 = none ∧ e.includedPath? a.2 = some path
  mem_pending : ∀ k ∈ r.reexports, k ∈ pending ∨ k ∈ through
  notMem_through : ∀ k ∈ pending, k ∉ through
  nodup : through.Nodup
  dotFree : ∀ k ∈ through, DotFree k.2

theorem following_nil {start path : String} :
    Following r rules r.reexports [] start path where
  chain := .nil
  top := by simp
  mem_pending _ hk := Or.inl hk
  notMem_through := by simp
  nodup := List.nodup_nil
  dotFree := by simp

theorem mem_reexports {e : Entity} {member included : String} (he : r.entity? e.name = some e)
    (hi : e.includedPath? member = some included) : (e.name, member) ∈ r.reexports := by
  obtain ⟨hmem, hname⟩ := Entity.mem_of_includedPath? hi
  refine List.mem_flatMap.2 ⟨e, (entity?_eq_some_iff.1 he).1, ?_⟩
  refine List.mem_map.2 ⟨member, ?_, rfl⟩
  exact hname ▸ List.mem_map_of_mem hmem

namespace Following

variable {pending through : List (String × String)} {start path member included : String}
  {before : List Hop} {final : Entity}

theorem isChain_concat (h : Following r rules pending through start path)
    (ha : r.approach rules start path = .ok (before, final, member)) :
    (through ++ [(final.name, member)]).IsChain (r.Reexports rules) := by
  refine h.chain.append (.singleton _) fun a hlast b hb => ?_
  obtain ⟨hstart, e, he, hf, hi⟩ := h.top a hlast
  cases Option.mem_some_iff.1 (by simpa using hb)
  subst hstart
  exact ⟨e, path, before, final, he, hf, hi, ha, rfl⟩

theorem push (h : Following r rules pending through start path)
    (ha : r.approach rules start path = .ok (before, final, member))
    (hf : final.field? member = none) (hi : final.includedPath? member = some included)
    (hk : (final.name, member) ∈ pending) :
    Following r rules (strike (final.name, member) pending) (through ++ [(final.name, member)])
      final.name included := by
  obtain ⟨hfinal, -, -, hmember, -⟩ := approach_ok ha
  refine ⟨h.isChain_concat ha, ?_, ?_, ?_, ?_, ?_⟩
  · intro a hlast
    obtain rfl : a = (final.name, member) := by simpa [eq_comm] using hlast
    exact ⟨rfl, final, hfinal, hf, hi⟩
  · intro k hkey
    by_cases hkk : k = (final.name, member)
    · exact Or.inr (by simp [hkk])
    · rcases h.mem_pending k hkey with hp | ht
      · exact Or.inl (mem_strike.2 ⟨hp, hkk⟩)
      · exact Or.inr (List.mem_append_left _ ht)
  · intro k hkey
    obtain ⟨hp, hne⟩ := mem_strike.1 hkey
    simpa [hne] using h.notMem_through k hp
  · have hfresh : (final.name, member) ∉ through := h.notMem_through _ hk
    simpa using h.nodup.concat hfresh
  · intro k hkey
    rcases List.mem_append.1 hkey with ht | hkey
    · exact h.dotFree k ht
    · obtain rfl := List.mem_singleton.1 hkey
      exact hmember ▸ Path.dotFree_member path

/-- A member met again while it is being followed closes a loop. -/
theorem loop (h : Following r rules pending through start path)
    (ha : r.approach rules start path = .ok (before, final, member))
    (hi : final.includedPath? member = some included) (hk : (final.name, member) ∉ pending) :
    IsCircuit (loopFrom (final.name, member) through) ∧
      (loopFrom (final.name, member) through).IsChain (r.Reexports rules) ∧
      ∀ m ∈ loopFrom (final.name, member) through, DotFree m.2 := by
  obtain ⟨hfinal, -, -, hmember, -⟩ := approach_ok ha
  have hthrough := (h.mem_pending _ (mem_reexports hfinal hi)).resolve_left hk
  refine ⟨isCircuit_loopFrom hthrough h.nodup, isChain_loopFrom (h.isChain_concat ha), ?_⟩
  intro m hm
  rcases mem_loopFrom hm with hm | rfl
  · exact h.dotFree m hm
  · exact hmember ▸ Path.dotFree_member path

theorem isReexportLoop (h : Following r rules pending through start path)
    (ha : r.approach rules start path = .ok (before, final, member))
    (hi : final.includedPath? member = some included) (hk : (final.name, member) ∉ pending) :
    r.IsReexportLoop rules (qualifiedNames (loopFrom (final.name, member) through)) :=
  ⟨_, rfl, h.loop ha hi hk⟩

end Following

theorem ComesTo.of_included {start path member included : String} {before : List Hop}
    {final : Entity} {m : String × String}
    (ha : r.approach rules start path = .ok (before, final, member))
    (hf : final.field? member = none) (hi : final.includedPath? member = some included)
    (h : r.ComesTo rules final.name included m) : r.ComesTo rules start path m := by
  induction h with
  | first hinner =>
    exact .next (.first ha)
      ⟨final, included, _, _, (approach_ok ha).1, hf, hi, hinner, rfl⟩
  | next _ hstep ih => exact .next ih hstep

/-- The cycles that following a path reports are loops of re-exported members, which it comes to if
they were not being followed before. -/
theorem exists_loop_of_follow {pending through : List (String × String)} {start path : String}
    {c : List String} (hinv : Following r rules pending through start path)
    (h : r.follow rules pending through start path = .error (.cyclicReference c)) :
    ∃ members, c = qualifiedNames members ∧ IsCircuit members ∧
      members.IsChain (r.Reexports rules) ∧ (∀ m ∈ members, DotFree m.2) ∧
      ∀ m ∈ members, m ∈ through ∨ r.ComesTo rules start path m := by
  induction hn : pending.length using Nat.strongRecOn generalizing pending through start path with
  | ind n ih =>
    rcases follow_error h with ha | ⟨before, final, member, ha, hf, hend⟩
    · rcases approach_error ha with hkind | hkind | hkind <;> simp [Fault.kind] at hkind
    · rcases hend with ⟨-, heq⟩ | ⟨included, hi, ⟨hk, hinner⟩ | ⟨hk, heq⟩⟩
      · simp at heq
      · obtain ⟨members, hc, hcircuit, hchain, hdot, hmet⟩ :=
          ih _ (hn ▸ length_strike_lt hk) (hinv.push ha hf hi hk) hinner rfl
        refine ⟨members, hc, hcircuit, hchain, hdot, fun m hm => ?_⟩
        rcases hmet m hm with hthrough | hinside
        · rcases List.mem_append.1 hthrough with hthrough | hself
          · exact Or.inl hthrough
          · exact Or.inr (List.mem_singleton.1 hself ▸ .first ha)
        · exact Or.inr (.of_included ha hf hi hinside)
      · cases heq
        obtain ⟨hcircuit, hchain, hdot⟩ := hinv.loop ha hi hk
        refine ⟨_, rfl, hcircuit, hchain, hdot, fun m hm => ?_⟩
        rcases mem_loopFrom hm with hthrough | rfl
        · exact Or.inl hthrough
        · exact Or.inr (.first ha)

theorem exists_loop_of_resolve {start path : String} {c : List String}
    (h : r.resolve rules start path = .error (.cyclicReference c)) :
    ∃ members, c = qualifiedNames members ∧ IsCircuit members ∧
      members.IsChain (r.Reexports rules) ∧ (∀ m ∈ members, DotFree m.2) ∧
      ∀ m ∈ members, r.ComesTo rules start path m := by
  obtain ⟨members, hc, hcircuit, hchain, hdot, hmet⟩ :=
    exists_loop_of_follow following_nil (resolve_error h)
  exact ⟨members, hc, hcircuit, hchain, hdot,
    fun m hm => (hmet m hm).resolve_left List.not_mem_nil⟩

theorem isReexportLoop_of_resolve {start path : String} {c : List String}
    (h : r.resolve rules start path = .error (.cyclicReference c)) : r.IsReexportLoop rules c := by
  obtain ⟨members, hc, hcircuit, hchain, hdot, -⟩ := exists_loop_of_resolve h
  exact ⟨members, hc, hcircuit, hchain, hdot⟩

theorem IsReexportLoop.isCircuit {c : List String} (h : r.IsReexportLoop rules c) :
    IsCircuit c := by
  obtain ⟨members, rfl, hcircuit, -, hdot⟩ := h
  refine hcircuit.map fun x hx y hy hxy => ?_
  exact Prod.ext_iff.2 ((Path.qualified_inj_of_member (hdot x hx) (hdot y hy)).1 hxy)

end Registry

end MetricLayer
