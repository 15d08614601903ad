import MetricLayer.Proofs.Reference.Reexport

/-!
# How deep re-exported paths nest

The path of a re-exported member may end at another re-exported member, whose path is then followed
inside it. `EndsAfter` says what following a path ends with and how many paths it nests; it knows of
the members that are being followed, and of no others. Each of them is followed once, so there are
at most as many nested paths as the registry has re-exported ones. If following comes to a member
for the second time it ends with the loop that the member lies on, and with nothing else
(`resolve_endsAfter`).
-/

namespace MetricLayer

open Relation Schema

namespace Registry

/-- What following a path ends with, while the members `through` are being followed, and after how
many nested paths of re-exported members. -/
inductive EndsAfter (r : Registry) (rules : WalkRules) :
    List (String × String) → String → String → Nat → Except Fault Reference → Prop
  /-- The path leads to no entity. -/
  | astray {through : List (String × String)} {start path : String} {f : Fault} :
      r.approach rules start path = .error f → EndsAfter r rules through start path 0 (.error f)
  /-- The path ends at an own field of the entity that it leads to. -/
  | field {through : List (String × String)} {start path member : String} {before : List Hop}
      {final : Entity} {field : Field} :
      r.approach rules start path = .ok (before, final, member) →
      final.field? member = some field →
      EndsAfter r rules through start path 0
        (.ok ⟨start, path, before ++ [lastHop final field], field.memberKind⟩)
  /-- The entity has no member of the name. -/
  | unknown {through : List (String × String)} {start path member : String} {before : List Hop}
      {final : Entity} :
      r.approach rules start path = .ok (before, final, member) →
      final.field? member = none → final.includedPath? member = none →
      EndsAfter r rules through start path 0 (.error (.unknownField final.name member))
  /-- The member is being followed already. -/
  | loop {through : List (String × String)} {start path member included : String}
      {before : List Hop} {final : Entity} :
      r.approach rules start path = .ok (before, final, member) →
      final.field? member = none → final.includedPath? member = some included →
      (final.name, member) ∈ through →
      EndsAfter r rules through start path 0
        (.error (.cyclicReference (qualifiedNames (loopFrom (final.name, member) through))))
  /-- The member is re-exported, and its path is followed inside this one. -/
  | nested {through : List (String × String)} {start path member included : String}
      {before : List Hop} {final : Entity} {n : Nat} {outcome : Except Fault Reference} :
      r.approach rules start path = .ok (before, final, member) →
      final.field? member = none → final.includedPath? member = some included →
      (final.name, member) ∉ through →
      EndsAfter r rules (through ++ [(final.name, member)]) final.name included n outcome →
      EndsAfter r rules through start path (n + 1)
        (outcome.map fun inner => ⟨start, path, before ++ inner.hops, inner.member⟩)

variable {r : Registry} {rules : WalkRules} {pending through : List (String × String)}
  {start path member included : String} {before : List Hop} {final : Entity}

theorem length_reexports (r : Registry) :
    r.reexports.length = (r.entities.flatMap Entity.includes).length := by
  simp [reexports, Entity.reexportedNames, List.length_flatMap]

/-! ## Following ends -/

/-- Following ends in one way only. The induction is on the nested paths. -/
theorem EndsAfter.unique {n n' : Nat} {outcome outcome' : Except Fault Reference}
    (h : r.EndsAfter rules through start path n outcome)
    (h' : r.EndsAfter rules through start path n' outcome') : n' = n ∧ outcome' = outcome := by
  induction h generalizing n' outcome' with
  | astray ha => cases h' <;> simp_all
  | field ha hf => cases h' <;> simp_all
  | unknown ha hf hi => cases h' <;> simp_all
  | loop ha hf hi hk => cases h' <;> simp_all
  | nested ha hf hi hk _ ih =>
    cases h' with
    | nested ha' hf' hi' hk' hinner =>
      obtain ⟨rfl, rfl, rfl⟩ : _ ∧ _ ∧ _ := by simpa [ha] using ha'
      obtain rfl := Option.some.inj (hi.symm.trans hi')
      obtain ⟨rfl, rfl⟩ := ih hinner
      exact ⟨rfl, rfl⟩
    | _ => simp_all

theorem Following.mem_pending_iff (h : Following r rules pending through start path)
    (ha : r.approach rules start path = .ok (before, final, member))
    (hi : final.includedPath? member = some included) :
    (final.name, member) ∈ pending ↔ (final.name, member) ∉ through :=
  ⟨h.notMem_through _,
    (h.mem_pending _ (mem_reexports (approach_ok ha).1 hi)).resolve_right⟩

/-- Following a path ends after no more nested paths than there are members that are not being
followed yet. The induction is on these. -/
theorem endsAfter_follow (hinv : Following r rules pending through start path) :
    ∃ n ≤ pending.length, r.EndsAfter rules through start path n
      ((r.follow rules pending through start path).map fun found =>
        ⟨start, path, found.1, found.2⟩) := by
  induction hlength : pending.length using Nat.strongRecOn
    generalizing pending through start path with
  | ind length ih =>
    cases ha : r.approach rules start path with
    | error f =>
      rw [follow_of_approach_error ha]
      exact ⟨0, Nat.zero_le _, .astray ha⟩
    | ok reached =>
      obtain ⟨before, final, member⟩ := reached
      rw [follow_of_approach ha]
      cases hf : final.field? member with
      | some field => exact ⟨0, Nat.zero_le _, .field ha hf⟩
      | none =>
        cases hi : final.includedPath? member with
        | none => exact ⟨0, Nat.zero_le _, .unknown ha hf hi⟩
        | some included =>
          by_cases hk : (final.name, member) ∈ pending
          · have hshorter := length_strike_lt hk
            obtain ⟨n, hn, hinner⟩ :=
              ih _ (hlength ▸ hshorter) (hinv.push ha hf hi hk) rfl
            refine ⟨n + 1, by omega, ?_⟩
            have hends := EndsAfter.nested ha hf hi ((hinv.mem_pending_iff ha hi).1 hk) hinner
            simp only [if_pos hk]
            cases hfollow : r.follow rules (strike (final.name, member) pending)
                (through ++ [(final.name, member)]) final.name included with
            | error f => simpa [hfollow, Except.map] using hends
            | ok found => simpa [hfollow, Except.map] using hends
          · have hthrough : (final.name, member) ∈ through := by
              rwa [hinv.mem_pending_iff ha hi, not_not] at hk
            simp only [if_neg hk]
            exact ⟨0, Nat.zero_le _, .loop ha hf hi hthrough⟩

theorem endsAfter_resolve (r : Registry) (rules : WalkRules) (start path : String) :
    ∃ n ≤ (r.entities.flatMap Entity.includes).length, ∀ k outcome,
      r.EndsAfter rules [] start path k outcome ↔
        k = n ∧ outcome = r.resolve rules start path := by
  have hfresh : Following r rules r.reexports [] start path := following_nil
  obtain ⟨n, hn, hends⟩ := endsAfter_follow hfresh
  have hresolve : r.resolve rules start path =
      (r.follow rules r.reexports [] start path).map fun found =>
        ⟨start, path, found.1, found.2⟩ := by
    unfold resolve
    cases r.follow rules r.reexports [] start path <;> rfl
  rw [← hresolve] at hends
  refine ⟨n, length_reexports r ▸ hn, fun k outcome => ⟨hends.unique, ?_⟩⟩
  rintro ⟨rfl, rfl⟩
  exact hends

/-! ## Coming to a member again -/

theorem ComesTo.exists_approach {m : String × String} (h : r.ComesTo rules start path m) :
    ∃ before final member, r.approach rules start path = .ok (before, final, member) := by
  induction h with
  | first ha => exact ⟨_, _, _, ha⟩
  | next _ _ ih => exact ih

theorem ComesTo.reflTransGen {m : String × String}
    (ha : r.approach rules start path = .ok (before, final, member))
    (h : r.ComesTo rules start path m) :
    ReflTransGen (r.Reexports rules) (final.name, member) m := by
  induction h with
  | first ha' =>
    obtain ⟨-, rfl, rfl⟩ : _ ∧ _ ∧ _ := by simpa [ha] using ha'
    exact .refl
  | next _ hstep ih => exact ih.tail hstep

/-- Where a path comes to a member again and again, it ends at a re-exported member, and the path of
that comes to the same member. -/
theorem ComesTo.inside {m : String × String} (h : r.ComesTo rules start path m)
    (hagain : TransGen (r.Reexports rules) m m)
    (ha : r.approach rules start path = .ok (before, final, member)) :
    ∃ included, final.field? member = none ∧ final.includedPath? member = some included ∧
      r.ComesTo rules final.name included m := by
  obtain ⟨a, hstep, hrest⟩ := TransGen.head'_iff.1 (hagain.trans_right (h.reflTransGen ha))
  obtain ⟨e, included, hops, last, he, hf, hi, hinner, hname⟩ := hstep
  obtain rfl : final = e := Option.some.inj ((approach_ok ha).1.symm.trans he)
  refine ⟨included, hf, hi, ?_⟩
  clear h hagain
  induction hrest with
  | refl =>
    have hfirst : r.ComesTo rules final.name included (last.name, a.2) := .first hinner
    rwa [hname] at hfirst
  | tail _ hnext ih => exact .next ih hnext

/-- Following a path that comes to a member again and again ends with a loop. The induction is on
the nested paths: each of them comes to the member, too. -/
theorem EndsAfter.of_revisit {n : Nat} {outcome : Except Fault Reference} {m : String × String}
    (h : r.EndsAfter rules through start path n outcome) (hm : r.ComesTo rules start path m)
    (hagain : TransGen (r.Reexports rules) m m) :
    ∃ c, outcome = .error (.cyclicReference c) := by
  induction h with
  | astray ha =>
    obtain ⟨before, final, member, ha'⟩ := hm.exists_approach
    simp [ha] at ha'
  | field ha hf =>
    obtain ⟨included, hf', -⟩ := hm.inside hagain ha
    simp [hf] at hf'
  | unknown ha hf hi =>
    obtain ⟨included, -, hi', -⟩ := hm.inside hagain ha
    simp [hi] at hi'
  | loop ha hf hi hk => exact ⟨_, rfl⟩
  | nested ha hf hi hk _ ih =>
    obtain ⟨included, -, hi', hm'⟩ := hm.inside hagain ha
    obtain rfl := Option.some.inj (hi.symm.trans hi')
    obtain ⟨c, rfl⟩ := ih hm'
    exact ⟨c, rfl⟩

/-! ## What resolving a path ends with -/

theorem Reexports.mem_reexportedNames {a b : String × String} (h : r.Reexports rules a b) :
    ∃ e, r.entity? a.1 = some e ∧ a.2 ∈ e.reexportedNames := by
  obtain ⟨e, included, -, -, he, -, hi, -⟩ := h
  refine ⟨e, he, not_not.1 fun hnone => ?_⟩
  rw [Entity.includedPath?_eq_none_iff.2 hnone] at hi
  simp at hi

/-- **Following re-exports.** Resolving a path ends, in one way, after no more nested paths than the
registry re-exports. A cycle that it ends with is the text of a circuit of re-exported members that
the path comes to, each of which leads to the next. It ends with a cycle if and only if the path
comes to a member that leads back to itself. -/
theorem resolve_endsAfter (r : Registry) (rules : WalkRules) (start path : String) :
    (∃ n ≤ (r.entities.flatMap Entity.includes).length, ∀ k outcome,
      r.EndsAfter rules [] start path k outcome ↔
        k = n ∧ outcome = r.resolve rules start path) ∧
    (∀ c, r.resolve rules start path = .error (.cyclicReference c) → IsCircuit c ∧
      ∃ members, c = qualifiedNames members ∧ members.IsChain (r.Reexports rules) ∧
        ∀ m ∈ members, r.ComesTo rules start path m ∧
          ∃ e, r.entity? m.1 = some e ∧ m.2 ∈ e.reexportedNames) ∧
    ((∃ m, r.ComesTo rules start path m ∧ TransGen (r.Reexports rules) m m) ↔
      ∃ c, r.resolve rules start path = .error (.cyclicReference c)) := by
  have hends := endsAfter_resolve r rules start path
  refine ⟨hends, fun c hc => ?_, ?_, ?_⟩
  · obtain ⟨members, hmembers, hcircuit, hchain, -, hmet⟩ := exists_loop_of_resolve hc
    obtain ⟨last, -, hlast⟩ := hcircuit.exists_transGen hchain
    refine ⟨(isReexportLoop_of_resolve hc).isCircuit, members, hmembers, hchain,
      fun m hm => ⟨hmet m hm, ?_⟩⟩
    obtain ⟨next, hstep, -⟩ := TransGen.head'_iff.1 (hlast m hm)
    exact hstep.mem_reexportedNames
  · rintro ⟨m, hm, hagain⟩
    obtain ⟨n, -, hn⟩ := hends
    exact ((hn n _).2 ⟨rfl, rfl⟩).of_revisit hm hagain
  · rintro ⟨c, hc⟩
    obtain ⟨members, -, hcircuit, hchain, -, hmet⟩ := exists_loop_of_resolve hc
    obtain ⟨last, hmem, hlast⟩ := hcircuit.exists_transGen hchain
    exact ⟨last, hmet last hmem, hlast last hmem⟩

end Registry

namespace Shop

/-- A view over one of two views that re-export the revenue from each other. -/
def tourRegistry : Registry :=
  registryOf
    [{ name := "world", kind := .view, includes := ["eu.revenue"] },
      { name := "eu", kind := .view, includes := ["us.revenue"] },
      { name := "us", kind := .view, includes := ["eu.revenue"] }]

end Shop

/-- The revenue of the world is followed to the loop of the other two views, on which it does not
lie itself. -/
theorem Registry.resolve_endsAfter_tour :
    let r := Shop.tourRegistry
    let c := ["eu.revenue", "us.revenue", "eu.revenue"]
    r.resolve {} "world" "revenue" = .error (.cyclicReference c) ∧ IsCircuit c ∧
      (∃ n ≤ 3, r.EndsAfter {} [] "world" "revenue" n (.error (.cyclicReference c))) ∧
      ∃ m, r.ComesTo {} "world" "revenue" m ∧ TransGen (r.Reexports {}) m m := by
  intro r c
  have hc : r.resolve {} "world" "revenue" = .error (.cyclicReference c) := by decide +kernel
  obtain ⟨⟨n, hn, hends⟩, hloop, hrevisit⟩ := resolve_endsAfter r {} "world" "revenue"
  have hcount : (r.entities.flatMap Entity.includes).length = 3 := by decide +kernel
  exact ⟨hc, (hloop c hc).1, ⟨n, hcount ▸ hn, (hends _ _).2 ⟨rfl, hc.symm⟩⟩, hrevisit.2 ⟨c, hc⟩⟩

end MetricLayer
