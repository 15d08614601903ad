import MetricLayer.Proofs.Registry.Lookup
import MetricLayer.Proofs.Text.Segments
import MetricLayer.Reference.Resolve

/-!
# Following a path step by step

A path is followed in two stages: along its own segments to an entity (`approach`), and from there,
if the entity re-exports the member asked for, through the path of that member. What a step between
two entities needs to succeed is said once (`step_eq_ok_iff`), and so for a walk through segments
(`walkThrough_cons_eq_ok_iff`, `walk_eq_ok_cases`) and for the whole approach
(`approach_eq_ok_iff`). `follow_ok` and `follow_error` say everything that one round of following
can do.
-/

namespace MetricLayer

open Schema

/-- A path that the rules let be followed: no segment is blank, and there are not too many. -/
def WalkRules.Admits (rules : WalkRules) (p : Path) : Prop :=
  (∀ s ∈ p.segments, Text.allBlank s.toList = false) ∧ p.segments.length ≤ rules.maxDepth

theorem WalkRules.Admits.of_sublist {rules : WalkRules} {p p' : Path} (h : rules.Admits p)
    (hsub : p'.segments.Sublist p.segments) : rules.Admits p' :=
  ⟨fun s hs => h.1 s (hsub.subset hs), Nat.le_trans hsub.length_le h.2⟩

namespace Registry

/-- Where the segments of a path lead before any re-exported member is followed: the hops, the
entity at their end, and the member asked of it. -/
def approach (r : Registry) (rules : WalkRules) (start path : String) :
    Except Fault (List Hop × Entity × String) :=
  match checkPath rules path with
  | .error f => .error f
  | .ok p =>
    match r.lookup start with
    | .error f => .error f
    | .ok e =>
      match r.walk rules path e p.entities with
      | .error f => .error f
      | .ok (hops, final) => .ok (hops, final, p.member)

/-- The hop at the end of a path. -/
def lastHop (e : Entity) (field : Field) : Hop := { entity := e.name, field := some field.name }

variable {r : Registry} {rules : WalkRules} {pending through : List (String × String)}
  {start path member : String} {current final : Entity} {hops : List Hop} {segments : List String}

/-! ## Walking -/

/-- A step leads to the entity that the segment names, over the relationship that is crossed to
it. -/
theorem step_eq_ok_iff {place : Nat} {segment : String} {reached : Hop × Entity} :
    r.step rules path place current segment = .ok reached ↔
      ∃ next c, r.entity? segment = some next ∧ crossing? rules current next = some c ∧
        ({ entity := next.name, crossing := some c }, next) = reached := by
  unfold step
  cases hn : r.entity? segment with
  | none => simp
  | some next => cases hc : crossing? rules current next <;> simp [hc]

theorem walkThrough_cons_eq_ok_iff {place : Nat} {segment : String} {walked : List Hop × Entity} :
    r.walkThrough rules path place current (segment :: segments) = .ok walked ↔
      ∃ hop next further, r.step rules path place current segment = .ok (hop, next) ∧
        r.walkThrough rules path (place + 1) next segments = .ok further ∧
        (hop :: further.1, further.2) = walked := by
  simp only [walkThrough]
  constructor
  · intro h
    cases hs : r.step rules path place current segment with
    | error f => simp [hs] at h
    | ok reached =>
      cases hw : r.walkThrough rules path (place + 1) reached.2 segments with
      | error f => simp [hs, hw] at h
      | ok further => exact ⟨reached.1, reached.2, further, rfl, hw, by simpa [hs, hw] using h⟩
  · rintro ⟨hop, next, further, hs, hw, rfl⟩
    simp only [hs, hw]

theorem walkThrough_cons_eq_error_iff {place : Nat} {segment : String} {f : Fault} :
    r.walkThrough rules path place current (segment :: segments) = .error f ↔
      r.step rules path place current segment = .error f ∨
        ∃ hop next, r.step rules path place current segment = .ok (hop, next) ∧
          r.walkThrough rules path (place + 1) next segments = .error f := by
  simp only [walkThrough]
  cases hs : r.step rules path place current segment with
  | error g => simp
  | ok reached =>
    obtain ⟨hop, next⟩ := reached
    cases hw : r.walkThrough rules path (place + 1) next segments <;> simp [hw]

/-- Where a walk succeeds, neither the text of the path nor the places of the segments matter. -/
theorem walkThrough_eq_ok {place place' : Nat} {path' : String} {walked : List Hop × Entity}
    (h : r.walkThrough rules path place current segments = .ok walked) :
    r.walkThrough rules path' place' current segments = .ok walked := by
  induction segments generalizing place place' current walked with
  | nil => exact h
  | cons segment rest ih =>
    obtain ⟨hop, next, further, hs, hw, rfl⟩ := walkThrough_cons_eq_ok_iff.1 h
    exact walkThrough_cons_eq_ok_iff.2
      ⟨hop, next, further, step_eq_ok_iff.2 (step_eq_ok_iff.1 hs), ih hw, rfl⟩

theorem walk_of_head?_ne (h : segments.head? ≠ some current.name) :
    r.walk rules path current segments = r.walkThrough rules path 0 current segments := by
  cases segments with
  | nil => rfl
  | cons first rest =>
    have hfirst : first ≠ current.name := by simpa using h
    rw [walk, if_neg hfirst]

theorem walk_self_cons :
    r.walk rules path current (current.name :: segments) =
      (r.walkThrough rules path 1 current segments).map fun walked =>
        ({ entity := current.name } :: walked.1, walked.2) := by
  rw [walk, if_pos rfl]
  cases r.walkThrough rules path 1 current segments <;> rfl

/-- A walk from a start goes through the segments as they are, or through those behind the name of
the start. -/
theorem walk_eq_ok_cases {walked : List Hop × Entity}
    (h : r.walk rules path current segments = .ok walked) :
    (∃ rest further, segments = current.name :: rest ∧
        r.walkThrough rules path 1 current rest = .ok further ∧
        ({ entity := current.name } :: further.1, further.2) = walked) ∨
      segments.head? ≠ some current.name ∧
        r.walkThrough rules path 0 current segments = .ok walked := by
  by_cases hself : segments.head? = some current.name
  · obtain ⟨rest, rfl⟩ := List.head?_eq_some_iff.1 hself
    rw [walk_self_cons] at h
    obtain ⟨further, hw, hwalked⟩ := map_eq_ok_iff.1 h
    exact Or.inl ⟨rest, further, rfl, hw, hwalked⟩
  · rw [walk_of_head?_ne hself] at h
    exact Or.inr ⟨hself, h⟩

/-! ## To the last entity -/

theorem checkPath_eq_ok_iff {p : Path} :
    checkPath rules path = .ok p ↔ p = Path.ofText path ∧ rules.Admits (Path.ofText path) := by
  unfold checkPath WalkRules.Admits
  dsimp only
  split_ifs with hblank hlong
  · obtain ⟨s, hs, hall⟩ := List.any_eq_true.1 hblank
    simp only [false_iff]
    exact fun h => by simp [h.2.1 s hs] at hall
  · simp only [false_iff]
    exact fun h => absurd h.2.2 (Nat.not_le_of_lt hlong)
  · have hnone : ∀ s ∈ (Path.ofText path).segments, Text.allBlank s.toList = false := by
      simpa using hblank
    rw [Except.ok.injEq]
    exact ⟨fun h => ⟨h.symm, hnone, Nat.le_of_not_lt hlong⟩, fun h => h.1.symm⟩

theorem approach_eq_ok_iff :
    r.approach rules start path = .ok (hops, final, member) ↔
      rules.Admits (Path.ofText path) ∧ member = (Path.ofText path).member ∧
        ∃ e, r.entity? start = some e ∧
          r.walk rules path e (Path.ofText path).entities = .ok (hops, final) := by
  unfold approach
  constructor
  · intro h
    cases hp : checkPath rules path with
    | error f => simp [hp] at h
    | ok p =>
      obtain ⟨rfl, hadmits⟩ := checkPath_eq_ok_iff.1 hp
      cases he : r.lookup start with
      | error f => simp [hp, he] at h
      | ok e =>
        cases hw : r.walk rules path e (Path.ofText path).entities with
        | error f => simp [hp, he, hw] at h
        | ok walked =>
          simp only [hp, he, hw, Except.ok.injEq, Prod.mk.injEq] at h
          obtain ⟨rfl, rfl, rfl⟩ := h
          exact ⟨hadmits, rfl, e, lookup_eq_ok_iff.1 he, hw⟩
  · rintro ⟨hadmits, rfl, e, he, hw⟩
    simp only [checkPath_eq_ok_iff.2 ⟨rfl, hadmits⟩, lookup_eq_ok_iff.2 he, hw]

theorem walk_of_approach (h : r.approach rules start path = .ok (hops, final, member)) :
    member = (Path.ofText path).member ∧ ∃ e, r.entity? start = some e ∧
      r.walk rules path e (Path.ofText path).entities = .ok (hops, final) :=
  (approach_eq_ok_iff.1 h).2

/-! ## On from there -/

theorem follow_of_approach_error {f : Fault} (h : r.approach rules start path = .error f) :
    r.follow rules pending through start path = .error f := by
  unfold approach at h
  rw [follow]
  cases hp : checkPath rules path with
  | error g => simp_all [bind, Except.bind]
  | ok p =>
    cases he : r.lookup start with
    | error g => simp_all [bind, Except.bind]
    | ok e =>
      cases hw : r.walk rules path e p.entities with
      | error g => simp_all [bind, Except.bind]
      | ok w => simp_all

/-- Following goes on at the entity that the segments of a path lead to. -/
theorem follow_of_approach {hops : List Hop} {final : Entity} {member : String}
    (h : r.approach rules start path = .ok (hops, final, member)) :
    r.follow rules pending through start path =
      match final.field? member with
      | some field => .ok (hops ++ [lastHop final field], field.memberKind)
      | none =>
        match final.includedPath? member with
        | none => .error (.unknownField final.name member)
        | some included =>
          if (final.name, member) ∈ pending then
            (r.follow rules (strike (final.name, member) pending)
              (through ++ [(final.name, member)]) final.name included).map
                fun inner => (hops ++ inner.1, inner.2)
          else
            .error (.cyclicReference (qualifiedNames (loopFrom (final.name, member) through))) := by
  unfold approach at h
  rw [follow]
  cases hp : checkPath rules path with
  | error g => simp_all
  | ok p =>
    cases he : r.lookup start with
    | error g => simp_all
    | ok e =>
      cases hw : r.walk rules path e p.entities with
      | error g => simp_all
      | ok w =>
        simp only [hp, he, hw, Except.ok.injEq, Prod.mk.injEq] at h
        obtain ⟨rfl, rfl, rfl⟩ := h
        simp only [bind, Except.bind, hw, lastHop, pure, Except.pure]
        cases w.2.field? p.member with
        | some field => rfl
        | none =>
          cases w.2.includedPath? p.member with
          | none => rfl
          | some included =>
            simp only [dite_eq_ite, Except.map]

/-- A path that is followed to a field ends at an own field of the entity it leads to, or goes on
through the path of a re-exported member. -/
theorem follow_ok {hops : List Hop} {kind : MemberKind}
    (h : r.follow rules pending through start path = .ok (hops, kind)) :
    ∃ before final member, r.approach rules start path = .ok (before, final, member) ∧
      ((∃ field, final.field? member = some field ∧
          hops = before ++ [lastHop final field] ∧ kind = field.memberKind) ∨
        ∃ included inner, final.includedPath? member = some included ∧
          (final.name, member) ∈ pending ∧
          r.follow rules (strike (final.name, member) pending)
            (through ++ [(final.name, member)]) final.name included = .ok (inner, kind) ∧
          hops = before ++ inner) := by
  cases ha : r.approach rules start path with
  | error f => simp [follow_of_approach_error ha] at h
  | ok reached =>
    obtain ⟨before, final, member⟩ := reached
    refine ⟨before, final, member, rfl, ?_⟩
    rw [follow_of_approach ha] at h
    cases hf : final.field? member with
    | some field =>
      simp only [hf, Except.ok.injEq, Prod.mk.injEq] at h
      exact Or.inl ⟨field, rfl, h.1.symm, h.2.symm⟩
    | none =>
      cases hi : final.includedPath? member with
      | none => simp [hf, hi] at h
      | some included =>
        simp only [hf, hi] at h
        split at h
        · next hk =>
          obtain ⟨inner, hin, hmap⟩ := map_eq_ok_iff.1 h
          obtain ⟨rfl, rfl⟩ := Prod.mk.inj hmap
          exact Or.inr ⟨included, inner.1, rfl, hk, hin, rfl⟩
        · simp at h

/-- A path that is not followed to a field leads nowhere, asks for a member that there is not, or
goes on through the path of a re-exported member, which fails or is being followed already. -/
theorem follow_error {f : Fault} (h : r.follow rules pending through start path = .error f) :
    r.approach rules start path = .error f ∨
      ∃ before final member, r.approach rules start path = .ok (before, final, member) ∧
        final.field? member = none ∧
        ((final.includedPath? member = none ∧ f = .unknownField final.name member) ∨
          ∃ included, final.includedPath? member = some included ∧
            (((final.name, member) ∈ pending ∧
                r.follow rules (strike (final.name, member) pending)
                  (through ++ [(final.name, member)]) final.name included = .error f) ∨
              ((final.name, member) ∉ pending ∧
                f = .cyclicReference
                  (qualifiedNames (loopFrom (final.name, member) through))))) := by
  cases ha : r.approach rules start path with
  | error g =>
    rw [follow_of_approach_error ha] at h
    cases h
    exact Or.inl rfl
  | ok reached =>
    obtain ⟨before, final, member⟩ := reached
    rw [follow_of_approach ha] at h
    cases hf : final.field? member with
    | some field => simp [hf] at h
    | none =>
      refine Or.inr ⟨before, final, member, rfl, hf, ?_⟩
      cases hi : final.includedPath? member with
      | none => exact Or.inl ⟨rfl, by simpa [hf, hi, eq_comm] using h⟩
      | some included =>
        refine Or.inr ⟨included, rfl, ?_⟩
        simp only [hf, hi] at h
        split at h
        · next hk => exact Or.inl ⟨hk, map_eq_error_iff.1 h⟩
        · next hk => exact Or.inr ⟨hk, by simpa [eq_comm] using h⟩

/-! ## Resolving -/

theorem resolve_ok {ref : Reference} (h : r.resolve rules start path = .ok ref) :
    ref.start = start ∧ ref.path = path ∧
      r.follow rules r.reexports [] start path = .ok (ref.hops, ref.member) := by
  unfold resolve at h
  split at h
  · next hops member hf =>
    cases h
    exact ⟨rfl, rfl, hf⟩
  · simp at h

theorem resolve_error {f : Fault} (h : r.resolve rules start path = .error f) :
    r.follow rules r.reexports [] start path = .error f := by
  unfold resolve at h
  split at h
  · simp at h
  · next g hf =>
    cases h
    exact hf

end Registry

end MetricLayer
