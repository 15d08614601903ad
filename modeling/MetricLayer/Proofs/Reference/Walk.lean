import MetricLayer.Proofs.Reference.Following

/-!
# Resolved references are walks

The hops of a resolved reference, read from its start, lead over relationships that the entities on
the way declare (`IsWalk`): each entity is left by the first relationship it declares to the next
or, against its direction, by the first join that the next one declares back. They end at an own
field of a registered entity, under the name that the path ends with (`LeadsTo`). The walk of a
re-exported member is the walk to the entity that re-exports it, followed by the walk along its own
path.
-/

namespace MetricLayer

open Schema

/-- An item with a property that no item before it has. -/
def IsFirst {α : Type} (p : α → Prop) (x : α) (xs : List α) : Prop :=
  p x ∧ ∃ before after, xs = before ++ x :: after ∧ ∀ y ∈ before, ¬ p y

theorem isFirst_of_find? {α : Type} {p : α → Bool} {x : α} {xs : List α}
    (h : xs.find? p = some x) : IsFirst (fun y => p y = true) x xs := by
  obtain ⟨hp, before, after, hxs, hbefore⟩ := List.find?_eq_some_iff_append.1 h
  exact ⟨hp, before, after, hxs, fun y hy => by simpa using hbefore y hy⟩

namespace Registry

/-- A relationship that was rightly crossed. Forward, it is the first that the entity left declares
to the entity reached. Backward, where the rules allow it and the entity left declares none, it is
the first join that the entity reached declares back, and its cardinality is turned round. -/
inductive Crosses (r : Registry) (rules : WalkRules) : Crossing → Prop
  | forward {source target : Entity} {rel : Relationship} :
      r.entity? source.name = some source → r.entity? target.name = some target →
      IsFirst (fun x => x.target = target.name) rel source.relationships →
      Crosses r rules
        { source := source.name, target := target.name, kind := rel.kind,
          cardinality := rel.cardinality, condition := rel.condition, reversed := false }
  | backward {source target : Entity} {rel : Relationship} :
      r.entity? source.name = some source → r.entity? target.name = some target →
      rules.reverseJoins = true → (∀ x ∈ source.relationships, x.target ≠ target.name) →
      IsFirst (fun x => x.target = source.name ∧ x.kind = .join) rel target.relationships →
      Crosses r rules
        { source := source.name, target := target.name, kind := .join,
          cardinality := rel.cardinality.reverse, condition := rel.condition, reversed := true }

/-- A hop that leaves an entity by a relationship rightly crossed, or stays there. -/
def HopFrom (r : Registry) (rules : WalkRules) (current : String) (hop : Hop) : Prop :=
  match hop.crossing with
  | some c => c.source = current ∧ c.target = hop.entity ∧ r.Crosses rules c
  | none => hop.entity = current

/-- Hops that lead from one entity to another. -/
def IsWalk (r : Registry) (rules : WalkRules) : String → List Hop → String → Prop
  | current, [], final => current = final
  | current, hop :: rest, final =>
    r.HopFrom rules current hop ∧ r.IsWalk rules hop.entity rest final

/-- Hops from a start that end at an own field of a registered entity. -/
structure LeadsTo (r : Registry) (rules : WalkRules) (start : String) (hops : List Hop)
    (target : Entity) (field : Field) : Prop where
  registered : r.entity? target.name = some target
  declared : target.field? field.name = some field
  walk : r.IsWalk rules start hops target.name
  ends : ∃ before, hops = before ++ [lastHop target field] ∧ ∀ hop ∈ before, hop.field = none

variable {r : Registry} {rules : WalkRules}

theorem isWalk_append {current final : String} {xs ys : List Hop} :
    r.IsWalk rules current (xs ++ ys) final ↔
      ∃ mid, r.IsWalk rules current xs mid ∧ r.IsWalk rules mid ys final := by
  induction xs generalizing current with
  | nil => simp [IsWalk]
  | cons hop xs ih =>
    simp only [List.cons_append, IsWalk, ih]
    constructor
    · rintro ⟨hhop, mid, hxs, hys⟩
      exact ⟨mid, ⟨hhop, hxs⟩, hys⟩
    · rintro ⟨mid, ⟨hhop, hxs⟩, hys⟩
      exact ⟨hhop, mid, hxs, hys⟩

/-! ## One hop -/

theorem crosses_of_crossing? {source target : Entity} {c : Crossing}
    (hs : r.entity? source.name = some source) (ht : r.entity? target.name = some target)
    (h : crossing? rules source target = some c) :
    c.source = source.name ∧ c.target = target.name ∧ r.Crosses rules c := by
  unfold crossing? at h
  cases hrel : source.relationshipTo? target.name with
  | some rel =>
    simp only [hrel, Option.some.injEq] at h
    subst h
    refine ⟨rfl, rfl, .forward hs ht ?_⟩
    simpa using isFirst_of_find? hrel
  | none =>
    simp only [hrel] at h
    split at h
    · next hrev =>
      obtain ⟨rel, hjoin, rfl⟩ := Option.map_eq_some_iff.1 h
      have hfirst := isFirst_of_find? hjoin
      simp only [Bool.and_eq_true, decide_eq_true_eq] at hfirst
      refine ⟨rfl, rfl, ?_⟩
      rw [hfirst.1.2]
      exact .backward hs ht hrev (by simpa [Entity.relationshipTo?] using hrel) hfirst
    · simp at h

theorem step_ok {path segment : String} {place : Nat} {current next : Entity} {hop : Hop}
    (hc : r.entity? current.name = some current)
    (h : r.step rules path place current segment = .ok (hop, next)) :
    r.entity? segment = some next ∧ r.HopFrom rules current.name hop ∧
      hop.entity = next.name ∧ hop.field = none := by
  obtain ⟨target, c, hn, hx, hreached⟩ := step_eq_ok_iff.1 h
  obtain ⟨rfl, rfl⟩ := Prod.mk.inj hreached
  exact ⟨hn, crosses_of_crossing? hc (entity?_self hn) hx, rfl, rfl⟩

/-! ## Along the segments of a path -/

theorem walkThrough_ok {path : String} {place : Nat} {current final : Entity}
    {segments : List String} {hops : List Hop} (hc : r.entity? current.name = some current)
    (h : r.walkThrough rules path place current segments = .ok (hops, final)) :
    r.entity? final.name = some final ∧ r.IsWalk rules current.name hops final.name ∧
      (∀ hop ∈ hops, hop.field = none) ∧ (final.name = current.name ∨ final.name ∈ segments) := by
  induction segments generalizing place current hops with
  | nil =>
    simp only [walkThrough, Except.ok.injEq, Prod.mk.injEq] at h
    obtain ⟨rfl, rfl⟩ := h
    exact ⟨hc, rfl, by simp, Or.inl rfl⟩
  | cons segment rest ih =>
    obtain ⟨hop, next, further, hs, hw, hwalked⟩ := walkThrough_cons_eq_ok_iff.1 h
    obtain ⟨rfl, rfl⟩ := Prod.mk.inj hwalked
    obtain ⟨hn, hhop, hentity, hfield⟩ := step_ok hc hs
    obtain ⟨hfinal, hwalk, hfields, hname⟩ := ih (entity?_self hn) hw
    refine ⟨hfinal, ⟨hhop, hentity ▸ hwalk⟩, List.forall_mem_cons.2 ⟨hfield, hfields⟩, ?_⟩
    rcases hname with hname | hname
    · exact Or.inr (by simp [hname, entity?_name hn])
    · exact Or.inr (List.mem_cons_of_mem _ hname)

theorem walk_ok {path : String} {start final : Entity} {segments : List String} {hops : List Hop}
    (hs : r.entity? start.name = some start)
    (h : r.walk rules path start segments = .ok (hops, final)) :
    r.entity? final.name = some final ∧ r.IsWalk rules start.name hops final.name ∧
      (∀ hop ∈ hops, hop.field = none) ∧ (final.name = start.name ∨ final.name ∈ segments) := by
  rcases walk_eq_ok_cases h with ⟨rest, further, rfl, hw, hwalked⟩ | ⟨-, hw⟩
  · obtain ⟨rfl, rfl⟩ := Prod.mk.inj hwalked
    obtain ⟨hfinal, hwalk, hfields, hname⟩ := walkThrough_ok hs hw
    refine ⟨hfinal, ⟨rfl, hwalk⟩, List.forall_mem_cons.2 ⟨rfl, hfields⟩, ?_⟩
    exact hname.imp_right (List.mem_cons_of_mem _)
  · exact walkThrough_ok hs hw

theorem approach_ok {start path member : String} {hops : List Hop} {final : Entity}
    (h : r.approach rules start path = .ok (hops, final, member)) :
    r.entity? final.name = some final ∧ r.IsWalk rules start hops final.name ∧
      (∀ hop ∈ hops, hop.field = none) ∧ member = (Path.ofText path).member ∧
      (final.name = start ∨ DotFree final.name) := by
  obtain ⟨hmember, e, he, hw⟩ := walk_of_approach h
  obtain ⟨hfinal, hwalk, hfields, hname⟩ := walk_ok (entity?_self he) hw
  rw [entity?_name he] at hwalk hname
  exact ⟨hfinal, hwalk, hfields, hmember, hname.imp_right Path.dotFree_of_mem_entities⟩

/-! ## Through re-exported members -/

/-- The hops of a followed path lead to the field. The induction is on the members that are not
being followed yet: following one strikes it out, and the walk to the entity that re-exports it goes
in front. -/
theorem follow_leadsTo {pending through : List (String × String)} {start path : String}
    {hops : List Hop} {kind : MemberKind}
    (h : r.follow rules pending through start path = .ok (hops, kind)) :
    ∃ target field, r.LeadsTo rules start hops target field ∧ kind = field.memberKind ∧
      field.name = (Path.ofText path).member ∧ (target.name = start ∨ DotFree target.name) := by
  induction hn : pending.length using Nat.strongRecOn
    generalizing pending through start path hops with
  | ind n ih =>
    obtain ⟨before, final, member, happroach, hend⟩ := follow_ok h
    obtain ⟨hfinal, hwalk, hfields, hmember, hname⟩ := approach_ok happroach
    rcases hend with ⟨field, hfield, rfl, rfl⟩ | ⟨included, inner, hincluded, hkey, hinner, rfl⟩
    · have hfieldName : field.name = member := Entity.name_of_field? hfield
      refine ⟨final, field, ⟨hfinal, ?_, ?_, before, rfl, hfields⟩, rfl, ?_, hname⟩
      · rwa [hfieldName]
      · exact isWalk_append.2 ⟨final.name, hwalk, rfl, rfl⟩
      · rw [hfieldName, hmember]
    · obtain ⟨target, field, hleads, hkind, hfieldName, htarget⟩ :=
        ih _ (hn ▸ length_strike_lt hkey) hinner rfl
      obtain ⟨innerBefore, rfl, hinnerFields⟩ := hleads.ends
      refine ⟨target, field,
        ⟨hleads.registered, hleads.declared, ?_, before ++ innerBefore, ?_, ?_⟩, hkind, ?_, ?_⟩
      · exact isWalk_append.2 ⟨final.name, hwalk, hleads.walk⟩
      · rw [List.append_assoc]
      · intro hop hhop
        exact (List.mem_append.1 hhop).elim (hfields hop) (hinnerFields hop)
      · rw [hfieldName, (Entity.mem_of_includedPath? hincluded).2, hmember]
      · rcases htarget with htarget | htarget
        · rwa [htarget]
        · exact Or.inr htarget

/-! ## References -/

theorem leadsTo_of_resolve {start path : String} {ref : Reference}
    (h : r.resolve rules start path = .ok ref) :
    ∃ target field, r.LeadsTo rules start ref.hops target field ∧ ref.member = field.memberKind ∧
      field.name = (Path.ofText path).member ∧ (target.name = start ∨ DotFree target.name) :=
  follow_leadsTo (resolve_ok h).2.2

theorem LeadsTo.targetEntity {start : String} {ref : Reference} {target : Entity} {field : Field}
    (h : r.LeadsTo rules start ref.hops target field) : ref.targetEntity = target.name := by
  obtain ⟨before, heq, _⟩ := h.ends
  simp [Reference.targetEntity, heq, lastHop]

theorem LeadsTo.fieldName {start : String} {ref : Reference} {target : Entity} {field : Field}
    (h : r.LeadsTo rules start ref.hops target field) : ref.fieldName = field.name := by
  obtain ⟨before, heq, _⟩ := h.ends
  simp [Reference.fieldName, heq, lastHop]

theorem field_of_resolve {start path : String} {ref : Reference}
    (h : r.resolve rules start path = .ok ref) :
    ∃ field, r.field ref.targetEntity ref.fieldName = .ok field ∧
      ref.member = field.memberKind := by
  obtain ⟨target, field, hleads, hkind, _, _⟩ := leadsTo_of_resolve h
  rw [hleads.targetEntity, hleads.fieldName]
  exact ⟨field, field_eq_ok_iff.2 ⟨target, hleads.registered, hleads.declared⟩, hkind⟩

theorem fieldName_of_resolve {start path : String} {ref : Reference}
    (h : r.resolve rules start path = .ok ref) : ref.fieldName = (Path.ofText path).member := by
  obtain ⟨target, field, hleads, _, hname, _⟩ := leadsTo_of_resolve h
  rw [hleads.fieldName, hname]

theorem targetEntity_of_resolve {start path : String} {ref : Reference}
    (h : r.resolve rules start path = .ok ref) :
    ref.targetEntity = start ∨ DotFree ref.targetEntity := by
  obtain ⟨target, field, hleads, _, _, htarget⟩ := leadsTo_of_resolve h
  rwa [hleads.targetEntity]

end Registry

end MetricLayer
