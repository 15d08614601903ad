import MetricLayer.Proofs.Registry.Order
import MetricLayer.Registry.IncludeGraph

/-!
# Building a registry

Entities are registered one after another, and some calls may fail: a call is refused for a name
that is taken or for a member whose name repeats, and for nothing else (`register_error_iff`). What
is registered grows by one entity or stays as it is (`register_ok`, `attempt_of_error`), so after
every run it is the accepted entities in order (`entities_run`), each with the inclusions that its
re-exported paths imply (`withInclusions_eq`). These hold an inclusion of each root, their own
included, so what was registered can be registered again as it is (`ofEntities_entities`).
-/

namespace MetricLayer

open Schema

/-! ## Names that repeat -/

/-- A name that stands among others for a second time, the first to do so. -/
def IsFirstRepeat (name : String) (names : List String) : Prop :=
  ∃ before after, names = before ++ name :: after ∧ before.Nodup ∧ name ∈ before

/-- The scan finds a name where all before it are new: neither seen nor met before. -/
theorem firstRepeat?_eq_some_iff {seen names : List String} {name : String} :
    firstRepeat? seen names = some name ↔
      ∃ before after, names = before ++ name :: after ∧ before.Nodup ∧ (∀ x ∈ before, x ∉ seen) ∧
        (name ∈ before ∨ name ∈ seen) := by
  induction names generalizing seen with
  | nil => simp [firstRepeat?]
  | cons first rest ih =>
    rw [firstRepeat?]
    split
    · next hseen =>
      constructor
      · rintro ⟨⟩
        exact ⟨[], rest, rfl, List.nodup_nil, by simp, Or.inr hseen⟩
      · rintro ⟨before, after, hnames, -, hnew, -⟩
        cases before with
        | nil =>
          obtain ⟨rfl, -⟩ := List.cons.inj hnames
          rfl
        | cons x before =>
          obtain ⟨rfl, -⟩ := List.cons.inj hnames
          exact absurd hseen (hnew _ (by simp))
    · next hseen =>
      rw [ih]
      constructor
      · rintro ⟨before, after, rfl, hnodup, hnew, hname⟩
        have hfirst : first ∉ before := fun h => hnew first h (by simp)
        refine ⟨first :: before, after, rfl, List.nodup_cons.2 ⟨hfirst, hnodup⟩, ?_, ?_⟩
        · exact List.forall_mem_cons.2
            ⟨hseen, fun x hx hmem => hnew x hx (List.mem_cons_of_mem _ hmem)⟩
        · rcases hname with h | h
          · exact Or.inl (List.mem_cons_of_mem _ h)
          · rcases List.mem_cons.1 h with rfl | h
            · exact Or.inl (by simp)
            · exact Or.inr h
      · rintro ⟨before, after, hnames, hnodup, hnew, hname⟩
        cases before with
        | nil =>
          obtain ⟨rfl, -⟩ := List.cons.inj hnames
          exact absurd (hname.resolve_left List.not_mem_nil) hseen
        | cons x before =>
          obtain ⟨rfl, rfl⟩ := List.cons.inj hnames
          obtain ⟨hfirst, hnodup⟩ := List.nodup_cons.1 hnodup
          obtain ⟨-, hnew⟩ := List.forall_mem_cons.1 hnew
          refine ⟨before, after, rfl, hnodup, fun y hy hmem => ?_, ?_⟩
          · rcases List.mem_cons.1 hmem with rfl | hmem
            · exact hfirst hy
            · exact hnew y hy hmem
          · rw [List.mem_cons] at hname ⊢
            tauto

theorem firstRepeat?_nil_eq_some_iff {names : List String} {name : String} :
    firstRepeat? [] names = some name ↔ IsFirstRepeat name names := by
  simp [firstRepeat?_eq_some_iff, IsFirstRepeat]

/-! ## Implied inclusions -/

/-- The roots that have no inclusion yet are added once each, where they first occur. -/
theorem addInclusions_eq (rs : List Relationship) (roots : List String) :
    addInclusions rs roots =
      rs ++ ((roots.filter fun root =>
        !rs.any fun r => r.kind = .inclusion && r.target = root).eraseDups).map .inclusion := by
  induction roots generalizing rs with
  | nil => simp [addInclusions]
  | cons root roots ih =>
    rw [addInclusions]
    split
    · next hdeclared => rw [ih, List.filter_cons_of_neg (by simp [hdeclared])]
    · next hdeclared =>
      -- Once it is added, the root counts as declared for those behind it.
      rw [ih, List.filter_cons_of_pos (by simpa using hdeclared), List.eraseDups_cons,
        List.filter_filter, List.map_cons, List.append_assoc, List.singleton_append]
      congr 4
      refine List.filter_congr fun other _ => ?_
      simp [Relationship.inclusion, Bool.and_comm, beq_eq_decide, eq_comm]

namespace Schema.Entity

/-- The entities that re-exported paths begin with and that no declared inclusion leads to, each
once and in the order of the paths. -/
def impliedRoots (e : Entity) : List String :=
  (e.includeRoots.filter fun root => !e.declaresInclusion root).eraseDups

theorem withInclusions_eq (e : Entity) :
    e.withInclusions =
      { e with relationships := e.relationships ++ e.impliedRoots.map .inclusion } := by
  rw [withInclusions, addInclusions_eq]
  rfl

/-- Of two paths with one root the first alone implies an inclusion. -/
example : Shop.view.withInclusions.relationships = [.inclusion "users"] := by decide +kernel

theorem withInclusions_of_declared {e : Entity}
    (h : ∀ root ∈ e.includeRoots, e.declaresInclusion root = true) : e.withInclusions = e := by
  have hnone : (e.includeRoots.filter fun root => !e.declaresInclusion root) = [] :=
    List.filter_eq_nil_iff.2 fun root hroot => by simp [h root hroot]
  rw [withInclusions_eq, impliedRoots, hnone]
  simp

end Schema.Entity

namespace Registry

variable {r r' : Registry} {e : Entity} {calls : List Entity} {f : Fault} {name : String}

/-! ## Calls -/

/-- Why an entity is refused where some names are taken. -/
inductive Refuses (taken : List String) (e : Entity) : Fault → Prop where
  | entity (htaken : e.name ∈ taken) : Refuses taken e (.duplicateEntity e.name)
  | field {name : String} (hnew : e.name ∉ taken) (hrepeat : IsFirstRepeat name e.memberNames) :
      Refuses taken e (.duplicateField e.name name)

/-- What is registered after a call, which it leaves as it is if it fails, and its fault. -/
def attempt (r : Registry) (e : Entity) : Registry × Option Fault :=
  match r.register e with
  | .ok r => (r, none)
  | .error f => (r, some f)

/-- What is registered after calls in order, some of which may fail. -/
def run (r : Registry) (calls : List Entity) : Registry :=
  calls.foldl (fun r e => (r.attempt e).1) r

/-- The entities of the calls that succeed. -/
def accepted (r : Registry) : List Entity → List Entity
  | [] => []
  | e :: calls =>
    match (r.attempt e).2 with
    | none => e :: (r.attempt e).1.accepted calls
    | some _ => (r.attempt e).1.accepted calls

theorem register_error_iff : r.register e = .error f ↔ Refuses r.names e f := by
  unfold register
  split_ifs with hname
  · constructor
    · rintro ⟨⟩
      exact .entity hname
    · rintro (_ | ⟨hnew, -⟩)
      · rfl
      · exact absurd hname hnew
  · split
    · next name hrepeat =>
      constructor
      · rintro ⟨⟩
        exact .field hname (firstRepeat?_nil_eq_some_iff.1 hrepeat)
      · rintro (htaken | ⟨-, hother⟩)
        · exact absurd htaken hname
        · rw [firstRepeat?_nil_eq_some_iff.2 hother] at hrepeat
          cases hrepeat
          rfl
    · next hnone =>
      constructor
      · rintro ⟨⟩
      · rintro (htaken | ⟨-, hother⟩)
        · exact absurd htaken hname
        · rw [firstRepeat?_nil_eq_some_iff.2 hother] at hnone
          cases hnone

theorem attempt_of_ok (h : r.register e = .ok r') : r.attempt e = (r', none) := by
  rw [attempt, h]

theorem attempt_of_error (h : r.register e = .error f) : r.attempt e = (r, some f) := by
  rw [attempt, h]

theorem attempt_fault_iff : (r.attempt e).2 = some f ↔ Refuses r.names e f := by
  rw [← register_error_iff]
  cases h : r.register e with
  | ok next => simp [attempt_of_ok h]
  | error other => simp [attempt_of_error h]

theorem entities_attempt (r : Registry) (e : Entity) :
    (r.attempt e).1.entities =
      r.entities ++ (r.accepted [e]).map Entity.withInclusions := by
  cases h : r.register e with
  | ok next => simp [accepted, attempt_of_ok h, (register_ok h).2.2]
  | error f => simp [accepted, attempt_of_error h]

/-! ## Runs -/

theorem accepted_cons (r : Registry) (e : Entity) (calls : List Entity) :
    r.accepted (e :: calls) = r.accepted [e] ++ (r.attempt e).1.accepted calls := by
  simp only [accepted]
  split <;> simp

theorem entities_run (r : Registry) (calls : List Entity) :
    (r.run calls).entities = r.entities ++ (r.accepted calls).map Entity.withInclusions := by
  induction calls generalizing r with
  | nil => simp [run, accepted]
  | cons e calls ih =>
    have hstep : r.run (e :: calls) = (r.attempt e).1.run calls := rfl
    rw [hstep, ih, entities_attempt, accepted_cons r e calls, List.map_append, List.append_assoc]

theorem names_run (calls : List Entity) :
    (empty.run calls).names = (empty.accepted calls).map Entity.name := by
  rw [names, entities_run, List.map_append, List.map_map]
  rfl

/-! ## What is registered -/

theorem includeNode?_eq_some_iff {place : Nat} :
    r.includeNode? name = some place ↔ ∃ e, r.entities[place]? = some e ∧ e.name = name := by
  rw [includeNode?, List.idxOf?_eq_some_iff]
  constructor
  · rintro ⟨hplace, hname, -⟩
    have hlt : place < r.entities.length := by simpa [names] using hplace
    exact ⟨r.entities[place], List.getElem?_eq_getElem hlt, by simpa [names] using hname⟩
  · rintro ⟨e, he, rfl⟩
    obtain ⟨hlt, rfl⟩ := List.getElem?_eq_some_iff.1 he
    have hplace : place < r.names.length := by simpa [names] using hlt
    refine ⟨hplace, by simp [names], fun j hj hother => ?_⟩
    -- No name stands at two places.
    have hname : r.names[j] = r.names[place] := by simpa [names] using hother
    exact absurd (r.names_nodup.getElem_inj_iff.1 hname) hj.ne

/-- By its name an entity is found, and its place. -/
theorem finds_of_getElem? {place : Nat} (h : r.entities[place]? = some e) :
    r.entity? e.name = some e ∧ r.lookup e.name = .ok e ∧ r.contains e.name = true ∧
      r.includeNode? e.name = some place := by
  have hfound : r.entity? e.name = some e :=
    entity?_eq_some_iff.2 ⟨List.mem_of_getElem? h, rfl⟩
  refine ⟨hfound, lookup_eq_ok_iff.2 hfound, ?_, includeNode?_eq_some_iff.2 ⟨e, h, rfl⟩⟩
  rw [contains, hfound]
  rfl

theorem finds_nothing (h : name ∉ r.names) :
    r.entity? name = none ∧ r.lookup name = .error (.unknownEntity name) ∧
      r.contains name = false ∧ r.includeNode? name = none := by
  have hcontains : r.contains name = false :=
    Bool.eq_false_iff.2 (mt contains_iff_mem_names.1 h)
  have hnone : r.entity? name = none := by simpa [contains] using hcontains
  refine ⟨hnone, ?_, hcontains, List.idxOf?_eq_none_iff.2 h⟩
  rw [lookup, hnone]

/-- What is registered can be registered again, and stays as it is. -/
theorem ofEntities_entities (r : Registry) :
    ∃ again, ofEntities r.entities = .ok again ∧ again.entities = r.entities := by
  obtain ⟨again, hagain⟩ :=
    exists_registerAll (r := empty) (by exact r.names_nodup) r.members_nodup
  refine ⟨again, hagain, ?_⟩
  rw [(registerAll_ok hagain).2.2]
  show r.entities.map Entity.withInclusions = r.entities
  refine (List.map_congr_left fun e he => ?_).trans (List.map_id _)
  exact Entity.withInclusions_of_declared (r.roots_included e he)

/-- A call that fails leaves what was registered before, and does not keep the next from
succeeding. -/
example : (empty.run [Shop.users, { Shop.users with measures := [] }, Shop.orders]).entities =
    [Shop.users, Shop.orders] := by
  decide +kernel

end Registry

end MetricLayer
