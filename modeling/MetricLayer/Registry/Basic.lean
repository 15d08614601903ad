import MetricLayer.Diagnostic.Fault
import MetricLayer.Schema.Entity

/-!
# The registry

The entities of one schema version, each under its own name. Registering an entity checks that its
name and the names of its members are its own, and declares an inclusion of every entity that a
re-exported path begins with; what is checked and declared then holds in every registry, so the type
says it. Registration is the only way to add an entity.
-/

namespace MetricLayer

open Schema

/-! ## Names that repeat -/

/-- The first name that has occurred before it. -/
def firstRepeat? (seen : List String) : List String → Option String
  | [] => none
  | name :: rest => if name ∈ seen then some name else firstRepeat? (name :: seen) rest

theorem firstRepeat?_eq_none {seen names : List String} (h : firstRepeat? seen names = none) :
    names.Nodup ∧ ∀ name ∈ names, name ∉ seen := by
  induction names generalizing seen with
  | nil => simp
  | cons name rest ih =>
    simp only [firstRepeat?] at h
    split at h
    · simp at h
    · obtain ⟨hn, hs⟩ := ih h
      refine ⟨List.nodup_cons.2 ⟨fun hm => hs name hm (by simp), hn⟩, ?_⟩
      intro x hx
      rcases List.mem_cons.1 hx with rfl | hx
      · assumption
      · exact fun hm => hs x hx (List.mem_cons_of_mem _ hm)

/-! ## Implied inclusions -/

/-- Relationships with an inclusion of each root that has none yet, in order. -/
def addInclusions : List Relationship → List String → List Relationship
  | rs, [] => rs
  | rs, root :: roots =>
    if rs.any fun r => r.kind = .inclusion && r.target = root then addInclusions rs roots
    else addInclusions (rs ++ [.inclusion root]) roots

theorem mem_addInclusions {rs : List Relationship} {roots : List String} {r : Relationship}
    (h : r ∈ rs) : r ∈ addInclusions rs roots := by
  induction roots generalizing rs with
  | nil => exact h
  | cons root roots ih =>
    simp only [addInclusions]
    split
    · exact ih h
    · exact ih (List.mem_append_left _ h)

theorem exists_inclusion_addInclusions {rs : List Relationship} {roots : List String}
    {root : String} (h : root ∈ roots) :
    ∃ r ∈ addInclusions rs roots, r.kind = .inclusion ∧ r.target = root := by
  induction roots generalizing rs with
  | nil => simp at h
  | cons first roots ih =>
    simp only [addInclusions]
    by_cases hd : (rs.any fun r => r.kind = .inclusion && r.target = first) = true
    · rw [if_pos hd]
      rcases List.mem_cons.1 h with rfl | h
      · obtain ⟨r, hr, hk⟩ := List.any_eq_true.1 hd
        exact ⟨r, mem_addInclusions hr, by simpa using hk⟩
      · exact ih h
    · rw [if_neg hd]
      rcases List.mem_cons.1 h with rfl | h
      · exact ⟨.inclusion root, mem_addInclusions (by simp), rfl, rfl⟩
      · exact ih h

namespace Schema.Entity

/-- The entity with an inclusion of every entity that its re-exported paths begin with. -/
def withInclusions (e : Entity) : Entity :=
  { e with relationships := addInclusions e.relationships e.includeRoots }

@[simp] theorem name_withInclusions (e : Entity) : e.withInclusions.name = e.name := rfl

@[simp] theorem memberNames_withInclusions (e : Entity) :
    e.withInclusions.memberNames = e.memberNames := rfl

@[simp] theorem includeRoots_withInclusions (e : Entity) :
    e.withInclusions.includeRoots = e.includeRoots := rfl

theorem declaresInclusion_withInclusions {e : Entity} {root : String}
    (h : root ∈ e.includeRoots) : e.withInclusions.declaresInclusion root = true := by
  obtain ⟨r, hr, hk, ht⟩ := exists_inclusion_addInclusions h
  exact List.any_eq_true.2 ⟨r, hr, by simp [hk, ht]⟩

/-- The targets that the entity declares two or more different joins to, in the order of their first
join, with the number of the different joins. -/
def ambiguousJoins (e : Entity) : List (String × Nat) :=
  let joins := e.relationships.filter fun r => r.kind = .join
  (joins.map Relationship.target).eraseDups.filterMap fun target =>
    let count := (joins.filter fun r => r.target = target).eraseDups.length
    if 1 < count then some (target, count) else none

end Schema.Entity

/-! ## Registries -/

/-- The entities of a schema version in the order of their registration. -/
structure Registry where
  entities : List Entity
  names_nodup : (entities.map Entity.name).Nodup
  members_nodup : ∀ e ∈ entities, e.memberNames.Nodup
  roots_included : ∀ e ∈ entities, ∀ root ∈ e.includeRoots, e.declaresInclusion root = true

namespace Registry

/-- The registry without entities. -/
def empty : Registry := ⟨[], by simp, by simp, by simp⟩

instance : Inhabited Registry := ⟨empty⟩

/-- The names of the entities in order. -/
def names (r : Registry) : List String := r.entities.map Entity.name

/-- The entity of a name. -/
def entity? (r : Registry) (name : String) : Option Entity :=
  r.entities.find? fun e => e.name = name

/-- Whether an entity has a name. -/
def contains (r : Registry) (name : String) : Bool := (r.entity? name).isSome

/-- The entity of a name, or the fault that there is none. -/
def lookup (r : Registry) (name : String) : Except Fault Entity :=
  match r.entity? name with
  | some e => .ok e
  | none => .error (.unknownEntity name)

/-- The field of an entity, or the fault that there is none. -/
def field (r : Registry) (entity name : String) : Except Fault Field := do
  let e ← r.lookup entity
  match e.field? name with
  | some f => .ok f
  | none => .error (.unknownField entity name)

/-- Registers an entity after those that are registered. -/
def register (r : Registry) (e : Entity) : Except Fault Registry :=
  if hn : e.name ∈ r.names then .error (.duplicateEntity e.name)
  else
    match hm : firstRepeat? [] e.memberNames with
    | some name => .error (.duplicateField e.name name)
    | none =>
      .ok
        { entities := r.entities ++ [e.withInclusions]
          names_nodup := by
            have := r.names_nodup
            simp only [names] at hn
            simp only [List.map_append, List.map_cons, List.map_nil]
            refine List.nodup_append.2 ⟨this, by simp, ?_⟩
            intro a ha b hb hab
            simp only [List.mem_singleton, Entity.name_withInclusions] at hb
            exact hn (hb ▸ hab ▸ ha)
          members_nodup := by
            intro x hx
            rcases List.mem_append.1 hx with hx | hx
            · exact r.members_nodup x hx
            · obtain rfl := List.mem_singleton.1 hx
              exact (firstRepeat?_eq_none hm).1
          roots_included := by
            intro x hx root hroot
            rcases List.mem_append.1 hx with hx | hx
            · exact r.roots_included x hx root hroot
            · obtain rfl := List.mem_singleton.1 hx
              exact Entity.declaresInclusion_withInclusions hroot }

/-- Registers entities in order, up to the first that cannot be registered. -/
def registerAll (r : Registry) : List Entity → Except Fault Registry
  | [] => .ok r
  | e :: es =>
    match r.register e with
    | .ok r => r.registerAll es
    | .error f => .error f

/-- The registry of a list of entities. -/
def ofEntities (es : List Entity) : Except Fault Registry := empty.registerAll es

/-- The registry of a graph. -/
def ofGraph (g : Graph) : Except Fault Registry := ofEntities g.entities

/-- The targets that an entity declares two or more different joins to. -/
def ambiguousJoins (r : Registry) (name : String) : List (String × Nat) :=
  match r.entity? name with
  | some e => e.ambiguousJoins
  | none => []

end Registry

end MetricLayer
