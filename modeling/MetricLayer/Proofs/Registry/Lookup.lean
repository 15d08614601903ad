import MetricLayer.Registry.Basic
import Mathlib.Data.List.Forall2
import Mathlib.Data.List.Nodup

/-!
# Looking up by name

No two entities of a registry have one name, and neither have two members of an entity, so a lookup
by name finds exactly the thing of that name: `entity?_eq_some_iff` for entities, `measureAt?` for
the measures of entities.
-/

namespace MetricLayer

open Schema

theorem toOption_eq_some_iff {ε α : Type} {x : Except ε α} {a : α} :
    x.toOption = some a ↔ x = .ok a := by
  cases x <;> simp [Except.toOption]

theorem map_eq_error_iff {ε α β : Type} {f : α → β} {x : Except ε α} {e : ε} :
    x.map f = .error e ↔ x = .error e := by
  cases x <;> simp [Except.map]

theorem map_eq_ok_iff {ε α β : Type} {f : α → β} {x : Except ε α} {y : β} :
    x.map f = .ok y ↔ ∃ a, x = .ok a ∧ f a = y := by
  cases x <;> simp [Except.map]

theorem exists_left_of_forall₂ {α β : Type} {R : α → β → Prop} {xs : List α} {ys : List β}
    (h : List.Forall₂ R xs ys) {y : β} (hy : y ∈ ys) : ∃ x ∈ xs, R x y := by
  induction h with
  | nil => exact absurd hy List.not_mem_nil
  | @cons x z xs ys hxz _ ih =>
    rcases List.mem_cons.1 hy with rfl | hy
    · exact ⟨x, by simp, hxz⟩
    · obtain ⟨w, hw, hwy⟩ := ih hy
      exact ⟨w, List.mem_cons_of_mem _ hw, hwy⟩

theorem exists_right_of_forall₂ {α β : Type} {R : α → β → Prop} {xs : List α} {ys : List β}
    (h : List.Forall₂ R xs ys) {x : α} (hx : x ∈ xs) : ∃ y ∈ ys, R x y :=
  exists_left_of_forall₂ h.flip hx

/-- Where names do not repeat, looking for the name of an item finds the item. -/
theorem find?_name_of_mem {α : Type} {f : α → String} {x : α} :
    ∀ {xs : List α}, (xs.map f).Nodup → x ∈ xs → (xs.find? fun y => f y = f x) = some x := by
  intro xs hnodup hx
  induction xs with
  | nil => simp at hx
  | cons y ys ih =>
    obtain ⟨hy, hys⟩ := List.nodup_cons.1 hnodup
    rcases List.mem_cons.1 hx with rfl | hx
    · simp
    · have hne : f y ≠ f x := fun h => hy (h ▸ List.mem_map_of_mem hx)
      simp [hne, ih hys hx]

namespace Schema.Entity

variable {e : Entity} {name : String}

theorem mem_of_dimension? {d : Dimension} (h : e.dimension? name = some d) :
    d ∈ e.dimensions ∧ d.name = name :=
  ⟨List.mem_of_find?_eq_some h, by simpa using List.find?_some h⟩

theorem mem_of_measure? {m : Measure} (h : e.measure? name = some m) :
    m ∈ e.measures ∧ m.name = name :=
  ⟨List.mem_of_find?_eq_some h, by simpa using List.find?_some h⟩

theorem mem_of_includedPath? {path : String} (h : e.includedPath? name = some path) :
    path ∈ e.includes ∧ (Path.ofText path).member = name :=
  ⟨List.mem_of_find?_eq_some h, by simpa using List.find?_some h⟩

theorem name_of_field? {f : Field} (h : e.field? name = some f) : f.name = name := by
  unfold field? at h
  split at h
  · next d hd =>
    cases h
    exact (mem_of_dimension? hd).2
  · obtain ⟨m, hm, rfl⟩ := Option.map_eq_some_iff.1 h
    exact (mem_of_measure? hm).2

theorem measure?_of_field? {m : Measure} (h : e.field? name = some (.measure m)) :
    e.measure? name = some m := by
  unfold field? at h
  split at h
  · simp at h
  · obtain ⟨n, hn, hm⟩ := Option.map_eq_some_iff.1 h
    cases hm
    exact hn

theorem mem_fieldNames_of_field? {f : Field} (h : e.field? name = some f) :
    name ∈ e.fieldNames := by
  unfold field? at h
  split at h
  · next d hd =>
    obtain ⟨hmem, rfl⟩ := mem_of_dimension? hd
    exact List.mem_append_left _ (List.mem_map_of_mem hmem)
  · obtain ⟨m, hm, -⟩ := Option.map_eq_some_iff.1 h
    obtain ⟨hmem, rfl⟩ := mem_of_measure? hm
    exact List.mem_append_right _ (List.mem_map_of_mem hmem)

theorem field?_eq_none_iff : e.field? name = none ↔ name ∉ e.fieldNames := by
  unfold field? fieldNames dimension? measure?
  cases hd : e.dimensions.find? fun d => d.name = name with
  | some d =>
    have hname : d.name = name := by simpa using List.find?_some hd
    simp only [reduceCtorEq, false_iff, not_not]
    exact List.mem_append_left _ (hname ▸ List.mem_map_of_mem (List.mem_of_find?_eq_some hd))
  | none =>
    have hdimensions : name ∉ e.dimensions.map Dimension.name := by
      simpa using List.find?_eq_none.1 hd
    simp [hdimensions]

theorem includedPath?_eq_none_iff : e.includedPath? name = none ↔ name ∉ e.reexportedNames := by
  simp [includedPath?, reexportedNames]

theorem find_of_mem_includes (h : e.memberNames.Nodup) {path : String} (hpath : path ∈ e.includes) :
    e.field? (Path.ofText path).member = none ∧
      e.includedPath? (Path.ofText path).member = some path := by
  obtain ⟨-, hexports, hapart⟩ := List.nodup_append.1 h
  refine ⟨?_, find?_name_of_mem hexports hpath⟩
  cases hf : e.field? (Path.ofText path).member with
  | none => rfl
  | some f =>
    have hown := mem_fieldNames_of_field? hf
    exact absurd rfl (hapart _ hown _ (List.mem_map_of_mem hpath))

theorem field?_of_includedPath? (h : e.memberNames.Nodup) {path : String}
    (hincluded : e.includedPath? name = some path) : e.field? name = none := by
  obtain ⟨hpath, rfl⟩ := mem_of_includedPath? hincluded
  exact (find_of_mem_includes h hpath).1

theorem nodup_measureNames (h : e.memberNames.Nodup) : (e.measures.map Measure.name).Nodup :=
  (List.nodup_append.1 (List.nodup_append.1 h).1).2.1

end Schema.Entity

namespace Registry

variable {r : Registry} {name : String} {e : Entity}

theorem entity?_eq_some_iff : r.entity? name = some e ↔ e ∈ r.entities ∧ e.name = name := by
  constructor
  · intro h
    exact ⟨List.mem_of_find?_eq_some h, by simpa using List.find?_some h⟩
  · rintro ⟨he, rfl⟩
    exact find?_name_of_mem r.names_nodup he

theorem entity?_name (h : r.entity? name = some e) : e.name = name := (entity?_eq_some_iff.1 h).2

theorem entity?_self (h : r.entity? name = some e) : r.entity? e.name = some e := by
  rwa [entity?_name h]

theorem nodup_memberNames (h : r.entity? name = some e) : e.memberNames.Nodup :=
  r.members_nodup e (entity?_eq_some_iff.1 h).1

theorem lookup_eq_ok_iff : r.lookup name = .ok e ↔ r.entity? name = some e := by
  unfold lookup
  split <;> simp_all

theorem field_eq_ok_iff {entity : String} {f : Field} :
    r.field entity name = .ok f ↔ ∃ e, r.entity? entity = some e ∧ e.field? name = some f := by
  unfold field lookup
  cases r.entity? entity with
  | none => simp [bind, Except.bind]
  | some e => cases h : e.field? name <;> simp [bind, Except.bind, h]

/-! ## Measures of entities -/

/-- The measure that an entity declares under a name. -/
def measureAt? (r : Registry) (entity name : String) : Option Measure :=
  (r.entity? entity).bind fun e => e.measure? name

theorem measureAt?_eq_some_iff {entity : String} {m : Measure} :
    r.measureAt? entity name = some m ↔
      ∃ e, r.entity? entity = some e ∧ e.measure? name = some m := by
  simp [measureAt?, Option.bind_eq_some_iff]

theorem name_of_measureAt? {entity : String} {m : Measure}
    (h : r.measureAt? entity name = some m) : m.name = name := by
  obtain ⟨e, _, hm⟩ := measureAt?_eq_some_iff.1 h
  exact (Entity.mem_of_measure? hm).2

theorem measureAt?_of_mem {entity : String} {m : Measure} (he : r.entity? entity = some e)
    (hm : m ∈ e.measures) : r.measureAt? entity m.name = some m := by
  exact measureAt?_eq_some_iff.2
    ⟨e, he, find?_name_of_mem (Entity.nodup_measureNames (nodup_memberNames he)) hm⟩

theorem measureAt?_of_field {entity : String} {m : Measure}
    (h : r.field entity name = .ok (.measure m)) : r.measureAt? entity name = some m := by
  obtain ⟨e, he, hf⟩ := field_eq_ok_iff.1 h
  exact measureAt?_eq_some_iff.2 ⟨e, he, Entity.measure?_of_field? hf⟩

end Registry

/-! ## A shop

Two cubes, of which the second joins the first, and a view over both. Orders and users each have a
measure that depends on the other's. -/

namespace Shop

/-- The registry of a list of entities, and an empty one if they cannot be registered. -/
def registryOf (es : List Entity) : Registry := (Registry.ofEntities es).toOption.getD .empty

/-- A text that refers to a member. -/
def refer (path : String) : String := "$\x7b" ++ path ++ "\x7d"

def users : Entity where
  name := "users"
  dimensions :=
    [{ name := "id", valueType := .number }, { name := "country", valueType := .string }]
  measures :=
    [{ name := "countries", sql := some (refer "country"), declared := some .countDistinct },
      { name := "second", sql := some (refer "orders.first") }]

def orders : Entity where
  name := "orders"
  dimensions := [{ name := "id", valueType := .number }, { name := "amount", valueType := .number }]
  measures :=
    [{ name := "revenue", sql := some ("SUM(" ++ refer "amount" ++ ")") },
      { name := "reach", sql := some (refer "users.countries") },
      { name := "reached", sql := some (refer "reach") },
      { name := "first", sql := some (refer "users.second") }]
  relationships := [{ target := "users" }]

def view : Entity where
  name := "shop"
  kind := .view
  includes := ["users.orders.revenue", "users.country"]

def registry : Registry := registryOf [users, orders, view]

end Shop

end MetricLayer
