import MetricLayer.Schema.Decode
import MetricLayer.Schema.Encode
import MetricLayer.Proofs.Json.Writing

/-!
# Schemas are read back from JSON

Each part of a schema is read back from the value it is written as, whatever its strings, its lists
and its optional fields are (`Entity.ofJson?_toJson`, `Graph.ofJson?_toJson`). A record is written
in the order of its fields, some of which may be left out, so every field that is looked up is the
one that was written (`fields?_object`). A filter that is written as a member is not taken for SQL
text, since it has no field of that name.
-/

namespace MetricLayer.Schema

open Json

/-! ## Fields -/

theorem fields?_object {names : List String} {members : List (String × Json)}
    (hkeys : (members.map Prod.fst).Sublist names) (hnames : names.Nodup) :
    fields? names (.object members) = some ⟨true, members⟩ := by
  have hknown : (members.filter fun m => names.contains m.1) = members := by
    rw [List.filter_eq_self]
    intro m hm
    exact List.contains_iff_mem.2 (hkeys.subset (List.mem_map_of_mem hm))
  simp only [fields?, hknown]
  rw [if_pos (hkeys.nodup hnames)]

theorem keys_memberIfSome (key : String) (x : Option Json) :
    ((memberIfSome key x).map Prod.fst).Sublist [key] := by
  cases x with
  | none => exact List.nil_sublist _
  | some x => exact List.Sublist.refl _

theorem asList?_map {α : Type} {decode : Json → Option α} {encode : α → Json} {xs : List α}
    (h : ∀ x ∈ xs, decode (encode x) = some x) :
    asList? decode (.array (xs.map encode)) = some xs := by
  induction xs with
  | nil => rfl
  | cons x xs ih =>
    have htail := ih fun y hy => h y (List.mem_cons_of_mem x hy)
    rw [asList?] at htail ⊢
    rw [List.map_cons, List.mapM_cons, h x List.mem_cons_self, htail]
    rfl

/-! ## Names -/

theorem ValueType.ofJson?_name (t : ValueType) : ofJson? (.string t.name) = some t := by
  cases t <;> decide

theorem Aggregation.ofJson?_name (k : Aggregation) : ofJson? (.string k.name) = some k := by
  cases k <;> decide

theorem Cardinality.ofJson?_name (c : Cardinality) : ofJson? (.string c.name) = some c := by
  cases c <;> decide

theorem RelationshipKind.ofJson?_name (k : RelationshipKind) :
    ofJson? (.string k.name) = some k := by
  cases k <;> decide

theorem EntityKind.ofJson?_name (k : EntityKind) : ofJson? (.string k.name) = some k := by
  cases k <;> decide

theorem Operator.ofJson?_name (op : Operator) : ofJson? (.string op.name) = some op := by
  cases op <;> decide

theorem Literal.ofJson?_toJson (l : Literal) : ofJson? l.toJson = some l := by
  cases l <;> rfl

/-! ## Records -/

theorem Dimension.ofJson?_toJson (d : Dimension) : ofJson? d.toJson = some d := by
  obtain ⟨name, valueType, sql, primaryKey, isPublic⟩ := d
  rw [ofJson?, toJson, fields?_object _ (by decide)]
  · cases sql <;>
      simp [Fields.required, Fields.withDefault, memberIfSome, asString?, asBool?, orNull,
        ValueType.ofJson?_name, List.lookup_cons]
  · rw [List.map_append, List.map_append]
    exact ((List.Sublist.refl _).append (keys_memberIfSome "sql" _)).append (List.Sublist.refl _)

/-! ## Filters -/

theorem wholeItems_literals (values : List Literal) :
    isWhole.wholeItems (values.map Literal.toJson) = true := by
  induction values with
  | nil => rfl
  | cons l values ih =>
    rw [List.map_cons, isWhole.wholeItems, ih]
    cases l <;> rfl

theorem depthOfItems_literals (values : List Literal) :
    depth.depthOfItems (values.map Literal.toJson) = 0 := by
  induction values with
  | nil => rfl
  | cons l values ih =>
    rw [List.map_cons, depth.depthOfItems, ih]
    cases l <;> rfl

/-- A filter can be kept while it is read wherever two levels may be open. -/
theorem Filter.isKept_toJson {nesting : Nesting} (hn : ∀ limit ∈ nesting, 2 ≤ limit)
    (f : Filter) : isKept nesting f.toJson = true := by
  have hwhole : f.toJson.isWhole = true := by
    cases f with
    | sql text => rfl
    | member path op values =>
      simp [toJson, isWhole, isWhole.wholeMembers, wholeItems_literals]
  have hdepth : f.toJson.depth ≤ 2 := by
    cases f with
    | sql text => simp [toJson, depth, depth.depthOfMembers]
    | member path op values =>
      simp [toJson, depth, depth.depthOfMembers, depthOfItems_literals]
  cases nesting with
  | none => simp [isKept, hwhole]
  | some limit =>
    have hlimit : 2 ≤ limit := hn limit rfl
    simp [isKept, hwhole, Nat.le_trans hdepth hlimit]

theorem Filter.ofJson?_toJson {nesting : Nesting} (hn : ∀ limit ∈ nesting, 2 ≤ limit)
    (f : Filter) : ofJson? nesting f.toJson = some f := by
  have hkept := isKept_toJson hn f
  cases f with
  | sql text =>
    rw [toJson] at hkept ⊢
    rw [ofJson?, if_pos hkept, ofSql?, fields?_object _ (by decide)]
    · rfl
    · exact List.Sublist.refl _
  | member path op values =>
    have hvalues := asList?_map fun l (_ : l ∈ values) => l.ofJson?_toJson
    have hnone : ofSql? (toJson (.member path op values)) = none := by
      simp [toJson, ofSql?, fields?, Fields.required]
    rw [toJson] at hkept hnone ⊢
    rw [ofJson?, if_pos hkept, hnone, Option.none_or, ofMember?,
      fields?_object _ (by decide)]
    · simp [Fields.required, Fields.withDefault, asString?, Operator.ofJson?_name, List.lookup_cons,
        hvalues]
    · exact List.Sublist.refl _

/-! ## Measures, relationships and entities -/

theorem Measure.ofJson?_toJson {nesting : Nesting} (hn : ∀ limit ∈ nesting, 2 ≤ limit)
    (m : Measure) : ofJson? nesting m.toJson = some m := by
  obtain ⟨name, sql, declared, filters, description, isPublic⟩ := m
  have hfilters := asList?_map fun f (_ : f ∈ filters) => f.ofJson?_toJson hn
  rw [ofJson?, toJson, fields?_object _ (by decide)]
  · cases sql <;> cases declared <;> cases description <;>
      simp [Fields.required, Fields.withDefault, memberIfSome, asString?, asBool?, orNull,
        Aggregation.ofJson?_name, List.lookup_cons, hfilters]
  · simp only [List.map_append]
    exact (((((List.Sublist.refl _).append (keys_memberIfSome "sql" _)).append
      (keys_memberIfSome "type" _)).append (List.Sublist.refl _)).append
      (keys_memberIfSome "description" _)).append (List.Sublist.refl _)

theorem Relationship.ofJson?_toJson (r : Relationship) : ofJson? r.toJson = some r := by
  obtain ⟨target, kind, cardinality, condition⟩ := r
  rw [ofJson?, toJson, fields?_object _ (by decide)]
  · cases condition <;>
      simp [Fields.required, Fields.withDefault, memberIfSome, asString?, orNull,
        RelationshipKind.ofJson?_name, Cardinality.ofJson?_name, List.lookup_cons]
  · rw [List.map_append]
    exact (List.Sublist.refl _).append (keys_memberIfSome "sql" _)

theorem Entity.ofJson?_toJson {nesting : Nesting} (hn : ∀ limit ∈ nesting, 2 ≤ limit)
    (e : Entity) : ofJson? nesting e.toJson = some e := by
  obtain ⟨name, kind, description, isPublic, dimensions, measures, relationships, includes⟩ := e
  have hdimensions := asList?_map fun d (_ : d ∈ dimensions) => d.ofJson?_toJson
  have hmeasures := asList?_map fun m (_ : m ∈ measures) => m.ofJson?_toJson hn
  have hrelationships := asList?_map fun r (_ : r ∈ relationships) => r.ofJson?_toJson
  have hincludes : asList? asString? (.ofStrings includes) = some includes :=
    asList?_map fun _ _ => rfl
  rw [ofJson?, toJson, fields?_object _ (by decide)]
  · cases description <;>
      simp [Fields.required, Fields.withDefault, memberIfSome, asString?, asBool?, orNull,
        EntityKind.ofJson?_name, List.lookup_cons, hdimensions, hmeasures, hrelationships,
        hincludes]
  · rw [List.map_append, List.map_append]
    exact ((List.Sublist.refl _).append (keys_memberIfSome "description" _)).append
      (List.Sublist.refl _)

/-- A graph is read back from what it is written as. -/
theorem Graph.ofJson?_toJson {nesting : Nesting} (hn : ∀ limit ∈ nesting, 2 ≤ limit)
    (g : Graph) : ofJson? nesting g.toJson = some g := by
  have hentities := asList?_map fun e (_ : e ∈ g.entities) => e.ofJson?_toJson hn
  rw [ofJson?, toJson, fields?_object _ (by decide)]
  · simp [Fields.withDefault, hentities]
  · exact List.Sublist.refl _

end MetricLayer.Schema
