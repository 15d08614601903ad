import MetricLayer.Proofs.Json.Reading
import MetricLayer.Proofs.Schema.Decoding

/-!
# Graphs survive as JSON texts

A graph is read back from its JSON text (`Graph.ofText?_toText`). Of the numbers in its filters it
is needed that each is read back from its own text, which the reading by scaling does for most
numbers and not for all of them; nothing is asked of names, texts and lists. What a graph is written
as is plain, so the text tells the value, and the value tells the graph.
-/

namespace MetricLayer.Schema

open Json

/-! ## Numbers -/

/-- The number of a literal that is one. -/
def Literal.number? : Literal → Option Binary64
  | number x => some x
  | _ => none

/-- The numbers that a filter compares with. -/
def Filter.numbers : Filter → List Binary64
  | sql _ => []
  | member _ _ values => values.filterMap Literal.number?

/-- The numbers in the filters of a measure. -/
def Measure.numbers (m : Measure) : List Binary64 := m.filters.flatMap Filter.numbers

/-- The numbers in the filters of an entity's measures. -/
def Entity.numbers (e : Entity) : List Binary64 := e.measures.flatMap Measure.numbers

/-- The numbers in the filters of a graph. -/
def Graph.numbers (g : Graph) : List Binary64 := g.entities.flatMap Entity.numbers

/-! ## Plain values -/

section

variable {p : Binary64 → Prop}

theorem plain_array {α : Type} {xs : List α} {encode : α → Json}
    (h : ∀ x ∈ xs, (encode x).Plain p) : Plain p (.array (xs.map encode)) :=
  .array (List.forall_mem_map.2 h)

theorem plain_memberIfSome {α : Type} {encode : α → Json} (h : ∀ a, Plain p (encode a))
    (key : String) (x : Option α) : ∀ m ∈ memberIfSome key (x.map encode), Plain p m.2 := by
  cases x with
  | none => exact List.forall_mem_nil _
  | some a => exact List.forall_mem_singleton.2 (h a)

theorem Literal.plain_toJson {l : Literal} (h : ∀ x ∈ l.number?, p x) : l.toJson.Plain p := by
  cases l with
  | bool b => exact .bool b
  | number x => exact .real (h x rfl)
  | string s => exact .string s

theorem Filter.plain_toJson {f : Filter} (h : ∀ x ∈ f.numbers, p x) : f.toJson.Plain p := by
  cases f with
  | sql text => exact .object (List.forall_mem_singleton.2 (.string text))
  | member path op values =>
    have hvalues : Plain p (.array (values.map Literal.toJson)) :=
      plain_array fun l hl => l.plain_toJson fun x hx => h x (List.mem_filterMap.2 ⟨l, hl, hx⟩)
    apply Plain.object
    simp only [List.forall_mem_cons]
    exact ⟨.string path, .string op.name, hvalues, List.forall_mem_nil _⟩

theorem Dimension.plain_toJson (d : Dimension) : d.toJson.Plain p := by
  apply Plain.object
  simp only [List.forall_mem_append, List.forall_mem_cons]
  exact ⟨⟨⟨.string d.name, .string d.valueType.name, List.forall_mem_nil _⟩,
    plain_memberIfSome .string "sql" d.sql⟩, .bool d.primaryKey, .bool d.isPublic,
    List.forall_mem_nil _⟩

theorem Measure.plain_toJson {m : Measure} (h : ∀ x ∈ m.numbers, p x) : m.toJson.Plain p := by
  have hfilters : Plain p (.array (m.filters.map Filter.toJson)) :=
    plain_array fun f hf => f.plain_toJson fun x hx => h x (List.mem_flatMap.2 ⟨f, hf, hx⟩)
  apply Plain.object
  simp only [List.forall_mem_append, List.forall_mem_cons]
  exact ⟨⟨⟨⟨⟨⟨.string m.name, List.forall_mem_nil _⟩, plain_memberIfSome .string "sql" m.sql⟩,
    plain_memberIfSome (fun k => .string k.name) "type" m.declared⟩,
    hfilters, List.forall_mem_nil _⟩, plain_memberIfSome .string "description" m.description⟩,
    .bool m.isPublic, List.forall_mem_nil _⟩

theorem Relationship.plain_toJson (r : Relationship) : r.toJson.Plain p := by
  apply Plain.object
  simp only [List.forall_mem_append, List.forall_mem_cons]
  exact ⟨⟨.string r.target, .string r.kind.name, .string r.cardinality.name,
    List.forall_mem_nil _⟩, plain_memberIfSome .string "sql" r.condition⟩

/-- What an entity is written as holds no other numbers than its filters do. -/
theorem Entity.plain_toJson {e : Entity} (h : ∀ x ∈ e.numbers, p x) : e.toJson.Plain p := by
  have hdimensions : Plain p (.array (e.dimensions.map Dimension.toJson)) :=
    plain_array fun d _ => d.plain_toJson
  have hmeasures : Plain p (.array (e.measures.map Measure.toJson)) :=
    plain_array fun m hm => m.plain_toJson fun x hx => h x (List.mem_flatMap.2 ⟨m, hm, hx⟩)
  have hrelationships : Plain p (.array (e.relationships.map Relationship.toJson)) :=
    plain_array fun r _ => r.plain_toJson
  have hincludes : Plain p (.ofStrings e.includes) := plain_array fun s _ => .string s
  apply Plain.object
  simp only [List.forall_mem_append, List.forall_mem_cons]
  exact ⟨⟨⟨.string e.name, .string e.kind.name, List.forall_mem_nil _⟩,
    plain_memberIfSome .string "description" e.description⟩, .bool e.isPublic, hdimensions,
    hmeasures, hrelationships, hincludes, List.forall_mem_nil _⟩

theorem Graph.plain_toJson {g : Graph} (h : ∀ x ∈ g.numbers, p x) : g.toJson.Plain p := by
  have hentities : Plain p (.array (g.entities.map Entity.toJson)) :=
    plain_array fun e he => e.plain_toJson fun x hx => h x (List.mem_flatMap.2 ⟨e, he, hx⟩)
  exact .object (List.forall_mem_singleton.2 hentities)

end

/-! ## Texts -/

/-- A graph is read back from its JSON text if its numbers are finite and each of them is read back
from its own text. -/
theorem Graph.ofText?_toText {g : Graph} (hfinite : ∀ x ∈ g.numbers, x.isFinite = true)
    (hback : ∀ x ∈ g.numbers, x.isFinite = true → x.ReadsBack) : ofText? g.toText = some g := by
  have hplain : Plain (fun x => x.isFinite = true ∧ x.ReadsBack) g.toJson :=
    g.plain_toJson fun x hx => ⟨hfinite x hx, hback x hx (hfinite x hx)⟩
  rw [ofText?, toText, hplain.ofText?_compactText fun _ => id]
  exact g.ofJson?_toJson (by decide)

namespace Archive

/-- Minus three, and three halves. -/
def weights : List Literal :=
  [.number (.finite true { significand := 6755399441055744, shift := 1023 }),
    .number (.finite false { significand := 6755399441055744, shift := 1022 })]

/-- Letters with a description over two lines, counted by weight and by a condition in SQL. -/
def letters : Entity where
  name := "letters"
  description := some "Ärger & \"Grüße\"\n\t— 手紙"
  dimensions := [{ name := "weight", valueType := .number, sql := some "w\\10" },
    { name := "sent", valueType := .time, primaryKey := true }]
  measures :=
    [{ name := "heavy", declared := some .countDistinct,
        filters := [.member "weight" .isIn weights, .sql "sent > '1900'",
          .member "sent" .equals [.string "\x01", .bool false], .member "sent" .isNull []] },
      { name := "all", sql := some "COUNT(*)", isPublic := false }]
  relationships := [{ target := "senders", cardinality := .oneToMany, condition := some "a = b" }]

/-- A view of the letters without a field of its own. -/
def desk : Entity where
  name := "desk"
  kind := .view
  isPublic := false
  relationships := [.inclusion "letters"]
  includes := ["letters.weight", "letters.all"]

def graph : Graph := ⟨[letters, desk]⟩

end Archive

theorem Graph.ofText?_toText_archive :
    (∀ x ∈ Archive.graph.numbers, x.isFinite = true) ∧
      (∀ x ∈ Archive.graph.numbers, x.isFinite = true → x.ReadsBack) ∧
      ofText? Archive.graph.toText = some Archive.graph := by
  have hfinite : ∀ x ∈ Archive.graph.numbers, x.isFinite = true := by decide
  have hback : ∀ x ∈ Archive.graph.numbers, x.isFinite = true → x.ReadsBack := by decide +kernel
  exact ⟨hfinite, hback, ofText?_toText hfinite hback⟩

/-- That a number is finite is not enough: one whose digits do not fit a double may be read as its
neighbour. -/
theorem exists_finite_not_readsBack : ∃ x : Binary64, x.isFinite = true ∧ ¬ x.ReadsBack := by
  refine ⟨.finite false { significand := 4503599627370499, shift := 1022 }, rfl, ?_⟩
  decide +kernel

end MetricLayer.Schema
