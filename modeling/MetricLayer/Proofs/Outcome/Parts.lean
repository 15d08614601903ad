import MetricLayer.Outcome.Draft
import MetricLayer.Proofs.Measure.Sharing

/-!
# The parts of a request

A draft takes up one part after another: the columns of the entity, the members it re-exports, its
measures, each with its filters after it, and the filters of the request. Measures compiled for one
part are kept for the next, and yet each part yields what it yields on its own (`Draft.add_eq`). So
a draft holds what its parts yield, in their order, and reports those that fail
(`Draft.drafted_ofEntity`).
-/

namespace MetricLayer

open Schema

/-- The predicates of a plan that are listed for a placement. -/
def Plan.listed (p : Plan) : Placement → List Predicate
  | .row => p.rowPredicates
  | .aggregate => p.aggregatePredicates

theorem filterMap_concat {α β : Type} (f : α → Option β) (xs : List α) (x : α) :
    (xs ++ [x]).filterMap f = xs.filterMap f ++ (f x).toList := by
  rw [List.filterMap_append]
  cases hx : f x <;> simp [hx]

/-- A part of a request. A filter comes with the place to look for its fault and with whoever
asked for it. -/
inductive Part where
  | dimension (d : Dimension)
  | inclusion (path : String)
  | measure (m : Measure)
  | filter (context : String) (origin : Origin) (f : Filter)

/-- What a part adds to a plan. -/
inductive Yield where
  | column (c : Column)
  | measure (n : MeasureNode)
  | predicate (p : Predicate)

namespace Yield

def column? : Yield → Option Column
  | column c => some c
  | _ => none

def measure? : Yield → Option MeasureNode
  | measure n => some n
  | _ => none

def predicate? : Yield → Option Predicate
  | predicate p => some p
  | _ => none

end Yield

/-- The column that an entity's own dimension yields. -/
def ownColumn (d : Dimension) : Column :=
  { name := d.name, valueType := d.valueType, isPublic := d.isPublic }

namespace Registry

variable (r : Registry) (rules : WalkRules)

/-- What a re-exported member yields: the column of a dimension, or a measure that stands for a
measure, compiled while nothing is kept. -/
def included (entity path : String) : Except Fault Yield :=
  match r.resolve rules entity path with
  | .error f => .error f
  | .ok reference =>
    match reference.member with
    | .dimension valueType =>
      .ok
        (.column
          { name := reference.fieldName, valueType, source := some reference, isPublic := true })
    | .measure _ =>
      (r.compileMeasure rules entity (Draft.standIn path reference.fieldName) []).1.map .measure

/-- The predicate that a filter of an entity yields. -/
def filtered (entity : String) (origin : Origin) (f : Filter) : Except Fault Predicate :=
  (r.compileFilter rules entity f).map fun p => { p with origin }

end Registry

namespace Part

/-- All parts of a request, in the order in which they are taken up. -/
def all (e : Entity) (filters : List Filter) : List Part :=
  e.dimensions.map .dimension ++ e.includes.map .inclusion ++
    (e.measures.flatMap fun m =>
      .measure m :: m.filters.map (.filter (Path.qualified e.name m.name) (.measure m.name))) ++
    filters.map (.filter e.name .request)

variable (r : Registry) (rules : WalkRules) (e : Entity)

/-- What a part yields on its own. -/
def yield : Part → Except Fault Yield
  | dimension d => .ok (.column (ownColumn d))
  | inclusion path => r.included rules e.name path
  | measure m => (r.compileMeasure rules e.name m []).1.map .measure
  | filter _ origin f => (r.filtered rules e.name origin f).map .predicate

def column? (part : Part) : Option Column := (part.yield r rules e).toOption.bind Yield.column?

def measure? (part : Part) : Option MeasureNode :=
  (part.yield r rules e).toOption.bind Yield.measure?

def predicate? (part : Part) : Option Predicate :=
  (part.yield r rules e).toOption.bind Yield.predicate?

/-- Where the fault of a part is looked for, if it does not tell. -/
def context : Part → String
  | dimension d => d.name
  | inclusion path => path
  | measure m => Path.qualified e.name m.name
  | filter context _ _ => context

end Part

/-! ## Taking up parts -/

namespace Draft

/-- The draft with what a part yields, or with its fault reported. -/
def take (d : Draft) (context : String) : Except Fault Yield → Draft
  | .ok (.column c) => { d with plan := d.plan.pushColumn c }
  | .ok (.measure n) => { d with plan := d.plan.pushMeasure n }
  | .ok (.predicate p) => { d with plan := d.plan.pushPredicate p }
  | .error f => d.fault f context

/-- The draft after a part. -/
def add (r : Registry) (rules : WalkRules) (e : Entity) (d : Draft) : Part → Draft
  | .dimension dim => d.addDimension dim
  | .inclusion path => d.addInclude r rules e path
  | .measure m =>
    d.addCompiled (Path.qualified e.name m.name) (r.compileMeasure rules e.name m d.memo)
  | .filter context origin f => d.addFilter context origin (r.compileFilter rules e.name f)

/-- The draft of an entity before any part. -/
def start (e : Entity) : Draft :=
  { plan := { entity := e.name, kind := e.kind, isPublic := e.isPublic } }

variable {r : Registry} {rules : WalkRules} {e : Entity} {filters : List Filter} {d : Draft}
  {part : Part}

/-- The draft of an entity takes up all parts in order. -/
theorem ofEntity_eq_foldl :
    ofEntity r rules e filters = (Part.all e filters).foldl (add r rules e) (start e) := by
  have hmeasures : ∀ (d : Draft) (ms : List Measure),
      ms.foldl (addMeasure r rules e) d =
        (ms.flatMap fun m => Part.measure m ::
          m.filters.map (Part.filter (Path.qualified e.name m.name) (.measure m.name))).foldl
            (add r rules e) d := by
    intro d ms
    induction ms generalizing d with
    | nil => rfl
    | cons m ms ih =>
      rw [List.foldl_cons, ih, List.flatMap_cons, List.foldl_append, List.foldl_cons,
        List.foldl_map]
      rfl
  unfold ofEntity Part.all
  rw [List.foldl_append, List.foldl_append, List.foldl_append, ← hmeasures, List.foldl_map,
    List.foldl_map, List.foldl_map]
  rfl

theorem addCompiled_eq (context : String) (result : Except Fault MeasureNode × Memo) :
    d.addCompiled context result =
      { d.take context (result.1.map .measure) with memo := result.2 } := by
  obtain ⟨f | n, memo⟩ := result <;> rfl

/-- What a re-exported member yields, told by what it resolves to. -/
theorem included_eq {path : String} {ref : Reference}
    (hres : r.resolve rules e.name path = .ok ref) :
    r.included rules e.name path =
      match ref.member with
      | .dimension valueType =>
        .ok (.column
          { name := (Path.ofText path).member, valueType, source := some ref, isPublic := true })
      | .measure _ =>
        (r.compileMeasureAfresh rules e.name (standIn path (Path.ofText path).member)).map
          .measure := by
  unfold Registry.included
  simp only [hres, Registry.fieldName_of_resolve hres, Registry.compileMeasure_nil]

theorem included_of_isMeasure {path : String} {ref : Reference}
    (hres : r.resolve rules e.name path = .ok ref) (hmeasure : ref.isMeasure = true) :
    r.included rules e.name path =
      (r.compileMeasureAfresh rules e.name (standIn path (Path.ofText path).member)).map
        .measure := by
  rw [included_eq hres]
  unfold Reference.isMeasure at hmeasure
  cases hmember : ref.member with
  | dimension valueType => simp [hmember, MemberKind.isMeasure] at hmeasure
  | measure declared => rfl

/-- A re-exported member yields the column of a dimension, or a measure that stands for one. -/
theorem included_ok {path : String} {y : Yield} (h : r.included rules e.name path = .ok y) :
    ∃ ref, r.resolve rules e.name path = .ok ref ∧
      ((∃ valueType, ref.member = .dimension valueType ∧
          y = .column
            { name := (Path.ofText path).member, valueType, source := some ref,
              isPublic := true }) ∨
        ∃ declared n, ref.member = .measure declared ∧
          r.compileMeasureAfresh rules e.name (standIn path (Path.ofText path).member) = .ok n ∧
          y = .measure n) := by
  cases hres : r.resolve rules e.name path with
  | error f =>
    unfold Registry.included at h
    simp [hres] at h
  | ok ref =>
    refine ⟨ref, rfl, ?_⟩
    rw [included_eq hres] at h
    cases hmember : ref.member with
    | dimension valueType =>
      simp only [hmember, Except.ok.injEq] at h
      exact Or.inl ⟨valueType, rfl, h.symm⟩
    | measure declared =>
      simp only [hmember] at h
      obtain ⟨n, hn, hy⟩ := map_eq_ok_iff.1 h
      exact Or.inr ⟨declared, n, rfl, hn, hy.symm⟩

theorem included_error {path : String} {f : Fault} (h : r.included rules e.name path = .error f) :
    r.resolve rules e.name path = .error f ∨
      ∃ m, r.compileMeasureAfresh rules e.name m = .error f := by
  cases hres : r.resolve rules e.name path with
  | error g =>
    unfold Registry.included at h
    exact Or.inl (by simpa [hres] using h)
  | ok ref =>
    rw [included_eq hres] at h
    cases hmember : ref.member with
    | dimension valueType => simp [hmember] at h
    | measure declared =>
      simp only [hmember] at h
      exact Or.inr ⟨_, map_eq_error_iff.1 h⟩

theorem addInclude_eq {path : String}
    (hmemo : r.Faithful rules (Registry.Scope.around r rules e.name).holds d.memo) :
    ∃ memo, d.addInclude r rules e path =
        { d.take path (r.included rules e.name path) with memo } ∧
      r.Faithful rules (Registry.Scope.around r rules e.name).holds memo := by
  unfold addInclude Registry.included
  cases hres : r.resolve rules e.name path with
  | error f => exact ⟨d.memo, rfl, hmemo⟩
  | ok ref =>
    cases hmember : ref.member with
    | dimension valueType =>
      simp only [hmember]
      exact ⟨d.memo, rfl, hmemo⟩
    | measure declared =>
      obtain ⟨hresult, hkept⟩ :=
        Registry.compileMeasure_of_upholds (Registry.upholds_faithful _) hmemo
      simp only [hmember]
      rw [addCompiled_eq, hresult]
      exact ⟨_, rfl, hkept⟩

/-- A part yields what it yields on its own, whatever was kept from the parts before it. -/
theorem add_eq (hmemo : r.Faithful rules (Registry.Scope.around r rules e.name).holds d.memo) :
    ∃ memo, d.add r rules e part =
        { d.take (part.context e) (part.yield r rules e) with memo } ∧
      r.Faithful rules (Registry.Scope.around r rules e.name).holds memo := by
  cases part with
  | dimension dim => exact ⟨d.memo, rfl, hmemo⟩
  | inclusion path => exact addInclude_eq hmemo
  | measure m =>
    obtain ⟨hresult, hkept⟩ :=
      Registry.compileMeasure_of_upholds (Registry.upholds_faithful _) hmemo
    simp only [add, Part.yield, Part.context]
    rw [addCompiled_eq, hresult]
    exact ⟨_, rfl, hkept⟩
  | filter context origin f =>
    refine ⟨d.memo, ?_, hmemo⟩
    simp only [add, Part.yield, Part.context, Registry.filtered]
    cases r.compileFilter rules e.name f <;> rfl

/-! ## What a draft holds -/

/-- What is known of a draft after some parts: it holds what they yield, in their order, with the
predicates split by where they are placed, and reports those that fail. -/
structure Drafted (r : Registry) (rules : WalkRules) (e : Entity) (d : Draft) (done : List Part) :
    Prop where
  columns : d.plan.columns = done.filterMap (Part.column? r rules e)
  measures : d.plan.measures = done.filterMap (Part.measure? r rules e)
  predicates : ∀ placement, d.plan.listed placement =
    (done.filterMap (Part.predicate? r rules e)).filter (·.placement = placement)
  reported : ∀ part ∈ done, ∀ f, part.yield r rules e = .error f →
    (Diagnostic.ofFault f).orPath (part.context e) ∈ d.diagnostics
  faithful : r.Faithful rules (Registry.Scope.around r rules e.name).holds d.memo

theorem mem_report {x d : Diagnostic} {ds : List Diagnostic} :
    x ∈ report ds d ↔ x ∈ ds ∨ x = d := by
  unfold report
  split
  · next hd => exact ⟨Or.inl, fun h => h.elim id fun hx => hx ▸ hd⟩
  · simp

theorem drafted_start : Drafted r rules e (start e) [] where
  columns := rfl
  measures := rfl
  predicates placement := by cases placement <;> rfl
  reported := by simp
  faithful := Registry.faithful_nil

/-! Each yield ends up in its place, and each fault among the diagnostics. -/

theorem columns_take (context : String) (y : Except Fault Yield) :
    (d.take context y).plan.columns = d.plan.columns ++ (y.toOption.bind Yield.column?).toList := by
  rcases y with f | c | n | p
  · simp [take, fault, Except.toOption]
  · rfl
  · simp [take, Plan.pushMeasure, Except.toOption, Yield.column?]
  · cases hp : p.placement <;>
      simp [take, Plan.pushPredicate, hp, Except.toOption, Yield.column?]

theorem measures_take (context : String) (y : Except Fault Yield) :
    (d.take context y).plan.measures =
      d.plan.measures ++ (y.toOption.bind Yield.measure?).toList := by
  rcases y with f | c | n | p
  · simp [take, fault, Except.toOption]
  · simp [take, Plan.pushColumn, Except.toOption, Yield.measure?]
  · rfl
  · cases hp : p.placement <;>
      simp [take, Plan.pushPredicate, hp, Except.toOption, Yield.measure?]

theorem listed_take (placement : Placement) (context : String) (y : Except Fault Yield) :
    (d.take context y).plan.listed placement = d.plan.listed placement ++
      (y.toOption.bind Yield.predicate?).toList.filter (·.placement = placement) := by
  rcases y with f | c | n | p
  · simp [take, fault, Except.toOption]
  · cases placement <;>
      simp [take, Plan.listed, Plan.pushColumn, Except.toOption, Yield.predicate?]
  · cases placement <;>
      simp [take, Plan.listed, Plan.pushMeasure, Except.toOption, Yield.predicate?]
  · cases placement <;> cases hp : p.placement <;>
      simp [take, Plan.listed, Plan.pushPredicate, hp, Except.toOption, Yield.predicate?]

theorem mem_diagnostics_take {context : String} {y : Except Fault Yield} {x : Diagnostic} :
    x ∈ (d.take context y).diagnostics ↔
      x ∈ d.diagnostics ∨ ∃ f, y = .error f ∧ x = (Diagnostic.ofFault f).orPath context := by
  rcases y with f | c | n | p
  · simp [take, fault, mem_report]
  all_goals simp [take]

theorem Drafted.step {done : List Part} (h : Drafted r rules e d done) (part : Part) :
    Drafted r rules e (d.add r rules e part) (done ++ [part]) := by
  obtain ⟨memo, hadd, hkept⟩ := add_eq h.faithful
  rw [hadd]
  refine ⟨?_, ?_, fun placement => ?_, ?_, hkept⟩
  · show (d.take _ _).plan.columns = _
    rw [columns_take, h.columns, filterMap_concat]
    rfl
  · show (d.take _ _).plan.measures = _
    rw [measures_take, h.measures, filterMap_concat]
    rfl
  · show (d.take _ _).plan.listed placement = _
    rw [listed_take, h.predicates, filterMap_concat, List.filter_append]
    rfl
  · intro x hx f hf
    show _ ∈ (d.take _ _).diagnostics
    rw [mem_diagnostics_take]
    rcases List.mem_append.1 hx with hx | hx
    · exact Or.inl (h.reported x hx f hf)
    · obtain rfl := List.mem_singleton.1 hx
      exact Or.inr ⟨f, hf, rfl⟩

theorem Drafted.foldl {done parts : List Part} (h : Drafted r rules e d done) :
    Drafted r rules e (parts.foldl (add r rules e) d) (done ++ parts) := by
  induction parts generalizing d done with
  | nil => simpa using h
  | cons part rest ih =>
    rw [List.foldl_cons, List.append_cons]
    exact ih (h.step part)

/-- **The draft of an entity** holds what all parts of the request yield, and reports those that
fail. -/
theorem drafted_ofEntity :
    Drafted r rules e (ofEntity r rules e filters) (Part.all e filters) := by
  rw [ofEntity_eq_foldl]
  exact drafted_start.foldl

end Draft

end MetricLayer
