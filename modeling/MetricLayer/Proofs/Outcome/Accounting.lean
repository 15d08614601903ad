import MetricLayer.Proofs.Outcome.Severity

/-!
# Nothing is lost or invented

The plan of a request holds what its parts yield, in order, and nothing else, and the diagnostics
hold the fault of every part that fails (`Registry.Accounts`). So no part is missing from a plan
that is accepted, and since the members of an entity have different names, so have the columns and
measures of its plan.
-/

namespace MetricLayer

open Schema

/-! ## What the parts of each kind yield -/

namespace Registry

variable (r : Registry) (rules : WalkRules)

/-- The column of a re-exported member that is a dimension. -/
def includedColumn? (entity path : String) : Option Column :=
  (r.included rules entity path).toOption.bind Yield.column?

/-- The measure that stands for a re-exported measure, if it compiles. -/
def includedMeasure? (entity path : String) : Option MeasureNode :=
  (r.included rules entity path).toOption.bind Yield.measure?

/-- The measure that a definition compiles to when nothing is kept. -/
def freshMeasure? (entity : String) (m : Measure) : Option MeasureNode :=
  (r.compileMeasure rules entity m []).1.toOption

/-- The predicates of the measures of an entity, in the order of the measures, and after them those
of a request. -/
def predicates (e : Entity) (filters : List Filter) : List Predicate :=
  (e.measures.flatMap fun m =>
    m.filters.filterMap fun f => (r.filtered rules e.name (.measure m.name) f).toOption) ++
  filters.filterMap fun f => (r.filtered rules e.name .request f).toOption

/-- A plan and its diagnostics account for every part of a request. -/
structure Accounts (e : Entity) (filters : List Filter) (plan : Plan)
    (diagnostics : List Diagnostic) : Prop where
  columns : plan.columns =
    e.dimensions.map ownColumn ++ e.includes.filterMap (r.includedColumn? rules e.name)
  measures : plan.measures =
    e.includes.filterMap (r.includedMeasure? rules e.name) ++
      e.measures.filterMap (r.freshMeasure? rules e.name)
  rowPredicates : plan.rowPredicates =
    (r.predicates rules e filters).filter (·.placement = .row)
  aggregatePredicates : plan.aggregatePredicates =
    (r.predicates rules e filters).filter (·.placement = .aggregate)
  reported : ∀ part ∈ Part.all e filters, ∀ f, part.yield r rules e = .error f →
    (Diagnostic.ofFault f).orPath (part.context e) ∈ diagnostics

end Registry

namespace Part

variable {r : Registry} {rules : WalkRules} {e : Entity} {filters : List Filter}

theorem toOption_map_bind {ε α β γ : Type} (x : Except ε α) (f : α → β) (g : β → Option γ) :
    (x.map f).toOption.bind g = x.toOption.bind fun a => g (f a) := by
  cases x <;> rfl

theorem predicate?_included (path : String) :
    (r.included rules e.name path).toOption.bind Yield.predicate? = none := by
  cases hincluded : r.included rules e.name path with
  | error f => rfl
  | ok y =>
    obtain ⟨ref, -, hy⟩ := Draft.included_ok hincluded
    rcases hy with ⟨valueType, -, rfl⟩ | ⟨declared, n, -, -, rfl⟩ <;> rfl

theorem filterMap_column? :
    (all e filters).filterMap (column? r rules e) =
      e.dimensions.map ownColumn ++ e.includes.filterMap (r.includedColumn? rules e.name) := by
  have hown : (fun d => column? r rules e (.dimension d)) = fun d => some (ownColumn d) := rfl
  have hincluded : (fun path => column? r rules e (.inclusion path)) =
      r.includedColumn? rules e.name := rfl
  have hmeasure : ∀ m, column? r rules e (.measure m) = none := fun m => by
    simp [column?, yield, toOption_map_bind, Yield.column?]
  have hfilter : ∀ c o f, column? r rules e (.filter c o f) = none := fun c o f => by
    simp [column?, yield, toOption_map_bind, Yield.column?]
  simp [all, List.filterMap_flatMap, List.filterMap_map, hown, hincluded, hmeasure, hfilter]

theorem filterMap_measure? :
    (all e filters).filterMap (measure? r rules e) =
      e.includes.filterMap (r.includedMeasure? rules e.name) ++
        e.measures.filterMap (r.freshMeasure? rules e.name) := by
  have hown : ∀ d, measure? r rules e (.dimension d) = none := fun _ => rfl
  have hincluded : (fun path => measure? r rules e (.inclusion path)) =
      r.includedMeasure? rules e.name := rfl
  have hmeasure : ∀ m,
      measure? r rules e (.measure m) = r.freshMeasure? rules e.name m := fun m => by
    simp [measure?, yield, toOption_map_bind, Yield.measure?, Registry.freshMeasure?]
  have hfilter : ∀ c o f, measure? r rules e (.filter c o f) = none := fun c o f => by
    simp [measure?, yield, toOption_map_bind, Yield.measure?]
  have hmeasures : ∀ (m : Measure) (c : String) (o : Origin),
      (Part.measure m :: m.filters.map (.filter c o)).filterMap (measure? r rules e) =
        (r.freshMeasure? rules e.name m).toList := fun m c o => by
    cases hfresh : r.freshMeasure? rules e.name m <;>
      simp [hmeasure, hfilter, hfresh]
  rw [List.filterMap_eq_flatMap_toList (r.freshMeasure? rules e.name)]
  simp only [all, List.filterMap_append, List.filterMap_flatMap, List.filterMap_map,
    Function.comp_def, hown, hincluded, hmeasures, hfilter, List.filterMap_none, List.nil_append,
    List.append_nil]

theorem filterMap_predicate? :
    (all e filters).filterMap (predicate? r rules e) = r.predicates rules e filters := by
  have hown : ∀ d, predicate? r rules e (.dimension d) = none := fun _ => rfl
  have hincluded : ∀ path, predicate? r rules e (.inclusion path) = none := predicate?_included
  have hmeasure : ∀ m, predicate? r rules e (.measure m) = none := fun m => by
    simp [predicate?, yield, toOption_map_bind, Yield.predicate?]
  have hfilter : ∀ c o f, predicate? r rules e (.filter c o f) =
      (r.filtered rules e.name o f).toOption := fun c o f => by
    simp [predicate?, yield, toOption_map_bind, Yield.predicate?]
  simp [all, Registry.predicates, List.filterMap_flatMap, List.filterMap_map, hown, hincluded,
    hmeasure, hfilter]

/-- Where no part fails, each adds one column, measure or predicate. -/
theorem length_yields {parts : List Part} (h : ∀ part ∈ parts, ∃ y, part.yield r rules e = .ok y) :
    (parts.filterMap (column? r rules e)).length + (parts.filterMap (measure? r rules e)).length +
      (parts.filterMap (predicate? r rules e)).length = parts.length := by
  induction parts with
  | nil => rfl
  | cons part rest ih =>
    have ih := ih fun x hx => h x (List.mem_cons_of_mem _ hx)
    obtain ⟨y, hy⟩ := h part (by simp)
    rw [← List.singleton_append]
    cases y <;>
      simp [column?, measure?, predicate?, hy, Except.toOption, Yield.column?,
        Yield.measure?, Yield.predicate?] <;>
      omega

end Part

/-! ## The names of columns and measures -/

/-- Two selections from items of different names, in which each item selected goes by its own name
and is selected once, give different names. -/
theorem nodup_filterMap_append {α : Type} (name : α → String) (f g : α → Option String)
    {xs : List α} (hnodup : (xs.map name).Nodup) (hf : ∀ x ∈ xs, ∀ n, f x = some n → n = name x)
    (hg : ∀ x ∈ xs, ∀ n, g x = some n → n = name x) (hfg : ∀ x ∈ xs, f x = none ∨ g x = none) :
    (xs.filterMap f ++ xs.filterMap g).Nodup ∧ xs.filterMap f ++ xs.filterMap g ⊆ xs.map name := by
  induction xs with
  | nil => simp
  | cons x xs ih =>
    obtain ⟨hx, hxs⟩ := List.nodup_cons.1 hnodup
    obtain ⟨hrest, hsub⟩ := ih hxs (fun y hy => hf y (List.mem_cons_of_mem _ hy))
      (fun y hy => hg y (List.mem_cons_of_mem _ hy)) (fun y hy => hfg y (List.mem_cons_of_mem _ hy))
    have hfresh : name x ∉ xs.filterMap f ++ xs.filterMap g := fun h => hx (hsub h)
    have hcons : xs.filterMap f ++ xs.filterMap g ⊆ (x :: xs).map name := fun n hn =>
      List.mem_cons_of_mem _ (hsub hn)
    cases hfx : f x with
    | some n =>
      obtain rfl : n = name x := hf x (by simp) n hfx
      have hgx : g x = none := (hfg x (by simp)).resolve_left (by simp [hfx])
      rw [List.filterMap_cons_some hfx, List.filterMap_cons_none hgx, List.cons_append]
      exact ⟨List.nodup_cons.2 ⟨hfresh, hrest⟩, List.cons_subset.2 ⟨by simp, hcons⟩⟩
    | none =>
      rw [List.filterMap_cons_none hfx]
      cases hgx : g x with
      | some n =>
        obtain rfl : n = name x := hg x (by simp) n hgx
        rw [List.filterMap_cons_some hgx]
        refine ⟨List.nodup_middle.2 (List.nodup_cons.2 ⟨hfresh, hrest⟩), fun n hn => ?_⟩
        rcases List.mem_append.1 hn with hn | hn
        · exact hcons (List.mem_append_left _ hn)
        · rcases List.mem_cons.1 hn with rfl | hn
          · simp
          · exact hcons (List.mem_append_right _ hn)
      | none =>
        rw [List.filterMap_cons_none hgx]
        exact ⟨hrest, hcons⟩

namespace Registry

variable {r : Registry} {rules : WalkRules} {e : Entity} {path : String}

theorem includedColumn?_eq_some {c : Column} (h : r.includedColumn? rules e.name path = some c) :
    ∃ ref valueType, r.resolve rules e.name path = .ok ref ∧ ref.member = .dimension valueType ∧
      c = { name := (Path.ofText path).member, valueType, source := some ref,
            isPublic := true } := by
  obtain ⟨y, hy, hc⟩ := Option.bind_eq_some_iff.1 h
  obtain ⟨ref, hres, ⟨valueType, hmember, rfl⟩ | ⟨declared, n, -, -, rfl⟩⟩ :=
    Draft.included_ok (toOption_eq_some_iff.1 hy)
  · exact ⟨ref, valueType, hres, hmember, (Option.some.inj hc).symm⟩
  · cases hc

theorem includedMeasure?_eq_some {n : MeasureNode}
    (h : r.includedMeasure? rules e.name path = some n) :
    ∃ ref declared, r.resolve rules e.name path = .ok ref ∧ ref.member = .measure declared ∧
      r.compileMeasureAfresh rules e.name (Draft.standIn path (Path.ofText path).member) =
        .ok n := by
  obtain ⟨y, hy, hn⟩ := Option.bind_eq_some_iff.1 h
  obtain ⟨ref, hres, ⟨valueType, -, rfl⟩ | ⟨declared, node, hmember, hnode, rfl⟩⟩ :=
    Draft.included_ok (toOption_eq_some_iff.1 hy)
  · cases hn
  · obtain rfl : node = n := Option.some.inj hn
    exact ⟨ref, declared, hres, hmember, hnode⟩

theorem name_of_includedColumn? {c : Column} (h : r.includedColumn? rules e.name path = some c) :
    c.name = (Path.ofText path).member := by
  obtain ⟨ref, valueType, -, -, rfl⟩ := includedColumn?_eq_some h
  rfl

theorem name_of_includedMeasure? {n : MeasureNode}
    (h : r.includedMeasure? rules e.name path = some n) : n.name = (Path.ofText path).member := by
  obtain ⟨ref, declared, -, -, hnode⟩ := includedMeasure?_eq_some h
  exact name_of_compileMeasureAfresh hnode

theorem freshMeasure?_eq_some_iff {entity : String} {m : Measure} {n : MeasureNode} :
    r.freshMeasure? rules entity m = some n ↔ r.compileMeasureAfresh rules entity m = .ok n := by
  rw [freshMeasure?, compileMeasure_nil, toOption_eq_some_iff]

theorem name_of_freshMeasure? {m : Measure} {n : MeasureNode}
    (h : r.freshMeasure? rules e.name m = some n) : n.name = m.name := by
  exact name_of_compileMeasureAfresh (freshMeasure?_eq_some_iff.1 h)

theorem includedColumn?_or_includedMeasure? :
    r.includedColumn? rules e.name path = none ∨ r.includedMeasure? rules e.name path = none := by
  unfold includedColumn? includedMeasure?
  rcases r.included rules e.name path with f | c | n | p
  · exact Or.inl rfl
  · exact Or.inr rfl
  · exact Or.inl rfl
  · exact Or.inl rfl

/-- Re-exported members yield columns and measures of different names, all of them names that the
entity re-exports. -/
theorem nodup_included (he : r.entity? e.name = some e) :
    ((e.includes.filterMap (r.includedColumn? rules e.name)).map Column.name ++
        (e.includes.filterMap (r.includedMeasure? rules e.name)).map MeasureNode.name).Nodup ∧
      (e.includes.filterMap (r.includedColumn? rules e.name)).map Column.name ++
        (e.includes.filterMap (r.includedMeasure? rules e.name)).map MeasureNode.name ⊆
          e.reexportedNames := by
  have hmembers := nodup_memberNames he
  have hexports : e.reexportedNames.Nodup := (List.nodup_append.1 hmembers).2.1
  rw [List.map_filterMap, List.map_filterMap]
  refine nodup_filterMap_append (fun p => (Path.ofText p).member) _ _ hexports ?_ ?_ ?_
  · intro p _ n hn
    obtain ⟨c, hc, rfl⟩ := Option.map_eq_some_iff.1 hn
    exact name_of_includedColumn? hc
  · intro p _ n hn
    obtain ⟨node, hnode, rfl⟩ := Option.map_eq_some_iff.1 hn
    exact name_of_includedMeasure? hnode
  · intro p _
    simpa using includedColumn?_or_includedMeasure?

theorem nodup_fresh (he : r.entity? e.name = some e) :
    ((e.measures.filterMap (r.freshMeasure? rules e.name)).map MeasureNode.name).Nodup ∧
      (e.measures.filterMap (r.freshMeasure? rules e.name)).map MeasureNode.name ⊆
        e.measures.map Measure.name := by
  have hmembers := nodup_memberNames he
  have hnodup := Entity.nodup_measureNames hmembers
  rw [List.map_filterMap]
  have h := nodup_filterMap_append Measure.name
    (fun m => (r.freshMeasure? rules e.name m).map MeasureNode.name) (fun _ => none) hnodup
    (fun m _ n hn => by
      obtain ⟨node, hnode, rfl⟩ := Option.map_eq_some_iff.1 hn
      exact name_of_freshMeasure? hnode) (by simp) (by simp)
  rwa [List.filterMap_none, List.append_nil] at h

/-- The columns and the measures of a plan that accounts for all parts have different names. -/
theorem Accounts.nodup_names {filters : List Filter} {plan : Plan} {ds : List Diagnostic}
    (h : r.Accounts rules e filters plan ds) (he : r.entity? e.name = some e) :
    (plan.columns.map Column.name ++ plan.measures.map MeasureNode.name).Nodup := by
  have hmembers := nodup_memberNames he
  obtain ⟨hfields, -, hapart⟩ := List.nodup_append.1 hmembers
  obtain ⟨hdims, -, hfieldsApart⟩ := List.nodup_append.1 hfields
  obtain ⟨hincluded, hincludedSub⟩ := @nodup_included r rules e he
  obtain ⟨hown, hownSub⟩ := @nodup_fresh r rules e he
  rw [h.columns, h.measures, List.map_append, List.map_append, List.map_map, List.append_assoc,
    ← List.append_assoc (List.map _ (List.filterMap _ e.includes))]
  refine List.nodup_append.2 ⟨hdims, List.nodup_append.2 ⟨hincluded, hown, ?_⟩, ?_⟩
  · intro a ha b hb hab
    exact hapart b (List.mem_append_right _ (hownSub hb)) a (hincludedSub ha) hab.symm
  · intro a ha b hb hab
    rcases List.mem_append.1 hb with hb | hb
    · exact hapart a (List.mem_append_left _ ha) b (hincludedSub hb) hab
    · exact hfieldsApart a ha b (hownSub hb) hab

/-! An own measure of an entity, and a re-exported one that compiles, are found in the plan under
their names. -/

theorem Accounts.freshMeasure?_of_measure? {filters : List Filter} {plan : Plan}
    {ds : List Diagnostic} (h : r.Accounts rules e filters plan ds)
    (he : r.entity? e.name = some e) {m : Measure} {n : MeasureNode} (hm : m ∈ e.measures)
    (hn : plan.measure? m.name = some n) : r.freshMeasure? rules e.name m = some n := by
  have hmembers := nodup_memberNames he
  obtain ⟨-, -, hapart⟩ := List.nodup_append.1 hmembers
  have hname : n.name = m.name := by simpa using List.find?_some hn
  have hmem : n ∈ plan.measures := List.mem_of_find?_eq_some hn
  rw [h.measures, List.mem_append, List.mem_filterMap, List.mem_filterMap] at hmem
  rcases hmem with ⟨path, hpath, hincluded⟩ | ⟨m', hm', hfresh⟩
  · refine absurd ?_ (hapart m.name (List.mem_append_right _ (List.mem_map_of_mem hm))
      (Path.ofText path).member (List.mem_map_of_mem hpath))
    rw [← name_of_includedMeasure? hincluded, hname]
  · have hsame : m'.name = m.name := (name_of_freshMeasure? hfresh).symm.trans hname
    rwa [← List.inj_on_of_nodup_map (Entity.nodup_measureNames hmembers) hm' hm hsame]

theorem Accounts.measure?_of_includedMeasure? {filters : List Filter} {plan : Plan}
    {ds : List Diagnostic} (h : r.Accounts rules e filters plan ds)
    (he : r.entity? e.name = some e) {n : MeasureNode} (hpath : path ∈ e.includes)
    (hn : r.includedMeasure? rules e.name path = some n) :
    plan.measure? (Path.ofText path).member = some n := by
  have hmem : n ∈ plan.measures := by
    rw [h.measures]
    exact List.mem_append_left _ (List.mem_filterMap.2 ⟨path, hpath, hn⟩)
  rw [← name_of_includedMeasure? hn]
  exact find?_name_of_mem (List.nodup_append.1 (h.nodup_names he)).2.1 hmem

end Registry

/-! ## Compiling an entity -/

namespace Compiler

variable {c : Compiler} {name : String} {e : Entity} {filters : List Filter}

theorem mem_foldl_report {x : Diagnostic} {ds new : List Diagnostic} (h : x ∈ ds) :
    x ∈ new.foldl report ds := by
  induction new generalizing ds with
  | nil => exact h
  | cons d new ih => exact ih (Draft.mem_report.2 (Or.inl h))

theorem accounts_ofEntity {r : Registry} {rules : WalkRules} (review : List Diagnostic) :
    r.Accounts rules e filters (Draft.ofEntity r rules e filters).plan
      (review.foldl report (Draft.ofEntity r rules e filters).diagnostics) := by
  have hdrafted : Draft.Drafted r rules e (Draft.ofEntity r rules e filters) (Part.all e filters) :=
    Draft.drafted_ofEntity
  refine ⟨?_, ?_, ?_, ?_, ?_⟩
  · rw [hdrafted.columns, Part.filterMap_column?]
  · rw [hdrafted.measures, Part.filterMap_measure?]
  · rw [← Part.filterMap_predicate?]
    exact hdrafted.predicates .row
  · rw [← Part.filterMap_predicate?]
    exact hdrafted.predicates .aggregate
  · exact fun part hpart f hf => mem_foldl_report (hdrafted.reported part hpart f hf)

theorem compile_of_unregistered (h : c.registry.entity? name = none) :
    c.compile name filters =
      { state := .rejected
        history := [.unresolved, .resolving, .rejected]
        plan := none
        diagnostics := [(Diagnostic.ofFault (.unknownEntity name)).orPath name]
        fingerprint := c.registry.fingerprint } := by
  unfold compile Registry.lookup
  rw [h]

theorem exists_entity_of_accepted (haccepted : (c.compile name filters).state = .accepted) :
    ∃ e, c.registry.entity? name = some e := by
  cases he : c.registry.entity? name with
  | some e => exact ⟨e, rfl⟩
  | none =>
    rw [compile_of_unregistered he] at haccepted
    cases haccepted

theorem exists_entity_of_plan {plan : Plan} (hplan : (c.compile name filters).plan = some plan) :
    ∃ e, c.registry.entity? name = some e := by
  cases he : c.registry.entity? name with
  | some e => exact ⟨e, rfl⟩
  | none =>
    rw [compile_of_unregistered he] at hplan
    cases hplan

theorem plan_compile (he : c.registry.entity? name = some e) :
    (c.compile name filters).plan =
      some (Draft.ofEntity c.registry c.settings.walk e filters).plan := by
  unfold compile
  rw [Registry.lookup_eq_ok_iff.2 he]

theorem diagnostics_compile (he : c.registry.entity? name = some e) :
    (c.compile name filters).diagnostics =
      ((Draft.ofEntity c.registry c.settings.walk e filters).plan.review c.registry
        c.settings.walk c.settings.review).foldl report
          (Draft.ofEntity c.registry c.settings.walk e filters).diagnostics := by
  unfold compile
  rw [Registry.lookup_eq_ok_iff.2 he]

theorem accepted_iff_rejects (he : c.registry.entity? name = some e) :
    (c.compile name filters).state = .accepted ↔
      c.settings.review.policy.rejects (c.compile name filters).diagnostics = false := by
  unfold compile
  rw [Registry.lookup_eq_ok_iff.2 he]
  simp

theorem accounts_compile {plan : Plan} (he : c.registry.entity? name = some e)
    (hplan : (c.compile name filters).plan = some plan) :
    c.registry.Accounts c.settings.walk e filters plan (c.compile name filters).diagnostics := by
  rw [plan_compile he, Option.some.injEq] at hplan
  subst hplan
  rw [diagnostics_compile he]
  exact accounts_ofEntity _

/-- If a plan is accepted, no part of the request fails: the fault of a part is fatal. -/
theorem yields_of_accepted (he : c.registry.entity? name = some e)
    (haccepted : (c.compile name filters).state = .accepted) :
    ∀ part ∈ Part.all e filters, ∃ y, part.yield c.registry c.settings.walk e = .ok y := by
  intro part hpart
  cases hy : part.yield c.registry c.settings.walk e with
  | ok y => exact ⟨y, rfl⟩
  | error f =>
    have hreported := (accounts_compile he (plan_compile he)).reported part hpart f hy
    have hrejects : c.settings.review.policy.rejects _ = true :=
      Policy.rejects_of_mem (Part.isFatal_of_yield hy) hreported
    rw [(accepted_iff_rejects he).1 haccepted] at hrejects
    cases hrejects

theorem length_placements (ps : List Predicate) :
    (ps.filter (·.placement = .row)).length + (ps.filter (·.placement = .aggregate)).length =
      ps.length := by
  rw [List.length_eq_length_filter_add (l := ps) (·.placement = .row)]
  congr 2
  refine List.filter_congr fun p _ => ?_
  cases p.placement <;> rfl

/-- **Nothing is lost or invented.** The plan and the diagnostics of a registered entity account for
every part of a request: the plan holds what the parts yield, in order, and the diagnostics hold the
fault of each part that fails. If the plan is accepted then no part fails, and it holds as many
columns, measures and predicates as there are parts. The columns and measures of the plan have
different names in any case. -/
theorem compile_accounts (he : c.registry.entity? name = some e) :
    ∃ plan, (c.compile name filters).plan = some plan ∧
      c.registry.Accounts c.settings.walk e filters plan (c.compile name filters).diagnostics ∧
      ((c.compile name filters).state = .accepted →
        (∀ part ∈ Part.all e filters, ∃ y, part.yield c.registry c.settings.walk e = .ok y) ∧
        plan.columns.length + plan.measures.length +
          (plan.rowPredicates.length + plan.aggregatePredicates.length) =
            (Part.all e filters).length) ∧
      (plan.columns.map Column.name ++ plan.measures.map MeasureNode.name).Nodup := by
  have haccounts := accounts_compile he (@plan_compile c name e filters he)
  refine ⟨_, plan_compile he, haccounts, fun haccepted => ?_,
    haccounts.nodup_names (Registry.entity?_self he)⟩
  have hyields := yields_of_accepted he haccepted
  refine ⟨hyields, ?_⟩
  rw [← Part.length_yields hyields, Part.filterMap_column?, Part.filterMap_measure?,
    Part.filterMap_predicate?, haccounts.columns, haccounts.measures, haccounts.rowPredicates,
    haccounts.aggregatePredicates, length_placements]

/-- The view of a shop re-exports a revenue and the country of users, and both are in its plan. -/
theorem compile_accounts_shop :
    let c : Compiler := { registry := Shop.registry }
    let filters := [Filter.member "country" .equals [.string "DE"]]
    Shop.registry.entity? "shop" = some Shop.view.withInclusions ∧
      (c.compile "shop" filters).state = .accepted ∧
      ∃ plan, (c.compile "shop" filters).plan = some plan ∧
        c.registry.Accounts c.settings.walk Shop.view.withInclusions filters plan
          (c.compile "shop" filters).diagnostics ∧
        plan.columns.length + plan.measures.length +
          (plan.rowPredicates.length + plan.aggregatePredicates.length) = 3 ∧
        (plan.columns.map Column.name ++ plan.measures.map MeasureNode.name).Nodup := by
  intro c filters
  have he : c.registry.entity? "shop" = some Shop.view.withInclusions := by decide +kernel
  have haccepted : (c.compile "shop" filters).state = .accepted := by decide +kernel
  obtain ⟨plan, hplan, haccounts, hall, hnames⟩ := @compile_accounts c "shop" _ filters he
  exact ⟨he, haccepted, plan, hplan, haccounts, (hall haccepted).2, hnames⟩

end Compiler

end MetricLayer
