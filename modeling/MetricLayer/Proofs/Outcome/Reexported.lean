import MetricLayer.Proofs.Expression.Scanning
import MetricLayer.Proofs.Measure.Additivity
import MetricLayer.Proofs.Outcome.RequiredFields
import MetricLayer.Proofs.Reference.Ends

/-!
# Re-exported measures

A measure that stands for a re-exported one has a placeholder of its path for a text, and refers to
what the scan finds in there. That is the re-exported member if the path is a dotted path of
identifiers, provided that an alias at its head may be replaced by the name of the entity
(`ReadsBack`). Names in a schema may hold other characters: the path then resolves all the same, but
the scan does not find it, and the measure refers to nothing (`compile_reexported`,
`compile_reexported_unread`).
-/

namespace MetricLayer

open Schema

/-! ## What is read back from a placeholder -/

namespace Expression

/-- A path that is read back where an entity has it in a placeholder. -/
structure ReadsBack (entity path : String) : Prop where
  dotted : IsDottedPath path.toList
  root : DotFree entity ∨ ∀ root ∈ (Path.ofText path).root?, root.toList ∉ ownAliases

theorem placeholders_of_isDottedPath {path : List Char} (h : IsDottedPath path) :
    placeholders ('$' :: '\x7b' :: (path ++ ['\x7d'])) = [path] := by
  rw [placeholders_of_placeholder? (by rwa [h.trim]), h.trim]
  rfl

theorem dotFree_of_mem_ownAliases {name : String} (h : name.toList ∈ ownAliases) :
    DotFree name := by
  unfold DotFree
  generalize name.toList = cs at h
  revert cs
  decide

theorem normalizePath_qualified {entity root rest : String} (h : DotFree root) :
    normalizePath entity (Path.qualified root rest) =
      if root.toList ∈ ownAliases then Path.qualified entity rest
      else Path.qualified root rest := by
  have hhead : ∀ c ∈ root.toList, decide (c ≠ '.') = true := fun c hc => by
    simpa using ne_of_mem_of_not_mem hc h
  have htake : (Path.qualified root rest).toList.takeWhile (· ≠ '.') = root.toList := by
    rw [Path.toList_qualified, List.takeWhile_append_of_pos hhead]
    simp
  have hdrop : (Path.qualified root rest).toList.dropWhile (· ≠ '.') = '.' :: rest.toList := by
    rw [Path.toList_qualified, List.dropWhile_append_of_pos hhead]
    simp
  unfold normalizePath normalize
  rw [htake, hdrop]
  refine String.toList_injective ?_
  split_ifs with halias <;> simp [halias, Path.toList_qualified]

end Expression

open Expression

/-! ## What a stand-in reads -/

namespace Registry

variable {r : Registry} {rules : WalkRules} {e : Entity} {entity name path member : String}
  {node : MeasureNode} {ref ref' : Reference}

theorem measurePaths_standIn (hdotted : IsDottedPath path.toList) (hdot : ¬ DotFree path) :
    measurePaths entity (Draft.standIn path member) = [normalizePath entity path] := by
  have hplaceholders : placeholders ("$\x7b" ++ path ++ "\x7d").toList = [path.toList] := by
    rw [← placeholders_of_isDottedPath hdotted]
    simp
  have hnotAlias : path.toList ∉ ownAliases := fun h => hdot (dotFree_of_mem_ownAliases h)
  show references entity ("$\x7b" ++ path ++ "\x7d") = _
  unfold references
  rw [hplaceholders]
  simp [hnotAlias, dropRepeats, normalizePath]

theorem topLevelAggregate?_standIn :
    (Draft.standIn path member).sql.bind topLevelAggregate? = none := by
  show topLevelAggregate? ("$\x7b" ++ path ++ "\x7d") = none
  unfold topLevelAggregate? callHead?
  simp [Text.dropBlanks, Text.isBlank]

/-- What a re-exported path is read back as ends where the path itself does. -/
theorem sameEnd_of_readsBack (he : r.entity? name = some e) (hpath : path ∈ e.includes)
    (hread : ReadsBack name path) (h : r.resolve rules name path = .ok ref)
    (h' : r.resolve rules name (normalizePath name path) = .ok ref') : ref.SameEnd ref' := by
  obtain ⟨root, rest, hroot, rfl⟩ :=
    Path.exists_root_of_not_dotFree (not_dotFree_of_resolve he hpath h)
  rw [normalizePath_qualified hroot] at h'
  split_ifs at h' with halias
  · have hname : DotFree name := by
      refine hread.root.resolve_right fun hnone => hnone root ?_ halias
      simp [Path.ofText_qualified hroot, Path.root?]
    exact sameEnd_of_ownRoot he hpath hroot hname h h'
  · obtain rfl : ref = ref' := Except.ok.inj (h.symm.trans h')
    exact ⟨rfl, rfl, rfl⟩

theorem paths_of_standIn (h : r.compileMeasureAfresh rules entity (Draft.standIn path member) =
    .ok node) :
    node.references.map Reference.path = measurePaths entity (Draft.standIn path member) :=
  paths_of_defineAfresh (by simp [Draft.standIn]) (compileMeasureAfresh_ok_iff.1 h)

/-- A stand-in whose path is read back refers to the re-exported measure alone, and takes its
aggregation. -/
theorem standIn_of_readsBack (he : r.entity? name = some e) (hpath : path ∈ e.includes)
    (hread : ReadsBack name path) (hres : r.resolve rules name path = .ok ref)
    (hmeasure : ref.isMeasure = true)
    (h : r.compileMeasureAfresh rules name (Draft.standIn path member) = .ok node) :
    ∃ ref' n, node.references = [ref'] ∧ ref.SameEnd ref' ∧
      (r.compileNamed rules ref.targetEntity ref.fieldName []).1 = .ok n ∧
      node.aggregation = n.aggregation := by
  have hpaths : measurePaths name (Draft.standIn path member) = [normalizePath name path] :=
    measurePaths_standIn hread.dotted (not_dotFree_of_resolve he hpath hres)
  obtain ⟨o, ho, hassemble⟩ :=
    defineAfresh_of_singleton hpaths (compileMeasureAfresh_ok_iff.1 h)
  obtain ⟨hres', -⟩ := operandAfresh_ok ho
  have hsame := sameEnd_of_readsBack he hpath hread hres hres'
  obtain ⟨field, hfield, hmember⟩ := field_of_resolve hres'
  rw [Reference.isMeasure, hsame.member, hmember] at hmeasure
  cases field with
  | dimension d => simp [Field.memberKind, MemberKind.isMeasure] at hmeasure
  | measure upstream =>
    have hreads : r.Reads rules name (Draft.standIn path member) o.reference upstream :=
      .of_resolve (by simp [hpaths]) hres' hfield
    rw [← (resolve_ok hres').2.1, operandAfresh_of_reads hreads] at ho
    obtain ⟨n, hn, hoperand⟩ := map_eq_ok_iff.1 ho
    generalize o.reference = ref' at *
    subst hoperand
    have hreferences := references_of_assemble (by simp [Draft.standIn]) hassemble
    have hinferred := inferred_of_assemble (by rfl) hassemble
    have htarget : r.measureAt? (ref'.targetEntity, ref'.fieldName).1
        (ref'.targetEntity, ref'.fieldName).2 = some upstream := measureAt?_of_field hfield
    refine ⟨ref', n, hreferences, hsame, ?_, ?_⟩
    · rw [hsame.targetEntity, hsame.fieldName]
      exact (compileNamed_ok_iff htarget).2 hn
    · exact Aggregation.inferred_of_singleton topLevelAggregate?_standIn hinferred

end Registry

namespace Compiler

variable {c : Compiler} {name path : String} {e : Entity} {ref : Reference} {filters : List Filter}

/-- **Re-exported measures.** A path that re-exports a measure is reported with the fault of its
stand-in, or the plan has a measure of that name. This refers to the paths that are found in the
placeholder of the path, and the plan requires what they lead to. If the path is read back, there is
one of them: it ends at the measure that is re-exported, and the plan's measure takes the
aggregation which that has in its own entity. -/
theorem compile_reexported (he : c.registry.entity? name = some e) (hpath : path ∈ e.includes)
    (hres : c.resolve name path = .ok ref) (hmeasure : ref.isMeasure = true) :
    (∃ f, c.registry.included c.settings.walk name path = .error f ∧
      (Diagnostic.ofFault f).orPath path ∈ (c.compile name filters).diagnostics) ∨
    ∃ plan node, (c.compile name filters).plan = some plan ∧
      plan.measure? ref.fieldName = some node ∧
      node.references.map Reference.path =
        references name ("$\x7b" ++ path ++ "\x7d") ∧
      (∀ ref' ∈ node.references, ref'.qualifiedName ∈ plan.requiredFields) ∧
      (ReadsBack name path → ∃ ref' n, node.references = [ref'] ∧
        ref'.qualifiedName = ref.qualifiedName ∧
        c.compileMeasure ref.targetEntity ref.fieldName = .ok n ∧
        node.aggregation = n.aggregation) := by
  obtain rfl : e.name = name := Registry.entity?_name he
  have haccounts : c.registry.Accounts c.settings.walk e filters _ _ :=
    accounts_compile he (plan_compile he)
  have hincluded : c.registry.included c.settings.walk e.name path = _ :=
    Draft.included_of_isMeasure hres hmeasure
  have hfieldName : ref.fieldName = (Path.ofText path).member := Registry.fieldName_of_resolve hres
  cases hnode : c.registry.compileMeasureAfresh c.settings.walk e.name
      (Draft.standIn path (Path.ofText path).member) with
  | error f =>
    rw [hnode] at hincluded
    have hreported := haccounts.reported (.inclusion path) (by simp [Part.all, hpath]) f hincluded
    exact Or.inl ⟨f, hincluded, hreported⟩
  | ok node =>
    have hyielded : c.registry.includedMeasure? c.settings.walk e.name path = some node := by
      rw [Registry.includedMeasure?, hincluded, hnode]
      rfl
    have hmem := haccounts.measure?_of_includedMeasure? he hpath hyielded
    refine Or.inr ⟨_, node, plan_compile he, hfieldName ▸ hmem, Registry.paths_of_standIn hnode,
      fun ref' href' => ?_, fun hread => ?_⟩
    · refine (exact_compile he (plan_compile he) _).2 (Or.inr (Or.inl ?_))
      exact ⟨node, List.mem_of_find?_eq_some hmem, ref', href', rfl⟩
    · obtain ⟨ref', n, hreferences, hsame, hn, haggregation⟩ :=
        Registry.standIn_of_readsBack he hpath hread hres hmeasure hnode
      exact ⟨ref', n, hreferences, hsame.qualifiedName.symm, hn, haggregation⟩

/-- The view of a shop re-exports the revenue of orders, which is reached through the users: the
plan of the view has a sum that refers to it. -/
theorem compile_reexported_revenue :
    let c : Compiler := { registry := Shop.registry }
    let path := "users.orders.revenue"
    c.registry.entity? "shop" = some Shop.view.withInclusions ∧
      path ∈ Shop.view.withInclusions.includes ∧ ReadsBack "shop" path ∧
      ∃ ref, c.resolve "shop" path = .ok ref ∧ ref.isMeasure = true ∧
        ∃ plan node ref' n, (c.compile "shop" []).plan = some plan ∧
          plan.measure? ref.fieldName = some node ∧ node.references = [ref'] ∧
          ref'.qualifiedName = ref.qualifiedName ∧ ref'.qualifiedName ∈ plan.requiredFields ∧
          c.compileMeasure ref.targetEntity ref.fieldName = .ok n ∧
          node.aggregation = n.aggregation := by
  intro c path
  have he : c.registry.entity? "shop" = some Shop.view.withInclusions := by decide +kernel
  have hpath : path ∈ Shop.view.withInclusions.includes := by decide +kernel
  have hread : ReadsBack "shop" path := ⟨by decide +kernel, Or.inl (by decide +kernel)⟩
  have hmeasure : (c.resolve "shop" path).toOption.map Reference.isMeasure = some true := by
    decide +kernel
  have hreported : (c.compile "shop" []).diagnostics = [] := by decide +kernel
  obtain ⟨ref, hres, href⟩ := Option.map_eq_some_iff.1 hmeasure
  have hres := toOption_eq_some_iff.1 hres
  refine ⟨he, hpath, hread, ref, hres, href, ?_⟩
  rcases compile_reexported he hpath hres href with ⟨f, -, hf⟩ | hplan
  · rw [hreported] at hf
    simp at hf
  · obtain ⟨plan, node, hplan, hnode, -, hrequired, hreads⟩ := hplan
    obtain ⟨ref', n, hreferences, hends, hn, haggregation⟩ := hreads hread
    have hmem : ref' ∈ node.references := by simp [hreferences]
    exact ⟨plan, node, ref', n, hplan, hnode, hreferences, hends, hrequired ref' hmem, hn,
      haggregation⟩

end Compiler

/-! ## A name that is not read back -/

namespace Shop

/-- A cube whose name holds a hyphen. -/
def dailyOrders : Entity where
  name := "daily-orders"
  dimensions := [{ name := "amount", valueType := .number }]
  measures := [{ name := "revenue", sql := some ("SUM(" ++ refer "amount" ++ ")") }]

def dailyView : Entity where
  name := "shop"
  kind := .view
  includes := ["daily-orders.revenue"]

def dailyRegistry : Registry := registryOf [dailyOrders, dailyView]

end Shop

/-- A view re-exports a measure of a cube whose name is no identifier. The path resolves and nothing
is reported, and the measure of the view's plan refers to nothing and is of no known kind. -/
theorem Compiler.compile_reexported_unread :
    let c : Compiler := { registry := Shop.dailyRegistry }
    let path := "daily-orders.revenue"
    c.registry.entity? "shop" = some Shop.dailyView.withInclusions ∧
      path ∈ Shop.dailyView.withInclusions.includes ∧
      (∃ ref, c.resolve "shop" path = .ok ref ∧ ref.isMeasure = true ∧
        ref.qualifiedName = path) ∧
      (c.compileMeasure "daily-orders" "revenue").toOption.map MeasureNode.aggregation =
        some .sum ∧
      (c.compile "shop" []).diagnostics = [] ∧
      ∃ plan node, (c.compile "shop" []).plan = some plan ∧
        plan.measure? "revenue" = some node ∧ node.references = [] ∧
        node.aggregation = .custom ∧ path ∉ plan.requiredFields := by
  intro c path
  have hends : (c.resolve "shop" path).toOption.map
      (fun ref => (ref.isMeasure, ref.qualifiedName)) = some (true, path) := by decide +kernel
  have hnodes : ((c.compile "shop" []).plan.bind fun p => (p.measure? "revenue").map fun n =>
      (n.references, n.aggregation)) = some ([], .custom) := by decide +kernel
  have hfields : (c.compile "shop" []).plan.map (·.requiredFields.toList) = some [] := by
    decide +kernel
  obtain ⟨ref, hres, hend⟩ := Option.map_eq_some_iff.1 hends
  obtain ⟨hmeasure, hfield⟩ := Prod.mk.inj hend
  obtain ⟨plan, hplan, hrequired⟩ := Option.map_eq_some_iff.1 hfields
  rw [hplan, Option.bind_some] at hnodes
  obtain ⟨node, hnode, hshape⟩ := Option.map_eq_some_iff.1 hnodes
  obtain ⟨hreferences, haggregation⟩ := Prod.mk.inj hshape
  refine ⟨by decide +kernel, by decide +kernel,
    ⟨ref, toOption_eq_some_iff.1 hres, hmeasure, hfield⟩, by decide +kernel, by decide +kernel,
    plan, node, hplan, hnode, hreferences, haggregation, fun hlisted => ?_⟩
  have hlisted : path ∈ plan.requiredFields.toList := hlisted
  rw [hrequired] at hlisted
  simp at hlisted

/-! An alias may be the name of an entity, too. A re-exported path that begins with it leads to that
entity, and its placeholder to the entity that re-exports it, which is another one if the name that
replaces the alias is cut at a dot. -/

namespace Shop

def shopCube : Entity where
  name := "shop"
  dimensions := [{ name := "amount", valueType := .number }]
  measures := [{ name := "revenue", sql := some ("SUM(" ++ refer "amount" ++ ")") }]

/-- A view of a name with a dot, which re-exports a measure of a cube that is called by an alias. -/
def europeanView : Entity where
  name := "eu.shop"
  kind := .view
  relationships := [{ target := "eu" }]
  includes := ["CUBE.revenue"]

def aliasRegistry : Registry :=
  registryOf
    [shopCube, { name := "eu", relationships := [{ target := "shop" }] },
      { name := "CUBE", measures := [.ofCount "revenue"] }, europeanView]

end Shop

example :
    let c : Compiler := { registry := Shop.aliasRegistry }
    (c.resolve "eu.shop" "CUBE.revenue").toOption.map Reference.qualifiedName =
        some "CUBE.revenue" ∧
      (c.compile "eu.shop" []).diagnostics = [] ∧
      (c.compile "eu.shop" []).plan.map (·.requiredFields.toList) = some ["shop.revenue"] := by
  decide +kernel

end MetricLayer
