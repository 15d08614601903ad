import MetricLayer.Proofs.Expression.Scanning
import MetricLayer.Proofs.Registry.Lookup
import MetricLayer.Measure.Compile

/-!
# Placeholders of compiled measures

A measure compiles only if all paths that its text refers to resolve from its entity. So each of its
placeholders that is a dotted path names a member, or the entity itself by an alias
(`compileMeasure_placeholders`). A placeholder that is no dotted path, because a segment is empty or
holds a character that no identifier has, is no reference: it is not read at all, and the measure
compiles without it (`compileMeasure_emptySegment`).
-/

namespace MetricLayer

open Expression Schema

namespace Registry

variable {r : Registry} {rules : WalkRules} {source : CompileSource} {entity path : String}
  {m : Measure} {memo : Memo} {node : MeasureNode}

/-! ## Paths of a measure that compiles -/

theorem resolves_of_operand {o : Operand}
    (h : (r.operand rules source entity path memo).1 = .ok o) :
    ∃ ref, r.resolve rules entity path = .ok ref := by
  unfold operand at h
  cases hres : r.resolve rules entity path with
  | error f => simp [hres] at h
  | ok ref => exact ⟨ref, rfl⟩

theorem resolves_of_operands {paths : List String} {os : List Operand}
    (h : (r.operands rules source entity paths memo).1 = .ok os) :
    ∀ path ∈ paths, ∃ ref, r.resolve rules entity path = .ok ref := by
  induction paths generalizing memo os with
  | nil => simp
  | cons first rest ih =>
    unfold operands at h
    rcases ho : r.operand rules source entity first memo with ⟨f | o, memo'⟩
    · simp [ho] at h
    · rcases hos : r.operands rules source entity rest memo' with ⟨f | os', memo''⟩
      · simp [ho, hos] at h
      · refine List.forall_mem_cons.2 ⟨?_, ?_⟩
        · exact resolves_of_operand (congrArg Prod.fst ho)
        · exact ih (congrArg Prod.fst hos)

theorem resolves_of_define (h : (r.define rules source entity m memo).1 = .ok node) :
    ∀ path ∈ measurePaths entity m, ∃ ref, r.resolve rules entity path = .ok ref := by
  unfold define at h
  rcases hos : r.operands rules source entity (measurePaths entity m) memo with ⟨f | os, memo'⟩
  · simp [hos] at h
  · exact resolves_of_operands (congrArg Prod.fst hos)

theorem resolves_of_compileShared {pending visiting : List String}
    (hmemo : memo.lookup (Path.qualified entity m.name) = none)
    (h : (r.compileShared rules pending visiting entity m memo).1 = .ok node) :
    ∀ path ∈ measurePaths entity m, ∃ ref, r.resolve rules entity path = .ok ref := by
  rw [compileShared] at h
  simp only [hmemo] at h
  split_ifs at h
  split at h
  · simp at h
  · next n memo' hd => exact resolves_of_define (congrArg Prod.fst hd)

theorem resolves_of_compileMeasure (hmemo : memo.lookup (Path.qualified entity m.name) = none)
    (h : (r.compileMeasure rules entity m memo).1 = .ok node) :
    ∀ path ∈ measurePaths entity m, ∃ ref, r.resolve rules entity path = .ok ref := by
  unfold compileMeasure at h
  split_ifs at h
  · exact resolves_of_compileShared hmemo h
  · exact resolves_of_define h

/-! ## Placeholders -/

/-- **No dotted path is dropped.** Where nothing is kept for a measure but what it compiles to
afresh, it compiles only if each placeholder in its text that is a dotted path is an alias of its
entity or resolves from there. What its text refers to are the paths of these placeholders. -/
theorem compileMeasure_placeholders {sql : String} (hsql : m.sql = some sql)
    (hmemo : ∀ n, memo.lookup (Path.qualified entity m.name) = some n →
      (r.compileMeasure rules entity m []).1 = .ok n)
    (h : (r.compileMeasure rules entity m memo).1 = .ok node) :
    (∀ body, HasPlaceholder sql.toList body → IsDottedPath (Text.trim body) →
      Text.trim body ∈ ownAliases ∨
        ∃ ref, r.resolve rules entity (bodyPath entity body) = .ok ref) ∧
    ∀ path, path ∈ measurePaths entity m ↔
      ∃ body, HasPlaceholder sql.toList body ∧ IsDottedPath (Text.trim body) ∧
        Text.trim body ∉ ownAliases ∧ bodyPath entity body = path := by
  have hpaths : measurePaths entity m = references entity sql := by simp only [measurePaths, hsql]
  have hresolves : ∀ path ∈ measurePaths entity m,
      ∃ ref, r.resolve rules entity path = .ok ref := by
    cases hkept : memo.lookup (Path.qualified entity m.name) with
    | none => exact resolves_of_compileMeasure hkept h
    | some n => exact resolves_of_compileMeasure (by simp) (hmemo n hkept)
  rw [hpaths] at hresolves ⊢
  refine ⟨fun body hbody hdotted => ?_, fun path => mem_references_iff⟩
  by_cases halias : Text.trim body ∈ ownAliases
  · exact Or.inl halias
  · exact Or.inr (hresolves _ (mem_references_iff.2 ⟨body, hbody, hdotted, halias, rfl⟩))

/-- The amounts of the orders of the shop, with the alias of the entity and blanks in the text. -/
theorem compileMeasure_placeholders_shop :
    let r := Shop.registry
    let sql := "SUM(" ++ Shop.refer " CUBE.amount " ++ ")"
    let m : Measure := { name := "gross", sql := some sql }
    (r.compileMeasure {} "orders" m []).1.toOption.map MeasureNode.name = some "gross" ∧
      HasPlaceholder sql.toList " CUBE.amount ".toList ∧
      ∃ ref, r.resolve {} "orders" "orders.amount" = .ok ref := by
  intro r sql m
  have hname : (r.compileMeasure {} "orders" m []).1.toOption.map MeasureNode.name =
      some "gross" := by decide +kernel
  have hbody : HasPlaceholder sql.toList " CUBE.amount ".toList :=
    ⟨"SUM(".toList, ")".toList, by decide +kernel, by decide +kernel⟩
  have hdotted : IsDottedPath (Text.trim " CUBE.amount ".toList) := by
    have hentity : IsIdentifier ['C', 'U', 'B', 'E'] := .intro rfl (List.all_eq_true.1 rfl)
    have hmember : IsIdentifier ['a', 'm', 'o', 'u', 'n', 't'] :=
      .intro rfl (List.all_eq_true.1 rfl)
    exact .dot hentity (.single hmember)
  refine ⟨hname, hbody, ?_⟩
  cases hnode : (r.compileMeasure {} "orders" m []).1 with
  | error f => simp [hnode, Except.toOption] at hname
  | ok node =>
    have hread := (compileMeasure_placeholders (m := m) rfl (by simp) hnode).1 _ hbody hdotted
    exact hread.resolve_left (by decide +kernel)

/-- A measure of the orders compiles with a placeholder that has an empty segment, which is no alias
and does not resolve: the measure is the sum of what is left. -/
theorem compileMeasure_emptySegment :
    let r := Shop.registry
    let sql := "SUM(" ++ Shop.refer "amount" ++ " - " ++ Shop.refer "orders..discount" ++ ")"
    let m : Measure := { name := "net", sql := some sql }
    (r.compileMeasure {} "orders" m []).1.toOption.map (fun n => n.references.map Reference.path) =
        some ["amount"] ∧
      HasPlaceholder sql.toList "orders..discount".toList ∧
      Text.trim "orders..discount".toList ∉ ownAliases ∧
      ∃ f, r.resolve {} "orders" (bodyPath "orders" "orders..discount".toList) = .error f := by
  intro r sql m
  refine ⟨by decide +kernel, ?_, by decide +kernel, ?_⟩
  · exact ⟨("SUM(" ++ Shop.refer "amount" ++ " - ").toList, ")".toList, by decide +kernel,
      by decide +kernel⟩
  · have hnone : (r.resolve {} "orders"
        (bodyPath "orders" "orders..discount".toList)).toOption = none := by decide +kernel
    cases hres : r.resolve {} "orders" (bodyPath "orders" "orders..discount".toList) with
    | error f => exact ⟨f, rfl⟩
    | ok ref =>
      rw [hres] at hnone
      cases hnone

end Registry

end MetricLayer
