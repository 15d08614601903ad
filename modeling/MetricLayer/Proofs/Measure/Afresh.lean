import MetricLayer.Proofs.Measure.Dependency

/-!
# Compiling measures afresh

`compileAfresh` compiles a measure and all that it depends on, and keeps nothing: a measure that is
read twice is compiled twice. A measure that compiles is grounded (`grounded_of_compileAfresh`), and
the measures that are being compiled around it then make no difference: it compiles to the same node
wherever none of the measures it leads to is being compiled (`compileAfresh_of_pending`).
-/

namespace MetricLayer

open Schema Relation

namespace Registry

/-! ## Compiling a definition -/

/-- How the measures that a text refers to are compiled when nothing is kept. -/
abbrev PlainSource := String → Measure → Except Fault MeasureNode

/-- The operand of a path, compiling the measure it ends at. -/
def operandAfresh (r : Registry) (rules : WalkRules) (source : PlainSource) (entity path : String) :
    Except Fault Operand :=
  match r.resolve rules entity path with
  | .error f => .error f
  | .ok reference =>
    match r.field reference.targetEntity reference.fieldName with
    | .error f => .error f
    | .ok (.dimension d) => .ok (.dimension reference d.valueType)
    | .ok (.measure m) =>
      match source reference.targetEntity m with
      | .error f => .error f
      | .ok node => .ok (.measure reference node)

/-- The operands of a list of paths, up to the first that has none. -/
def operandsAfresh (r : Registry) (rules : WalkRules) (source : PlainSource) (entity : String) :
    List String → Except Fault (List Operand)
  | [] => .ok []
  | path :: paths =>
    match r.operandAfresh rules source entity path with
    | .error f => .error f
    | .ok o =>
      match r.operandsAfresh rules source entity paths with
      | .error f => .error f
      | .ok os => .ok (o :: os)

/-- Compiles a definition, given how the measures it refers to are compiled. -/
def defineAfresh (r : Registry) (rules : WalkRules) (source : PlainSource) (entity : String)
    (m : Measure) : Except Fault MeasureNode :=
  match r.operandsAfresh rules source entity (measurePaths entity m) with
  | .error f => .error f
  | .ok operands => m.assemble entity operands

variable {r : Registry} {rules : WalkRules} {source source' : PlainSource} {entity path : String}
  {m : Measure} {node : MeasureNode}

theorem Reads.of_resolve {ref : Reference} {upstream : Measure}
    (hpath : path ∈ measurePaths entity m) (hres : r.resolve rules entity path = .ok ref)
    (hfield : r.field ref.targetEntity ref.fieldName = .ok (.measure upstream)) :
    r.Reads rules entity m ref upstream := by
  obtain ⟨-, hrefPath, -⟩ := resolve_ok hres
  exact ⟨hrefPath ▸ hpath, hrefPath ▸ hres, hfield⟩

theorem operandAfresh_of_reads {ref : Reference} {upstream : Measure}
    (h : r.Reads rules entity m ref upstream) :
    r.operandAfresh rules source entity ref.path =
      (source ref.targetEntity upstream).map (Operand.measure ref) := by
  unfold operandAfresh
  rw [h.resolved]
  simp only [h.field]
  cases source ref.targetEntity upstream <;> rfl

/-- A path in the text of a measure has no operand only if it does not resolve, or resolves to a
measure that does not compile. -/
theorem operandAfresh_error {f : Fault} (hpath : path ∈ measurePaths entity m)
    (h : r.operandAfresh rules source entity path = .error f) :
    r.resolve rules entity path = .error f ∨
      ∃ ref upstream, r.Reads rules entity m ref upstream ∧
        source ref.targetEntity upstream = .error f := by
  unfold operandAfresh at h
  cases hres : r.resolve rules entity path with
  | error g => exact Or.inl (by simpa [hres] using h)
  | ok ref =>
    obtain ⟨field, hfield, -⟩ := field_of_resolve hres
    simp only [hres, hfield] at h
    cases field with
    | dimension d => simp at h
    | measure upstream =>
      refine Or.inr ⟨ref, upstream, .of_resolve hpath hres hfield, ?_⟩
      cases hsource : source ref.targetEntity upstream with
      | error g => simpa [hsource] using h
      | ok n => simp [hsource] at h

theorem operandAfresh_congr (hpath : path ∈ measurePaths entity m)
    (h : ∀ ref upstream, r.Reads rules entity m ref upstream →
      source ref.targetEntity upstream = source' ref.targetEntity upstream) :
    r.operandAfresh rules source entity path = r.operandAfresh rules source' entity path := by
  unfold operandAfresh
  cases hres : r.resolve rules entity path with
  | error f => rfl
  | ok ref =>
    obtain ⟨field, hfield, -⟩ := field_of_resolve hres
    simp only [hfield]
    cases field with
    | dimension d => rfl
    | measure upstream => simp only [h ref upstream (.of_resolve hpath hres hfield)]

theorem operandsAfresh_ok_iff {paths : List String} {operands : List Operand} :
    r.operandsAfresh rules source entity paths = .ok operands ↔
      List.Forall₂ (fun path o => r.operandAfresh rules source entity path = .ok o) paths
        operands := by
  induction paths generalizing operands with
  | nil => simp [operandsAfresh, eq_comm]
  | cons first rest ih =>
    unfold operandsAfresh
    rw [List.forall₂_cons_left_iff]
    cases ho : r.operandAfresh rules source entity first with
    | error f => simp
    | ok o =>
      cases hos : r.operandsAfresh rules source entity rest with
      | error f =>
        simp only [reduceCtorEq, false_iff]
        rintro ⟨o', os, -, hrest, -⟩
        rw [hos] at ih
        exact absurd (ih.2 hrest) (by simp)
      | ok os =>
        simp only [Except.ok.injEq]
        constructor
        · rintro rfl
          exact ⟨o, os, rfl, ih.1 hos, rfl⟩
        · rintro ⟨o', os', rfl, hrest, rfl⟩
          rw [Except.ok.inj (hos.symm.trans (ih.2 hrest))]

theorem operandsAfresh_ok {paths : List String} {operands : List Operand}
    (h : r.operandsAfresh rules source entity paths = .ok operands) (hpath : path ∈ paths) :
    ∃ o ∈ operands, r.operandAfresh rules source entity path = .ok o :=
  exists_right_of_forall₂ (operandsAfresh_ok_iff.1 h) hpath

theorem exists_path_of_operandsAfresh {paths : List String} {operands : List Operand} {o : Operand}
    (h : r.operandsAfresh rules source entity paths = .ok operands) (ho : o ∈ operands) :
    ∃ path ∈ paths, r.operandAfresh rules source entity path = .ok o :=
  exists_left_of_forall₂ (operandsAfresh_ok_iff.1 h) ho

theorem operandsAfresh_error {paths : List String} {f : Fault}
    (h : r.operandsAfresh rules source entity paths = .error f) :
    ∃ path ∈ paths, r.operandAfresh rules source entity path = .error f := by
  induction paths with
  | nil => simp [operandsAfresh] at h
  | cons first rest ih =>
    unfold operandsAfresh at h
    cases ho : r.operandAfresh rules source entity first with
    | error g => exact ⟨first, by simp, by simpa [ho] using h⟩
    | ok o =>
      cases hos : r.operandsAfresh rules source entity rest with
      | error g =>
        obtain rfl : g = f := by simpa [ho, hos] using h
        obtain ⟨path, hpath, herror⟩ := ih hos
        exact ⟨path, List.mem_cons_of_mem _ hpath, herror⟩
      | ok os => simp [ho, hos] at h

/-- A definition compiles alike over sources that agree on the measures its text refers to. -/
theorem defineAfresh_congr
    (h : ∀ ref upstream, r.Reads rules entity m ref upstream →
      source ref.targetEntity upstream = source' ref.targetEntity upstream) :
    r.defineAfresh rules source entity m = r.defineAfresh rules source' entity m := by
  have hoperands : ∀ paths ⊆ measurePaths entity m,
      r.operandsAfresh rules source entity paths = r.operandsAfresh rules source' entity paths := by
    intro paths
    induction paths with
    | nil => exact fun _ => rfl
    | cons first rest ih =>
      intro hsub
      obtain ⟨hfirst, hrest⟩ := List.cons_subset.1 hsub
      simp only [operandsAfresh, operandAfresh_congr hfirst h, ih hrest]
  unfold defineAfresh
  rw [hoperands _ (List.Subset.refl _)]

theorem defineAfresh_eq_ok_iff :
    r.defineAfresh rules source entity m = .ok node ↔
      ∃ operands, r.operandsAfresh rules source entity (measurePaths entity m) = .ok operands ∧
        m.assemble entity operands = .ok node := by
  unfold defineAfresh
  cases r.operandsAfresh rules source entity (measurePaths entity m) <;> simp

theorem defineAfresh_of_singleton (hpaths : measurePaths entity m = [path])
    (h : r.defineAfresh rules source entity m = .ok node) :
    ∃ o, r.operandAfresh rules source entity path = .ok o ∧ m.assemble entity [o] = .ok node := by
  obtain ⟨operands, hops, hassemble⟩ := defineAfresh_eq_ok_iff.1 h
  rw [hpaths, operandsAfresh_ok_iff] at hops
  obtain ⟨o, os, ho, hrest, rfl⟩ := List.forall₂_cons_left_iff.1 hops
  obtain rfl : os = [] := by simpa using hrest
  exact ⟨o, ho, hassemble⟩

/-- A definition compiles only if the measures that its text refers to do, which are then among its
operands. -/
theorem defineAfresh_ok (h : r.defineAfresh rules source entity m = .ok node) :
    ∃ operands, m.assemble entity operands = .ok node ∧
      ∀ ref upstream, r.Reads rules entity m ref upstream →
        ∃ n, source ref.targetEntity upstream = .ok n ∧ Operand.measure ref n ∈ operands := by
  obtain ⟨operands, hops, hassemble⟩ := defineAfresh_eq_ok_iff.1 h
  refine ⟨operands, hassemble, fun ref upstream hreads => ?_⟩
  obtain ⟨o, ho, hoperand⟩ := operandsAfresh_ok hops hreads.mem_paths
  rw [operandAfresh_of_reads hreads] at hoperand
  obtain ⟨n, hn, rfl⟩ := map_eq_ok_iff.1 hoperand
  exact ⟨n, hn, ho⟩

/-- A definition that compiles does so over every source that gives the same measures. -/
theorem defineAfresh_mono (h : r.defineAfresh rules source entity m = .ok node)
    (hsource : ∀ ref upstream n, r.Reads rules entity m ref upstream →
      source ref.targetEntity upstream = .ok n → source' ref.targetEntity upstream = .ok n) :
    r.defineAfresh rules source' entity m = .ok node := by
  obtain ⟨_, _, hreads⟩ := defineAfresh_ok h
  rw [← h]
  refine defineAfresh_congr fun ref upstream hread => ?_
  obtain ⟨n, hn, _⟩ := hreads ref upstream hread
  rw [hn, hsource ref upstream n hread hn]

theorem assemble_error {operands : List Operand} {f : Fault}
    (h : m.assemble entity operands = .error f) : f.kind = .typeMismatch := by
  unfold Measure.assemble at h
  split at h
  · simp at h
  · cases hk : m.aggregation operands with
    | ok kind => simp [hk] at h
    | error conflict =>
      simp only [hk, Except.error.injEq] at h
      rw [← h, Fault.kind]

/-- A measure that is put together takes the measures among its operands as they are, if it is
declared a number and there are any, and is computed from all of them otherwise. -/
theorem assemble_ok {operands : List Operand} (h : m.assemble entity operands = .ok node) :
    ((m.declared = some .number ∧ measuresOf operands ≠ []) ∧
        node = .reused ⟨m.name, entity, m.isPublic⟩ (m.sql.getD "") (measuresOf operands)) ∨
      (¬ (m.declared = some .number ∧ measuresOf operands ≠ []) ∧
        ∃ kind, m.aggregation operands = .ok kind ∧
          node = .computed ⟨m.name, entity, m.isPublic⟩ kind
            (kind.outputType (Measure.operandType? operands)) m.sql
            (operands.map Operand.reference)) := by
  unfold Measure.assemble at h
  split at h
  · next hreused => exact Or.inl ⟨hreused, (Except.ok.inj h).symm⟩
  · next hcomputed =>
    cases hk : m.aggregation operands with
    | error conflict => simp [hk] at h
    | ok kind =>
      simp only [hk, Except.ok.injEq] at h
      exact Or.inr ⟨hcomputed, kind, rfl, h.symm⟩

/-- A definition fails to compile if a path in its text does not resolve, if a measure it refers to
does not compile, or if its operands do not go together. -/
theorem defineAfresh_error {f : Fault} (h : r.defineAfresh rules source entity m = .error f) :
    (∃ path ∈ measurePaths entity m, r.resolve rules entity path = .error f) ∨
      (∃ ref upstream, r.Reads rules entity m ref upstream ∧
        source ref.targetEntity upstream = .error f) ∨
      f.kind = .typeMismatch := by
  unfold defineAfresh at h
  cases hops : r.operandsAfresh rules source entity (measurePaths entity m) with
  | error g =>
    obtain rfl : g = f := by simpa [hops] using h
    obtain ⟨path, hpath, herror⟩ := operandsAfresh_error hops
    rcases operandAfresh_error hpath herror with hres | hsource
    · exact Or.inl ⟨path, hpath, hres⟩
    · exact Or.inr (Or.inl hsource)
  | ok operands =>
    simp only [hops] at h
    exact Or.inr (Or.inr (assemble_error h))

/-! ## Compiling a measure and all that it depends on -/

/-- Compiles a measure of an entity and the measures it depends on. Of the registered measures,
`visiting` are being compiled, the outermost first, and `pending` are not. -/
def compileAfresh (r : Registry) (rules : WalkRules) (pending visiting : List String)
    (entity : String) (m : Measure) : Except Fault MeasureNode :=
  let key := Path.qualified entity m.name
  if _h : key ∈ pending then
    r.defineAfresh rules (r.compileAfresh rules (strike key pending) (visiting ++ [key])) entity m
  else .error (.cyclicReference (loopFrom key visiting))
termination_by pending.length
decreasing_by exact length_strike_lt _h

variable {pending visiting pending' visiting' : List String}

theorem compileAfresh_of_mem (h : Path.qualified entity m.name ∈ pending) :
    r.compileAfresh rules pending visiting entity m =
      r.defineAfresh rules
        (r.compileAfresh rules (strike (Path.qualified entity m.name) pending)
          (visiting ++ [Path.qualified entity m.name])) entity m := by
  rw [compileAfresh]
  simp only [h, dite_true]

theorem compileAfresh_of_notMem (h : Path.qualified entity m.name ∉ pending) :
    r.compileAfresh rules pending visiting entity m =
      .error (.cyclicReference (loopFrom (Path.qualified entity m.name) visiting)) := by
  rw [compileAfresh]
  simp only [h, dite_false]

theorem mem_pending_of_compileAfresh
    (h : r.compileAfresh rules pending visiting entity m = .ok node) :
    Path.qualified entity m.name ∈ pending := by
  by_contra hkey
  rw [compileAfresh_of_notMem hkey] at h
  simp at h

/-- A measure whose definition compiles is grounded if what its text refers to is. -/
theorem grounded_of_defineAfresh {a : String × String} (hm : r.measureAt? a.1 a.2 = some m)
    (h : r.defineAfresh rules source a.1 m = .ok node)
    (hsource : ∀ ref upstream n, r.Reads rules a.1 m ref upstream →
      source ref.targetEntity upstream = .ok n →
        r.Grounded rules (ref.targetEntity, ref.fieldName)) :
    r.Grounded rules a := by
  obtain ⟨_, _, hreads⟩ := defineAfresh_ok h
  refine Acc.intro a ?_
  rintro b ⟨m', ref, upstream, hm', hread, rfl⟩
  obtain rfl : m = m' := by rw [hm] at hm'; exact Option.some.inj hm'
  obtain ⟨n, hn, _⟩ := hreads ref upstream hread
  exact hsource ref upstream n hread hn

/-- A measure that compiles is grounded. The induction is on the measures that are not being
compiled yet. -/
theorem grounded_of_compileAfresh {a : String × String} (hm : r.measureAt? a.1 a.2 = some m)
    (h : r.compileAfresh rules pending visiting a.1 m = .ok node) : r.Grounded rules a := by
  induction hn : pending.length using Nat.strongRecOn
    generalizing pending visiting a m node with
  | ind n ih =>
    have hkey := mem_pending_of_compileAfresh h
    rw [compileAfresh_of_mem hkey] at h
    refine grounded_of_defineAfresh hm h fun ref upstream node' hread hcompile => ?_
    exact ih _ (hn ▸ length_strike_lt hkey) hread.registered hcompile rfl

/-- A measure compiles to the same node wherever it and all that it leads to are pending. The
induction is on the dependencies of the measure: no measure that it leads to leads back to it, so
striking it out strikes out none of them. -/
theorem compileAfresh_of_pending (s : Scope r rules) {a : String × String}
    (hgrounded : r.Grounded rules a) (ha : s.holds a) (hm : r.measureAt? a.1 a.2 = some m)
    (h : r.compileAfresh rules pending visiting a.1 m = .ok node)
    (hpending : ∀ b, ReflTransGen (r.DependsOn rules) a b → memberText b ∈ pending') :
    r.compileAfresh rules pending' visiting' a.1 m = .ok node := by
  induction hgrounded generalizing m node pending visiting pending' visiting' with
  | intro a hacc ih =>
    have hkey := qualified_eq_memberText hm
    have hmem' : Path.qualified a.1 m.name ∈ pending' := hkey ▸ hpending a .refl
    have hgrounded : r.Grounded rules a := Acc.intro a hacc
    rw [compileAfresh_of_mem (mem_pending_of_compileAfresh h)] at h
    rw [compileAfresh_of_mem hmem']
    refine defineAfresh_mono h fun ref upstream n hread hn => ?_
    have hdep := hread.dependsOn hm
    refine ih _ hdep (s.closed ha hdep) hread.registered hn fun b hb => ?_
    refine mem_strike.2 ⟨hpending b (.head hdep hb), fun htext => ?_⟩
    have hba : b = a := s.injective (s.closed_reflTransGen (s.closed ha hdep) hb) ha
      (htext.trans hkey)
    exact hgrounded.not_transGen .refl (.head' hdep (hba ▸ hb))

/-! ## Compiling a measure alone -/

/-- Compiles a measure of an entity while no other is being compiled. -/
def compileAlone (r : Registry) (rules : WalkRules) : PlainSource :=
  r.compileAfresh rules r.measureKeys []

/-- Compiles a measure of an entity alone, the registered one or another definition. -/
def compileMeasureAfresh (r : Registry) (rules : WalkRules) (entity : String) (m : Measure) :
    Except Fault MeasureNode :=
  if r.isRegistered entity m then r.compileAlone rules entity m
  else r.defineAfresh rules (r.compileAlone rules) entity m

/-! A compiled measure is called and shown as its definition says. -/

theorem label_of_assemble {operands : List Operand} (h : m.assemble entity operands = .ok node) :
    node.label = ⟨m.name, entity, m.isPublic⟩ := by
  rcases assemble_ok h with ⟨-, rfl⟩ | ⟨-, kind, -, rfl⟩ <;> rfl

theorem label_of_defineAfresh (h : r.defineAfresh rules source entity m = .ok node) :
    node.label = ⟨m.name, entity, m.isPublic⟩ := by
  obtain ⟨operands, hassemble, _⟩ := defineAfresh_ok h
  exact label_of_assemble hassemble

theorem label_of_compileMeasureAfresh (h : r.compileMeasureAfresh rules entity m = .ok node) :
    node.label = ⟨m.name, entity, m.isPublic⟩ := by
  unfold compileMeasureAfresh at h
  split at h
  · unfold compileAlone at h
    rw [compileAfresh_of_mem (mem_pending_of_compileAfresh h)] at h
    exact label_of_defineAfresh h
  · exact label_of_defineAfresh h

theorem name_of_compileMeasureAfresh (h : r.compileMeasureAfresh rules entity m = .ok node) :
    node.name = m.name := by
  rw [MeasureNode.name, label_of_compileMeasureAfresh h]

end Registry

end MetricLayer
