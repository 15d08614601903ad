import MetricLayer.Measure.Compile
import MetricLayer.Proofs.Reference.Walk
import Mathlib.Data.List.Chain
import Mathlib.Logic.Relation

/-!
# What a measure depends on

A measure, given by the name of its entity and its own, depends on the measures that the paths in
its text resolve to (`DependsOn`). It is grounded if no sequence of dependencies goes on for ever
from it, so none leads back to where it was (`Grounded.not_transGen`).

A compilation knows measures by their texts `Entity.measure`. These tell the measures apart that the
measures of one entity can lead to, because every entity on the way and every member at the end of a
path is free of dots (`Scope.around`).
-/

namespace MetricLayer

open Schema Relation

/-- The text of a member, given with its entity. -/
def memberText (m : String × String) : String := Path.qualified m.1 m.2

namespace Registry

theorem qualifiedNames_eq_map (members : List (String × String)) :
    qualifiedNames members = members.map memberText := rfl

/-- The text of a measure of an entity refers, by a path that resolves, to a measure. -/
structure Reads (r : Registry) (rules : WalkRules) (entity : String) (m : Measure)
    (ref : Reference) (source : Measure) : Prop where
  mem_paths : ref.path ∈ measurePaths entity m
  resolved : r.resolve rules entity ref.path = .ok ref
  field : r.field ref.targetEntity ref.fieldName = .ok (.measure source)

/-- A measure depends on another if a path in its text resolves to it. -/
def DependsOn (r : Registry) (rules : WalkRules) (a b : String × String) : Prop :=
  ∃ m ref source, r.measureAt? a.1 a.2 = some m ∧ r.Reads rules a.1 m ref source ∧
    (ref.targetEntity, ref.fieldName) = b

/-- A measure from which no sequence of dependencies goes on for ever. -/
def Grounded (r : Registry) (rules : WalkRules) (a : String × String) : Prop :=
  Acc (Function.swap (r.DependsOn rules)) a

variable {r : Registry} {rules : WalkRules}

theorem Reads.registered {entity : String} {m source : Measure} {ref : Reference}
    (h : r.Reads rules entity m ref source) :
    r.measureAt? ref.targetEntity ref.fieldName = some source :=
  measureAt?_of_field h.field

theorem Reads.dependsOn {a : String × String} {m source : Measure} {ref : Reference}
    (h : r.Reads rules a.1 m ref source) (hm : r.measureAt? a.1 a.2 = some m) :
    r.DependsOn rules a (ref.targetEntity, ref.fieldName) :=
  ⟨m, ref, source, hm, h, rfl⟩

theorem qualified_eq_memberText {a : String × String} {m : Measure}
    (hm : r.measureAt? a.1 a.2 = some m) : Path.qualified a.1 m.name = memberText a := by
  rw [name_of_measureAt? hm, memberText]

theorem DependsOn.registered {a b : String × String} (h : r.DependsOn rules a b) :
    ∃ m, r.measureAt? b.1 b.2 = some m := by
  obtain ⟨m, ref, source, -, hreads, rfl⟩ := h
  exact ⟨source, hreads.registered⟩

theorem registered_of_reflTransGen {a b : String × String} {m : Measure}
    (ha : r.measureAt? a.1 a.2 = some m) (hab : ReflTransGen (r.DependsOn rules) a b) :
    ∃ n, r.measureAt? b.1 b.2 = some n := by
  rcases hab.cases_tail with rfl | ⟨c, -, hcb⟩
  · exact ⟨m, ha⟩
  · exact hcb.registered

theorem mem_measureKeys {a : String × String} {m : Measure}
    (h : r.measureAt? a.1 a.2 = some m) : memberText a ∈ r.measureKeys := by
  obtain ⟨e, he, hm⟩ := measureAt?_eq_some_iff.1 h
  obtain ⟨hmem, hname⟩ := entity?_eq_some_iff.1 he
  obtain ⟨hmeasure, hmeasureName⟩ := Entity.mem_of_measure? hm
  refine List.mem_flatMap.2 ⟨e, hmem, List.mem_map.2 ⟨m, hmeasure, ?_⟩⟩
  rw [hname, hmeasureName, memberText]

/-! ## Grounded measures -/

theorem Grounded.of_dependsOn {a b : String × String} (h : r.Grounded rules a)
    (hab : r.DependsOn rules a b) : r.Grounded rules b :=
  Acc.inv h hab

theorem Grounded.of_reflTransGen {a b : String × String} (h : r.Grounded rules a)
    (hab : ReflTransGen (r.DependsOn rules) a b) : r.Grounded rules b := by
  induction hab with
  | refl => exact h
  | tail _ hbc ih => exact ih.of_dependsOn hbc

/-- A grounded measure leads to no measure that leads back to itself. -/
theorem Grounded.not_transGen {a b : String × String} (h : r.Grounded rules a)
    (hab : ReflTransGen (r.DependsOn rules) a b) : ¬ TransGen (r.DependsOn rules) b b := by
  have hb : Acc (TransGen (Function.swap (r.DependsOn rules))) b := (h.of_reflTransGen hab).transGen
  clear hab
  induction hb with
  | intro x _ ih => exact fun hcycle => ih x (transGen_swap.2 hcycle) hcycle

/-! ## Telling measures apart by their texts -/

/-- Measures that hold what each of them depends on, no two of which have one text. -/
structure Scope (r : Registry) (rules : WalkRules) where
  holds : String × String → Prop
  closed : ∀ {a b}, holds a → r.DependsOn rules a b → holds b
  injective : ∀ {a b}, holds a → holds b → memberText a = memberText b → a = b

theorem Scope.closed_reflTransGen (s : Scope r rules) {a b : String × String} (ha : s.holds a)
    (hab : ReflTransGen (r.DependsOn rules) a b) : s.holds b := by
  induction hab with
  | refl => exact ha
  | tail _ hbc ih => exact s.closed ih hbc

/-- A measure that a text of an entity refers to is of the same entity, or free of dots with its
entity. -/
theorem Reads.dotFree {entity : String} {m source : Measure} {ref : Reference}
    (h : r.Reads rules entity m ref source) :
    DotFree ref.fieldName ∧ (ref.targetEntity = entity ∨ DotFree ref.targetEntity) := by
  refine ⟨?_, targetEntity_of_resolve h.resolved⟩
  rw [fieldName_of_resolve h.resolved]
  exact Path.dotFree_member _

/-- The measures of an entity with all that they can lead to. -/
def Scope.around (r : Registry) (rules : WalkRules) (entity : String) : Scope r rules where
  holds a := a.1 = entity ∨ (DotFree a.1 ∧ DotFree a.2)
  closed := by
    rintro a b ha ⟨m, ref, source, -, hread, rfl⟩
    obtain ⟨hmember, htarget | htarget⟩ := hread.dotFree
    · exact ha.imp htarget.trans fun ha => ⟨htarget ▸ ha.1, hmember⟩
    · exact Or.inr ⟨htarget, hmember⟩
  injective := by
    rintro a b ha hb hab
    rcases ha with ha | ⟨ha, ha'⟩
    · rcases hb with hb | ⟨hb, hb'⟩
      · have hentity : a.1 = b.1 := ha.trans hb.symm
        unfold memberText at hab
        rw [hentity] at hab
        exact Prod.ext hentity (Path.qualified_inj_right.1 hab)
      · have h := (Path.qualified_inj_of_dotFree hb hb').1 hab.symm
        exact Prod.ext h.1.symm h.2.symm
    · have h := (Path.qualified_inj_of_dotFree ha ha').1 hab
      exact Prod.ext h.1 h.2

theorem Scope.holds_of_reads {entity : String} {m source : Measure} {ref : Reference}
    (h : r.Reads rules entity m ref source) :
    (Scope.around r rules entity).holds (ref.targetEntity, ref.fieldName) :=
  h.dotFree.2.imp_right fun htarget => ⟨htarget, h.dotFree.1⟩

end Registry

end MetricLayer
