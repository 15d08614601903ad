import MetricLayer.Plan.Review
import MetricLayer.Proofs.Digraph.CyclicComponents
import MetricLayer.Proofs.Registry.Lookup
import MetricLayer.Proofs.Text.ByteOrder

/-!
# Cycles of inclusions

An entity includes another if both are registered and it declares an inclusion of the other. The
include graph holds exactly these inclusions, so what is known of the cycles found in a graph is
known of the cycles that a review reports: one for each component of entities that include each
other, if the reviewed entity leads there (`review_includeCycles`).
-/

namespace MetricLayer

open Relation Schema

namespace Registry

variable {r : Registry} {a b : String}

/-- An entity includes members of another, and both are registered. -/
def Includes (r : Registry) (a b : String) : Prop :=
  ∃ e, r.entity? a = some e ∧ r.contains b = true ∧ e.declaresInclusion b = true

/-- The entities that lead to one of them and back by inclusions. -/
def IsIncludeComponent (r : Registry) (s : Set String) : Prop :=
  ∃ a, r.contains a = true ∧
    s = {b | ReflTransGen r.Includes a b ∧ ReflTransGen r.Includes b a}

/-- A set of entities holds a cycle of inclusions if it has two of them or one that includes
itself. -/
def HoldsIncludeCycle (r : Registry) (s : Set String) : Prop :=
  s.Nontrivial ∨ ∃ a ∈ s, r.Includes a a

/-- Entities of a set, each of which includes the next: they begin and end with the entity of the
least name, in the order of its bytes, and no other occurs twice. -/
structure IsIncludeCycle (r : Registry) (s : Set String) (cycle : List String) : Prop where
  circuit : IsCircuit cycle
  includes : cycle.IsChain r.Includes
  inside : ∀ a ∈ cycle, a ∈ s
  least : ∀ a ∈ cycle.head?, ∀ b ∈ s, utf8Bytes a ≤ utf8Bytes b

/-! ## The include graph -/

theorem contains_iff_mem_names : r.contains a = true ↔ a ∈ r.names := by
  rw [contains, Option.isSome_iff_exists, names, List.mem_map]
  exact exists_congr fun e => entity?_eq_some_iff

theorem mem_includeTargets {e : Entity} :
    b ∈ r.includeTargets e ↔ r.contains b = true ∧ e.declaresInclusion b = true := by
  rw [includeTargets, List.mem_eraseDups, List.mem_filter, List.mem_map, and_comm]
  refine and_congr_right fun _ => ?_
  rw [Entity.declaresInclusion, List.any_eq_true]
  refine exists_congr fun rel => ?_
  rw [List.mem_filter, Bool.and_eq_true, decide_eq_true_eq, decide_eq_true_eq]
  exact and_assoc

theorem next_includeGraph : r.includeGraph.next a =
    ((r.entity? a).map fun e => (r.includeTargets e).reverse).getD [] := by
  show ((r.entities.map fun e => (e.name, (r.includeTargets e).reverse)).lookup a).getD [] = _
  rw [lookup_map, entity?]

theorem leads_includeGraph : r.includeGraph.Leads a b ↔ r.Includes a b := by
  rw [Digraph.Leads, next_includeGraph, Includes]
  cases r.entity? a with
  | none => simp
  | some e => simp [mem_includeTargets]

instance (r : Registry) : DecidableRel r.Includes := fun a b =>
  decidable_of_iff (b ∈ r.includeGraph.next a) leads_includeGraph

theorem leads_includeGraph_eq : r.includeGraph.Leads = r.Includes := by
  funext a b
  exact propext leads_includeGraph

theorem reaches_includeGraph_eq : r.includeGraph.Reaches = ReflTransGen r.Includes :=
  congrArg ReflTransGen leads_includeGraph_eq

theorem isClosed_includeGraph (r : Registry) : r.includeGraph.IsClosed := by
  intro a b hab
  obtain ⟨e, -, hb, -⟩ := leads_includeGraph.1 hab
  exact contains_iff_mem_names.1 hb

theorem isComponent_includeGraph {s : Set String} :
    r.includeGraph.IsComponent s ↔ r.IsIncludeComponent s := by
  refine exists_congr fun a => and_congr contains_iff_mem_names.symm ?_
  unfold Digraph.Mutual
  rw [reaches_includeGraph_eq]

theorem holdsCycle_includeGraph {s : Set String} :
    r.includeGraph.HoldsCycle s ↔ r.HoldsIncludeCycle s := by
  rw [Digraph.HoldsCycle, leads_includeGraph_eq, HoldsIncludeCycle]

theorem isIncludeCycle_of_isCycleOf {s : Set String} {cycle : List String}
    (h : r.includeGraph.IsCycleOf (fun a b => a ≤ b) s cycle) : r.IsIncludeCycle s cycle where
  circuit := h.circuit
  includes := leads_includeGraph_eq ▸ h.chain
  inside := h.inside
  least a ha b hb := le_iff_utf8Bytes_le.1 (of_decide_eq_true (h.least a ha b hb))

/-! ## The cycles of an entity -/

theorem decide_le_trans (a b c : String) (hab : decide (a ≤ b) = true)
    (hbc : decide (b ≤ c) = true) : decide (a ≤ c) = true :=
  decide_eq_true (le_trans (of_decide_eq_true hab) (of_decide_eq_true hbc))

theorem decide_le_total (a b : String) : (decide (a ≤ b) || decide (b ≤ a)) = true := by
  simpa using le_total a b

/-- The cycles found from an entity correspond to the components with a cycle that it leads to. -/
theorem includeCycles_exact (h : r.contains a = true) :
    ∃ components : List (Set String), components.Nodup ∧
      (∀ s, s ∈ components ↔
        r.IsIncludeComponent s ∧ (∃ b ∈ s, ReflTransGen r.Includes a b) ∧
          r.HoldsIncludeCycle s) ∧
      List.Forall₂ r.IsIncludeCycle components (r.includeCycles a) := by
  obtain ⟨components, hnodup, hall, hcycles⟩ :=
    Digraph.cyclesFrom_exact (isClosed_includeGraph r) r.names_nodup decide_le_trans
      decide_le_total a
  refine ⟨components, hnodup, fun s => ?_, ?_⟩
  · rw [hall, isComponent_includeGraph, holdsCycle_includeGraph, reaches_includeGraph_eq]
  · rw [includeCycles, if_pos h]
    exact hcycles.imp fun _ _ => isIncludeCycle_of_isCycleOf

theorem includeCycles_ne_nil_iff (h : r.contains a = true) :
    r.includeCycles a ≠ [] ↔ ∃ b, ReflTransGen r.Includes a b ∧ TransGen r.Includes b b := by
  obtain ⟨components, -, hall, hcycles⟩ := includeCycles_exact h
  have hsome : r.includeCycles a ≠ [] ↔ ∃ s, s ∈ components := by
    rw [← List.length_pos_iff, ← hcycles.length_eq, List.length_pos_iff_exists_mem]
  have hloop := Digraph.exists_component_iff (isClosed_includeGraph r) (contains_iff_mem_names.1 h)
  rw [leads_includeGraph_eq, reaches_includeGraph_eq] at hloop
  rw [hsome, ← hloop]
  refine exists_congr fun s => ?_
  rw [hall, isComponent_includeGraph, holdsCycle_includeGraph]

theorem mem_includeCycles (h : r.contains a = true) {cycle : List String}
    (hcycle : cycle ∈ r.includeCycles a) :
    ∃ s, r.IsIncludeComponent s ∧ r.IsIncludeCycle s cycle ∧
      ∀ b ∈ s, ReflTransGen r.Includes a b := by
  obtain ⟨components, -, hall, hcycles⟩ := includeCycles_exact h
  obtain ⟨s, hs, hcycle⟩ := exists_left_of_forall₂ hcycles hcycle
  obtain ⟨hcomponent, ⟨b, hb, hab⟩, -⟩ := (hall s).1 hs
  refine ⟨s, hcomponent, hcycle, fun x hx => ?_⟩
  obtain ⟨v, -, rfl⟩ := hcomponent
  exact (hab.trans hb.2).trans hx.1

end Registry

/-! ## Reports

Two views that re-export each other's members, and a third that re-exports its own. -/

namespace Reports

def daily : Entity where
  name := "daily"
  kind := .view
  includes := ["weekly.total"]

def weekly : Entity where
  name := "weekly"
  kind := .view
  includes := ["daily.total", "monthly.sum"]

def monthly : Entity where
  name := "monthly"
  kind := .view
  includes := ["monthly.total"]

def registry : Registry := Shop.registryOf [weekly, daily, monthly]

def plan : Plan := { entity := "weekly", kind := .view, isPublic := true }

end Reports

/-! ## What a review reports -/

namespace Plan

/-- A review reports the cycles of inclusions before all that it reports if they are not checked. -/
theorem review_eq_append {r : Registry} {p : Plan} {walk : WalkRules} {rules : ReviewRules}
    (hentity : r.contains p.entity = true) (hrules : rules.includeCycles = true) :
    p.review r walk rules =
      ((r.includeCycles p.entity).map fun cycle => .ofFault (.cyclicReference cycle)) ++
        p.review r walk { rules with includeCycles := false } := by
  unfold review entityFaults
  rw [if_pos hentity, if_pos hrules, if_pos hentity]
  simp

/-- **Inclusions.** A review of a plan whose entity is registered reports, before all that it
reports if inclusions are not checked, one cycle for each component of entities that include each
other, that the plan's entity leads to and that holds a cycle. The cycle begins and ends at the
entity of the component that has the least name, stays in the component, and repeats no other
entity. So none is reported if and only if the entity leads to no entity that leads back to
itself. -/
theorem review_includeCycles {r : Registry} {p : Plan} (walk : WalkRules) {rules : ReviewRules}
    (hentity : r.contains p.entity = true) (hrules : rules.includeCycles = true) :
    ∃ (components : List (Set String)) (cycles : List (List String)),
      p.review r walk rules =
        (cycles.map fun cycle => .ofFault (.cyclicReference cycle)) ++
          p.review r walk { rules with includeCycles := false } ∧
      components.Nodup ∧
      (∀ s, s ∈ components ↔
        r.IsIncludeComponent s ∧ (∃ a ∈ s, ReflTransGen r.Includes p.entity a) ∧
          r.HoldsIncludeCycle s) ∧
      List.Forall₂ r.IsIncludeCycle components cycles ∧
      (cycles ≠ [] ↔
        ∃ a, ReflTransGen r.Includes p.entity a ∧ TransGen r.Includes a a) := by
  obtain ⟨components, hnodup, hall, hcycles⟩ := Registry.includeCycles_exact hentity
  exact ⟨components, r.includeCycles p.entity, review_eq_append hentity hrules, hnodup, hall,
    hcycles, Registry.includeCycles_ne_nil_iff hentity⟩

/-- Of the reports, two include each other and lead to the one that includes itself. -/
theorem review_includeCycles_reports :
    Reports.registry.contains Reports.plan.entity = true ∧
      ∃ (components : List (Set String)) (cycles : List (List String)),
        cycles ≠ [] ∧
        Reports.plan.review Reports.registry {} {} =
          (cycles.map fun cycle => .ofFault (.cyclicReference cycle)) ++
            Reports.plan.review Reports.registry {} { includeCycles := false } ∧
        components.Nodup ∧
        (∀ s, s ∈ components ↔
          Reports.registry.IsIncludeComponent s ∧
            (∃ a ∈ s, ReflTransGen Reports.registry.Includes Reports.plan.entity a) ∧
            Reports.registry.HoldsIncludeCycle s) ∧
        List.Forall₂ Reports.registry.IsIncludeCycle components cycles := by
  have hentity : Reports.registry.contains Reports.plan.entity = true := by decide +kernel
  have hrules : ({} : ReviewRules).includeCycles = true := rfl
  have hmonthly : Reports.registry.Includes Reports.plan.entity "monthly" := by decide +kernel
  have hself : Reports.registry.Includes "monthly" "monthly" := by decide +kernel
  obtain ⟨components, cycles, hreview, hnodup, hall, hcycles, hsome⟩ :=
    review_includeCycles {} hentity hrules
  exact ⟨hentity, components, cycles, hsome.2 ⟨"monthly", .single hmonthly, .single hself⟩,
    hreview, hnodup, hall, hcycles⟩

end Plan

end MetricLayer
