import MetricLayer.Proofs.Digraph.Components
import MetricLayer.Proofs.Digraph.WayBack
import Mathlib.Data.List.Forall2
import Mathlib.Data.Set.Subsingleton

/-!
# Cyclic components

A component holds a cycle if it has two nodes or if its node leads to itself, and then every node of
it leads back to itself inside the component. So the search for a way back finds one from the least
node, and the cycles found from a node correspond one to one to the cyclic components that the node
reaches (`cyclesFrom_exact`).
-/

namespace MetricLayer.Digraph

open Relation

variable {α : Type} {g : Digraph α} {le : α → α → Bool} {c members : List α} {start v w : α}

/-- A set of nodes that holds a cycle, if all of them belong together: it has two nodes, or one that
leads to itself. -/
def HoldsCycle (g : Digraph α) (s : Set α) : Prop := s.Nontrivial ∨ ∃ v ∈ s, g.Leads v v

/-- A circuit inside a set of nodes that begins at the least of them. -/
structure IsCycleOf (g : Digraph α) (le : α → α → Bool) (s : Set α) (c : List α) : Prop where
  circuit : IsCircuit c
  chain : c.IsChain g.Leads
  inside : ∀ v ∈ c, v ∈ s
  least : ∀ v ∈ c.head?, ∀ w ∈ s, le v w = true

/-! ## Inside a component -/

/-- A way from a node to one that leads back stays among the nodes that belong together with it. -/
theorem transGen_within (hmembers : ∀ x, g.Mutual v x → x ∈ members) (h : TransGen g.Leads v w)
    (hback : g.Reaches w v) : TransGen (g.LeadsWithin members) v w := by
  induction h with
  | single hvb => exact .single ⟨hvb, hmembers _ ⟨.single hvb, hback⟩⟩
  | @tail b x hvb hbx ih =>
    have hx : x ∈ members := hmembers x ⟨hvb.to_reflTransGen.tail hbx, hback⟩
    exact (ih (.head hbx hback)).tail ⟨hbx, hx⟩

/-- A component holds a cycle if and only if each of its nodes leads back to itself. -/
theorem holdsCycle_iff {s : Set α} (hs : ∀ x ∈ s, ∀ y, y ∈ s ↔ g.Mutual x y) (hv : v ∈ s) :
    g.HoldsCycle s ↔ TransGen g.Leads v v := by
  constructor
  · rintro (hpair | ⟨x, hx, hself⟩)
    · obtain ⟨x, hx, hne⟩ := hpair.exists_ne v
      obtain ⟨hvx, hxv⟩ := (hs v hv x).1 hx
      have hstep : TransGen g.Leads v x := (reflTransGen_iff_eq_or_transGen.1 hvx).resolve_left hne
      exact hstep.trans_left hxv
    · obtain ⟨hvx, hxv⟩ := (hs v hv x).1 hx
      exact TransGen.trans_right hvx ((TransGen.single hself).trans_left hxv)
  · intro h
    obtain ⟨x, hvx, hxv⟩ := TransGen.head'_iff.1 h
    have hx : x ∈ s := (hs v hv x).2 ⟨.single hvx, hxv⟩
    by_cases hne : x = v
    · exact Or.inr ⟨v, hv, hne ▸ hvx⟩
    · exact Or.inl ⟨x, hx, v, hv, hne⟩

/-- A node reaches a component that holds a cycle if and only if it reaches a node that leads back
to itself. -/
theorem exists_component_iff (hg : g.IsClosed) (hv : v ∈ g.nodes) :
    (∃ s, g.IsComponent s ∧ (∃ w ∈ s, g.Reaches v w) ∧ g.HoldsCycle s) ↔
      ∃ w, g.Reaches v w ∧ TransGen g.Leads w w := by
  constructor
  · rintro ⟨s, hs, ⟨w, hw, hvw⟩, hcycle⟩
    exact ⟨w, hvw, (holdsCycle_iff hs.mem_iff hw).1 hcycle⟩
  · rintro ⟨w, hvw, hloop⟩
    have hs : g.IsComponent {x | g.Mutual w x} := ⟨w, hg.mem_of_reaches hv hvw, rfl⟩
    have hw : w ∈ {x | g.Mutual w x} := ⟨.refl, .refl⟩
    exact ⟨_, hs, ⟨w, hw, hvw⟩, (holdsCycle_iff hs.mem_iff hw).2 hloop⟩

variable [DecidableEq α]

theorem isCyclic_iff (hc : c.Nodup) : g.isCyclic c = true ↔ g.HoldsCycle (nodeSet c) := by
  match c with
  | [] => simp [isCyclic, HoldsCycle, nodeSet, Set.Nontrivial]
  | [v] => simp [isCyclic, HoldsCycle, nodeSet, Set.Nontrivial, Leads]
  | v :: w :: rest =>
    have hne : v ≠ w := fun h => (List.nodup_cons.1 hc).1 (by simp [h])
    exact iff_of_true rfl (Or.inl ⟨v, by simp [nodeSet], w, by simp [nodeSet], hne⟩)

theorem exists_cycle? (htrans : ∀ a b c, le a b = true → le b c = true → le a c = true)
    (htotal : ∀ a b, (le a b || le b a) = true) (hv : v ∈ members)
    (hmembers : ∀ x ∈ members, ∀ y, y ∈ members ↔ g.Mutual x y)
    (hcycle : g.HoldsCycle (nodeSet members)) :
    ∃ c, g.cycle? le members = some c ∧ g.IsCycleOf le (nodeSet members) c := by
  have hsorted := List.pairwise_mergeSort htrans htotal members
  cases hsort : members.mergeSort le with
  | nil => exact absurd (List.mem_mergeSort.2 hv) (hsort ▸ List.not_mem_nil)
  | cons start rest =>
    have hmem : ∀ x, x ∈ start :: rest ↔ x ∈ members := fun x => by rw [← hsort, List.mem_mergeSort]
    have hstart : start ∈ members := (hmem start).1 (by simp)
    have hleast : ∀ w ∈ members, le start w = true := by
      intro w hw
      rw [hsort] at hsorted
      rcases List.mem_cons.1 ((hmem w).2 hw) with rfl | hw
      · simpa using htotal w w
      · exact (List.pairwise_cons.1 hsorted).1 w hw
    have hloop : TransGen (g.LeadsWithin members) start start :=
      transGen_within (fun x => (hmembers start hstart x).2)
        ((holdsCycle_iff hmembers hstart).1 hcycle) .refl
    obtain ⟨path, hpath, hway⟩ := exists_isWayBack le hstart hloop
    refine ⟨start :: path, by simp [cycle?, hsort, hpath], hway.isCircuit, ?_, ?_, ?_⟩
    · exact hway.chain.imp fun _ _ h => h.1
    · intro x hx
      rcases List.mem_cons.1 hx with rfl | hx
      · exact hstart
      · exact mem_of_isChain_leadsWithin hway.chain x hx
    · intro v hv w hw
      obtain rfl : start = v := by simpa using hv
      exact hleast w hw

/-! ## The cycles found from a node -/

theorem forall₂_map_filterMap {α β γ : Type} {R : β → γ → Prop} {h : α → β} {f : α → Option γ}
    {xs : List α} (hf : ∀ x ∈ xs, ∃ y, f x = some y ∧ R (h x) y) :
    List.Forall₂ R (xs.map h) (xs.filterMap f) := by
  induction xs with
  | nil => exact .nil
  | cons x xs ih =>
    obtain ⟨y, hy, hR⟩ := hf x (by simp)
    rw [List.map_cons, List.filterMap_cons_some hy]
    exact .cons hR (ih fun z hz => hf z (List.mem_cons_of_mem _ hz))

/-- **The cycles found from a node** correspond one to one to the components that the node reaches
and that hold a cycle: each is a circuit inside its component from the least node on. -/
theorem cyclesFrom_exact (hg : g.IsClosed) (hnodes : g.nodes.Nodup)
    (htrans : ∀ a b c, le a b = true → le b c = true → le a c = true)
    (htotal : ∀ a b, (le a b || le b a) = true) (v : α) :
    ∃ components : List (Set α), components.Nodup ∧
      (∀ s, s ∈ components ↔
        g.IsComponent s ∧ (∃ w ∈ s, g.Reaches v w) ∧ g.HoldsCycle s) ∧
      List.Forall₂ (g.IsCycleOf le) components (g.cyclesFrom le v) := by
  obtain ⟨hnodup, hall⟩ := components_exact hg
  let isFound (c : List α) : Bool := c.any (· ∈ g.reach v) && g.isCyclic c
  have hlisted : ∀ c ∈ g.components, c.Nodup ∧ ∃ x, x ∈ c := by
    intro c hc
    obtain ⟨x, hx, rfl⟩ := (mem_components hg).1 hc
    exact ⟨hnodes.filter _, x, (mem_component hg hx).2 ⟨.refl, .refl⟩⟩
  have hfound : ∀ c ∈ g.components, isFound c = true ↔
      (∃ w ∈ nodeSet c, g.Reaches v w) ∧ g.HoldsCycle (nodeSet c) := by
    intro c hc
    rw [Bool.and_eq_true, isCyclic_iff (hlisted c hc).1, List.any_eq_true]
    simp only [decide_eq_true_eq, mem_reach hg]
    exact Iff.rfl
  refine ⟨(g.components.filter isFound).map nodeSet, ?_, fun s => ?_, ?_⟩
  · exact hnodup.sublist (List.filter_sublist.map nodeSet)
  · rw [← hall, List.mem_map, List.mem_map]
    constructor
    · rintro ⟨c, hc, rfl⟩
      obtain ⟨hc, hp⟩ := List.mem_filter.1 hc
      exact ⟨⟨c, hc, rfl⟩, (hfound c hc).1 hp⟩
    · rintro ⟨⟨c, hc, rfl⟩, hp⟩
      exact ⟨c, List.mem_filter.2 ⟨hc, (hfound c hc).2 hp⟩, rfl⟩
  · refine forall₂_map_filterMap fun c hc => ?_
    obtain ⟨hc, hp⟩ := List.mem_filter.1 hc
    obtain ⟨x, hx⟩ := (hlisted c hc).2
    have hcomponent : g.IsComponent (nodeSet c) := (hall _).1 (List.mem_map_of_mem hc)
    exact exists_cycle? htrans htotal hx hcomponent.mem_iff ((hfound c hc).1 hp).2

end MetricLayer.Digraph
