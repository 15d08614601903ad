import MetricLayer.Proofs.Digraph.CyclicComponents

/-!
# The order of the nodes

Listing the nodes of a graph in another order, with the same successors, gives the same components,
in another order and each with its nodes in another order. The cycle that is shown for a component
depends on its nodes only and not on their order, so the cycles found from a node are the same ones,
in another order (`Reorders.cyclesFrom_perm`).
-/

namespace MetricLayer.Digraph

variable {α : Type} {g g' : Digraph α} {le : α → α → Bool} {c c' s : List α} {v : α}

/-- Two graphs have the same nodes, in whatever order, and the same successors of each. -/
structure Reorders (g g' : Digraph α) : Prop where
  nodes : g.nodes.Perm g'.nodes
  next : g.next = g'.next

theorem Reorders.leads_eq (h : g.Reorders g') : g.Leads = g'.Leads := by
  funext v w
  rw [Leads, Leads, h.next]

theorem Reorders.reaches_eq (h : g.Reorders g') : g.Reaches = g'.Reaches :=
  congrArg Relation.ReflTransGen h.leads_eq

theorem Reorders.isClosed (h : g.Reorders g') (hg : g.IsClosed) : g'.IsClosed :=
  fun v w hvw => h.nodes.mem_iff.1 (hg v w (h.leads_eq ▸ hvw))

theorem mergeSort_eq_of_perm (htrans : ∀ a b c, le a b = true → le b c = true → le a c = true)
    (htotal : ∀ a b, (le a b || le b a) = true)
    (hantisymm : ∀ a b, le a b = true → le b a = true → a = b) (hc : c.Perm c') :
    c.mergeSort le = c'.mergeSort le :=
  List.Perm.eq_of_pairwise (fun a b _ _ => hantisymm a b)
    (List.pairwise_mergeSort htrans htotal c) (List.pairwise_mergeSort htrans htotal c')
    ((List.mergeSort_perm c le).trans (hc.trans (List.mergeSort_perm c' le).symm))

variable [DecidableEq α]

/-! ## One component -/

theorem Reorders.isCyclic_eq (h : g.Reorders g') (hc : c.Perm c') :
    g.isCyclic c = g'.isCyclic c' := by
  match c, c', hc.length_eq with
  | [], [], _ => rfl
  | [v], [w], _ =>
    obtain rfl : v = w := by simpa using hc
    simp only [isCyclic, h.next]
  | _ :: _ :: _, _ :: _ :: _, _ => rfl

theorem Reorders.component_perm (h : g.Reorders g') (hg : g.IsClosed) (hv : v ∈ g.nodes) :
    (g.component g.reachTable v).Perm (g'.component g'.reachTable v) := by
  have hjoined : ∀ w ∈ g'.nodes, joined g.reachTable v w = joined g'.reachTable v w := by
    intro w hw
    rw [Bool.eq_iff_iff, joined_iff hg hv (h.nodes.mem_iff.2 hw),
      joined_iff (h.isClosed hg) (h.nodes.mem_iff.1 hv) hw, Mutual, Mutual, h.reaches_eq]
  unfold component
  rw [← List.filter_congr hjoined]
  exact h.nodes.filter _

theorem Reorders.walkBack_eq (h : g.Reorders g') (hc : c.Perm c') (start : α) (fuel : Nat) :
    g.walkBack le c start fuel = g'.walkBack le c' start fuel := by
  induction fuel with
  | zero => rfl
  | succ fuel ih =>
    funext v entered
    simp only [walkBack, ih, h.next, hc.mem_iff]

/-! ## All components

A list of the components is told apart from one in another order by nothing but the order, once the
nodes of each component are sorted. -/

theorem mem_sorted_components (hg : g.IsClosed) :
    s ∈ g.components.map (·.mergeSort le) ↔
      ∃ v ∈ g.nodes, s = (g.component g.reachTable v).mergeSort le := by
  rw [List.mem_map]
  constructor
  · rintro ⟨c, hc, rfl⟩
    obtain ⟨v, hv, rfl⟩ := (mem_components hg).1 hc
    exact ⟨v, hv, rfl⟩
  · rintro ⟨v, hv, rfl⟩
    exact ⟨_, (mem_components hg).2 ⟨v, hv, rfl⟩, rfl⟩

theorem nodup_sorted_components (hg : g.IsClosed) :
    (g.components.map (·.mergeSort le)).Nodup := by
  have hset : nodeSet ∘ (·.mergeSort le) = (nodeSet : List α → Set α) :=
    funext fun c => Set.ext fun x => List.mem_mergeSort
  refine List.Nodup.of_map nodeSet ?_
  rw [List.map_map, hset]
  exact (components_exact hg).1

section Sorting

variable (htrans : ∀ a b c, le a b = true → le b c = true → le a c = true)
  (htotal : ∀ a b, (le a b || le b a) = true)
  (hantisymm : ∀ a b, le a b = true → le b a = true → a = b)

include htrans htotal hantisymm

theorem Reorders.sorted_components_perm (h : g.Reorders g') (hg : g.IsClosed) :
    (g.components.map (·.mergeSort le)).Perm (g'.components.map (·.mergeSort le)) := by
  have hg' := h.isClosed hg
  refine (List.perm_ext_iff_of_nodup (nodup_sorted_components hg)
    (nodup_sorted_components hg')).2 fun s => ?_
  rw [mem_sorted_components hg, mem_sorted_components hg']
  refine exists_congr fun v => ?_
  rw [h.nodes.mem_iff]
  refine and_congr_right fun hv => ?_
  rw [mergeSort_eq_of_perm htrans htotal hantisymm
    (h.component_perm hg (h.nodes.mem_iff.2 hv))]

theorem Reorders.cycle?_eq (h : g.Reorders g') (hc : c.Perm c') :
    g.cycle? le c = g'.cycle? le c' := by
  unfold cycle?
  rw [mergeSort_eq_of_perm htrans htotal hantisymm hc]
  cases c'.mergeSort le with
  | nil => rfl
  | cons start rest => simp only [h.walkBack_eq hc, hc.length_eq]

/-- The cycles found from a node can be told from the sorted components. -/
theorem cyclesFrom_eq_sorted (g : Digraph α) (v : α) :
    g.cyclesFrom le v =
      ((g.components.map (·.mergeSort le)).filter fun c =>
        c.any (· ∈ g.reach v) && g.isCyclic c).filterMap (g.cycle? le) := by
  have hself : g.Reorders g := ⟨.refl _, rfl⟩
  have hsort : ∀ c : List α, (c.mergeSort le).Perm c := fun c => List.mergeSort_perm c le
  have hfound : ∀ c ∈ g.components, (c.any (· ∈ g.reach v) && g.isCyclic c) =
      ((c.mergeSort le).any (· ∈ g.reach v) && g.isCyclic (c.mergeSort le)) := fun c _ => by
    rw [(hsort c).any_eq, hself.isCyclic_eq (hsort c)]
  have hcycle : g.cycle? le ∘ (·.mergeSort le) = g.cycle? le :=
    funext fun c => hself.cycle?_eq htrans htotal hantisymm (hsort c)
  rw [List.filter_map, List.filterMap_map, hcycle, cyclesFrom, List.filter_congr hfound]
  rfl

/-- **The cycles found from a node** are the same ones in another order. -/
theorem Reorders.cyclesFrom_perm (h : g.Reorders g') (hg : g.IsClosed) (v : α) :
    (g.cyclesFrom le v).Perm (g'.cyclesFrom le v) := by
  have hreach : ∀ x, x ∈ g.reach v ↔ x ∈ g'.reach v := fun x => by
    rw [mem_reach hg, mem_reach (h.isClosed hg), h.reaches_eq]
  have hfound : ∀ c, (c.any (· ∈ g.reach v) && g.isCyclic c) =
      (c.any (· ∈ g'.reach v) && g'.isCyclic c) := fun c => by
    simp only [hreach, h.isCyclic_eq (.refl c)]
  have hcycle : g.cycle? le = g'.cycle? le :=
    funext fun c => h.cycle?_eq htrans htotal hantisymm (.refl c)
  rw [cyclesFrom_eq_sorted htrans htotal hantisymm g,
    cyclesFrom_eq_sorted htrans htotal hantisymm g',
    hcycle]
  simp only [hfound]
  exact ((h.sorted_components_perm htrans htotal hantisymm hg).filter _).filterMap _

end Sorting

end MetricLayer.Digraph
