import MetricLayer.Proofs.Digraph.Reach
import Mathlib.Data.Set.Defs

/-!
# All components

A depth-first search that starts from every node leaves every node (`mem_postOrder`). Each component
is listed at the last of its nodes that the search leaves and nowhere else, so the list holds every
component once (`components_exact`).
-/

namespace MetricLayer.Digraph

variable {α : Type} {g : Digraph α} {v w : α}

/-! ## Searches that go on -/

/-- A search goes on from one state to another: nothing is forgotten, whatever is entered meanwhile
is left again, and only nodes are left. -/
structure Search.GoesOn (nodes : List α) (s s' : Search α) : Prop where
  entered : s.entered ⊆ s'.entered
  left : s.left ⊆ s'.left
  finished : ∀ x ∈ s'.entered, x ∈ s.entered ∨ x ∈ s'.left
  nodes : ∀ x ∈ s'.left, x ∈ s.left ∨ x ∈ nodes

namespace Search.GoesOn

variable {nodes : List α} {s s' s'' : Search α}

theorem refl (nodes : List α) (s : Search α) : GoesOn nodes s s where
  entered := List.Subset.refl _
  left := List.Subset.refl _
  finished _ hx := Or.inl hx
  nodes _ hx := Or.inl hx

theorem trans (h : GoesOn nodes s s') (h' : GoesOn nodes s' s'') : GoesOn nodes s s'' where
  entered _ hx := h'.entered (h.entered hx)
  left _ hx := h'.left (h.left hx)
  finished := by
    intro x hx
    rcases h'.finished x hx with hx | hx
    · exact (h.finished x hx).imp_right fun hx => h'.left hx
    · exact Or.inr hx
  nodes := by
    intro x hx
    rcases h'.nodes x hx with hx | hx
    · exact h.nodes x hx
    · exact Or.inr hx

/-- Entering a node, going on, and leaving the node again. -/
theorem around (h : GoesOn nodes ⟨v :: s.entered, s.left⟩ s') (hv : v ∈ nodes) :
    GoesOn nodes s ⟨s'.entered, s'.left ++ [v]⟩ where
  entered x hx := h.entered (List.mem_cons_of_mem _ hx)
  left x hx := List.mem_append_left _ (h.left hx)
  finished := by
    intro x hx
    rcases h.finished x hx with hx | hx
    · rcases List.mem_cons.1 hx with rfl | hx
      · exact Or.inr (by simp)
      · exact Or.inl hx
    · exact Or.inr (List.mem_append_left _ hx)
  nodes := by
    intro x hx
    rcases List.mem_append.1 hx with hx | hx
    · exact h.nodes x hx
    · exact Or.inr (List.mem_singleton.1 hx ▸ hv)

theorem foldl {f : Search α → α → Search α} {xs : List α} (hxs : xs ⊆ nodes)
    (hf : ∀ s, ∀ x ∈ nodes, GoesOn nodes s (f s x)) (s : Search α) :
    GoesOn nodes s (xs.foldl f s) := by
  induction xs generalizing s with
  | nil => exact .refl nodes s
  | cons x xs ih =>
    obtain ⟨hx, hxs⟩ := List.cons_subset.1 hxs
    exact (hf s x hx).trans (ih hxs (f s x))

end Search.GoesOn

variable [DecidableEq α]

theorem visit_goesOn (hg : g.IsClosed) (fuel : Nat) (s : Search α) (hv : v ∈ g.nodes) :
    s.GoesOn g.nodes (g.visit fuel s v) := by
  induction fuel generalizing s v with
  | zero => exact .refl _ s
  | succ fuel ih =>
    rw [visit]
    split
    · exact .refl _ s
    · exact (Search.GoesOn.foldl (fun w hw => hg v w hw) (fun s x hx => ih s hx) _).around hv

theorem mem_entered_visit (hg : g.IsClosed) (fuel : Nat) (s : Search α) :
    v ∈ (g.visit (fuel + 1) s v).entered := by
  rw [visit]
  split
  · assumption
  · have hgoes := Search.GoesOn.foldl (fun w hw => hg v w hw)
      (fun s x hx => visit_goesOn hg fuel s hx) ⟨v :: s.entered, s.left⟩
    exact hgoes.entered (by simp)

theorem mem_entered_foldl (hg : g.IsClosed) (fuel : Nat) {xs : List α} (hxs : xs ⊆ g.nodes)
    (s : Search α) (hv : v ∈ xs) : v ∈ (xs.foldl (g.visit (fuel + 1)) s).entered := by
  induction xs generalizing s with
  | nil => simp at hv
  | cons x xs ih =>
    have hrest : xs ⊆ g.nodes := (List.cons_subset.1 hxs).2
    rw [List.foldl_cons]
    rcases List.mem_cons.1 hv with rfl | hv
    · have hgoes := Search.GoesOn.foldl hrest (fun s x hx => visit_goesOn hg (fuel + 1) s hx)
        (g.visit (fuel + 1) s v)
      exact hgoes.entered (mem_entered_visit hg fuel s)
    · exact ih hrest _ hv

theorem mem_postOrder (hg : g.IsClosed) : v ∈ g.postOrder ↔ v ∈ g.nodes := by
  have hgoes := Search.GoesOn.foldl (List.Subset.refl g.nodes)
    (fun s x hx => visit_goesOn hg g.nodes.length s hx) ⟨[], []⟩
  constructor
  · intro hv
    exact (hgoes.nodes v hv).resolve_left (by simp)
  · intro hv
    obtain ⟨n, hn⟩ := Nat.exists_eq_add_of_lt (List.length_pos_of_mem hv)
    have hentered := mem_entered_foldl hg n (List.Subset.refl g.nodes) ⟨[], []⟩ hv
    rw [show n + 1 = g.nodes.length by omega] at hentered
    exact (hgoes.finished v hentered).resolve_left (by simp)

/-! ## The list of components -/

/-- The nodes of a list. -/
def nodeSet (c : List α) : Set α := {v | v ∈ c}

theorem component_congr (hg : g.IsClosed) (hv : v ∈ g.nodes) (h : g.Mutual v w) :
    g.component g.reachTable v = g.component g.reachTable w := by
  have hw := hg.mem_of_reaches hv h.1
  refine List.filter_congr fun x hx => Bool.eq_iff_iff.2 ?_
  rw [joined_iff hg hv hx, joined_iff hg hw hx]
  exact ⟨h.symm.trans, h.trans⟩

theorem nodeSet_component (hg : g.IsClosed) (hv : v ∈ g.nodes) :
    nodeSet (g.component g.reachTable v) = {w | g.Mutual v w} :=
  Set.ext fun _ => mem_component hg hv

variable {order : List α} {c : List α}

theorem mem_closingComponents (hg : g.IsClosed) (horder : order ⊆ g.nodes) :
    c ∈ g.closingComponents g.reachTable order ↔
      ∃ v ∈ order, c = g.component g.reachTable v := by
  induction order with
  | nil => simp [closingComponents]
  | cons v rest ih =>
    obtain ⟨hv, hrest⟩ := List.cons_subset.1 horder
    rw [closingComponents, List.exists_mem_cons_iff]
    split
    · next hlater =>
      rw [ih hrest]
      refine ⟨Or.inr, fun h => h.elim (fun hc => ?_) id⟩
      obtain ⟨w, hw, hjoined⟩ := List.any_eq_true.1 hlater
      exact ⟨w, hw, hc.trans (component_congr hg hv ((joined_iff hg hv (hrest hw)).1 hjoined))⟩
    · rw [List.mem_cons, ih hrest]

theorem nodup_closingComponents (hg : g.IsClosed) (horder : order ⊆ g.nodes) :
    ((g.closingComponents g.reachTable order).map nodeSet).Nodup := by
  induction order with
  | nil => simp [closingComponents]
  | cons v rest ih =>
    obtain ⟨hv, hrest⟩ := List.cons_subset.1 horder
    rw [closingComponents]
    split
    · exact ih hrest
    · next hlast =>
      rw [List.map_cons, List.nodup_cons]
      refine ⟨fun hmem => ?_, ih hrest⟩
      obtain ⟨c, hc, hset⟩ := List.mem_map.1 hmem
      obtain ⟨w, hw, rfl⟩ := (mem_closingComponents hg hrest).1 hc
      rw [nodeSet_component hg hv, nodeSet_component hg (hrest hw)] at hset
      have hself : v ∈ {x | g.Mutual v x} := ⟨.refl, .refl⟩
      rw [← hset] at hself
      have hwv : g.Mutual w v := hself
      exact hlast (List.any_eq_true.2 ⟨w, hw, (joined_iff hg hv (hrest hw)).2 hwv.symm⟩)

theorem mem_components (hg : g.IsClosed) :
    c ∈ g.components ↔ ∃ v ∈ g.nodes, c = g.component g.reachTable v := by
  rw [components, mem_closingComponents hg fun x hx => (mem_postOrder hg).1 hx]
  simp only [mem_postOrder hg]

/-- The list of components holds every component once and nothing else. -/
theorem components_exact (hg : g.IsClosed) :
    (g.components.map nodeSet).Nodup ∧ ∀ s, s ∈ g.components.map nodeSet ↔ g.IsComponent s := by
  refine ⟨nodup_closingComponents hg fun x hx => (mem_postOrder hg).1 hx, fun s => ?_⟩
  rw [List.mem_map]
  constructor
  · rintro ⟨c, hc, rfl⟩
    obtain ⟨v, hv, rfl⟩ := (mem_components hg).1 hc
    exact ⟨v, hv, nodeSet_component hg hv⟩
  · rintro ⟨v, hv, rfl⟩
    exact ⟨_, (mem_components hg).2 ⟨v, hv, rfl⟩, nodeSet_component hg hv⟩

end MetricLayer.Digraph
