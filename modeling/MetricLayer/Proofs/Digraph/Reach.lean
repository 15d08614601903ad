import MetricLayer.Digraph.PostOrder
import Mathlib.Data.List.Nodup
import Mathlib.Logic.Relation

/-!
# Reaching nodes

A closure goes on from the newest nodes until they lead to nothing new. Each of its steps but the
last finds a node that was not found before, so as many steps as there are nodes are enough, and the
nodes it finds are exactly those that can be reached (`mem_reach`). The table of what each node
reaches therefore tells which nodes belong to one component (`mem_component`).
-/

namespace MetricLayer

theorem lookup_map {α κ β : Type} [DecidableEq κ] (key : α → κ) (f : α → β) (k : κ) (xs : List α) :
    (xs.map fun x => (key x, f x)).lookup k = (xs.find? fun x => key x = k).map f := by
  induction xs with
  | nil => rfl
  | cons x xs ih =>
    rw [List.map_cons, List.lookup_cons, List.find?_cons, ih]
    by_cases h : key x = k
    · simp [h]
    · have hne : (k == key x) = false := by simpa using fun hk => h hk.symm
      simp [h, hne]

namespace Digraph

open Relation

variable {α : Type} {g : Digraph α} {u v w : α}

/-- A node leads to its successors. -/
def Leads (g : Digraph α) (v w : α) : Prop := w ∈ g.next v

/-- A node reaches what it leads to in any number of steps, itself among them. -/
abbrev Reaches (g : Digraph α) : α → α → Prop := ReflTransGen g.Leads

/-- Nodes lead to nodes only. -/
def IsClosed (g : Digraph α) : Prop := ∀ v w, g.Leads v w → w ∈ g.nodes

theorem IsClosed.mem_of_reaches (hg : g.IsClosed) (hv : v ∈ g.nodes) (h : g.Reaches v w) :
    w ∈ g.nodes := by
  rcases h.cases_tail with rfl | ⟨x, -, hxw⟩
  · exact hv
  · exact hg x w hxw

/-- Two nodes belong together if each reaches the other. -/
def Mutual (g : Digraph α) (v w : α) : Prop := g.Reaches v w ∧ g.Reaches w v

theorem Mutual.symm (h : g.Mutual v w) : g.Mutual w v := ⟨h.2, h.1⟩

theorem Mutual.trans (h : g.Mutual u v) (h' : g.Mutual v w) : g.Mutual u w :=
  ⟨h.1.trans h'.1, h'.2.trans h.2⟩

/-- The nodes that belong together with one of them. -/
def IsComponent (g : Digraph α) (s : Set α) : Prop := ∃ v ∈ g.nodes, s = {w | g.Mutual v w}

theorem IsComponent.mem_iff {s : Set α} (h : g.IsComponent s) :
    ∀ v ∈ s, ∀ w, w ∈ s ↔ g.Mutual v w := by
  obtain ⟨u, -, rfl⟩ := h
  intro v hv w
  exact ⟨hv.symm.trans, hv.trans⟩

/-! ## Closures -/

variable {found newest : List α}

/-- What is known of a closure around a node while it goes on: all that is found can be reached, and
what a node leads to is found unless the node is among the newest. -/
structure Exploring (g : Digraph α) (v : α) (found newest : List α) : Prop where
  root : v ∈ found
  reached : ∀ w ∈ found, g.Reaches v w
  newest_found : newest ⊆ found
  explored : ∀ x ∈ found, x ∉ newest → ∀ y, g.Leads x y → y ∈ found

theorem exploring_singleton (v : α) : Exploring g v [v] [v] where
  root := by simp
  reached w hw := by rw [List.mem_singleton.1 hw]
  newest_found := List.Subset.refl _
  explored x hx hnew := absurd hx hnew

theorem Exploring.mem_iff (h : Exploring g v found []) : w ∈ found ↔ g.Reaches v w := by
  refine ⟨h.reached w, fun hvw => ?_⟩
  induction hvw with
  | refl => exact h.root
  | tail _ hbc ih => exact h.explored _ ih (by simp) _ hbc

variable [DecidableEq α]

/-- What the newest nodes lead to that is not found yet. -/
def fresh (g : Digraph α) (found newest : List α) : List α :=
  ((newest.flatMap g.next).filter (· ∉ found)).eraseDups

theorem mem_fresh : w ∈ g.fresh found newest ↔ w ∉ found ∧ ∃ x ∈ newest, g.Leads x w := by
  simp only [fresh, List.mem_eraseDups, List.mem_filter, List.mem_flatMap, decide_eq_true_eq, Leads]
  exact and_comm

theorem closure_succ (steps : Nat) :
    g.closure (steps + 1) found newest =
      if (g.fresh found newest).isEmpty then found
      else g.closure steps (found ++ g.fresh found newest) (g.fresh found newest) := rfl

namespace Exploring

theorem mem_or_mem_fresh (h : Exploring g v found newest) {x y : α} (hx : x ∈ found)
    (hxy : g.Leads x y) : y ∈ found ∨ y ∈ g.fresh found newest := by
  by_cases hy : y ∈ found
  · exact Or.inl hy
  · have hnew : x ∈ newest := not_not.1 fun hnew => hy (h.explored x hx hnew y hxy)
    exact Or.inr (mem_fresh.2 ⟨hy, x, hnew, hxy⟩)

theorem step (h : Exploring g v found newest) :
    Exploring g v (found ++ g.fresh found newest) (g.fresh found newest) where
  root := List.mem_append_left _ h.root
  reached := by
    intro w hw
    rcases List.mem_append.1 hw with hw | hw
    · exact h.reached w hw
    · obtain ⟨-, x, hx, hxw⟩ := mem_fresh.1 hw
      exact (h.reached x (h.newest_found hx)).tail hxw
  newest_found := List.subset_append_right _ _
  explored := by
    intro x hx hnew y hxy
    have hold : x ∈ found := (List.mem_append.1 hx).resolve_right hnew
    exact List.mem_append.2 (h.mem_or_mem_fresh hold hxy)

theorem done (h : Exploring g v found newest) (hfresh : g.fresh found newest = []) :
    Exploring g v found [] where
  root := h.root
  reached := h.reached
  newest_found := List.nil_subset _
  explored x hx _ y hxy := by simpa [hfresh] using h.mem_or_mem_fresh hx hxy

end Exploring

/-- A fresh node is a node that has not been found, so finding it leaves fewer to be found. -/
theorem length_unfound_lt (hg : g.IsClosed) (hfresh : w ∈ g.fresh found newest) :
    (g.nodes.filter (· ∉ found ++ g.fresh found newest)).length <
      (g.nodes.filter (· ∉ found)).length := by
  obtain ⟨hw, x, -, hxw⟩ := mem_fresh.1 hfresh
  have hsplit : g.nodes.filter (· ∉ found ++ g.fresh found newest) =
      (g.nodes.filter (· ∉ found)).filter (· ∉ g.fresh found newest) := by
    rw [List.filter_filter]
    refine List.filter_congr fun y _ => ?_
    simp [Bool.and_comm]
  rw [hsplit]
  refine List.length_filter_lt_length_iff_exists.2 ⟨w, ?_, by simpa using hfresh⟩
  exact List.mem_filter.2 ⟨hg x w hxw, by simpa using hw⟩

/-- A closure with as many steps as there are nodes to be found leaves none of them out. -/
theorem exploring_closure (hg : g.IsClosed) {steps : Nat} (h : Exploring g v found newest)
    (hsteps : (g.nodes.filter (· ∉ found)).length ≤ steps) :
    Exploring g v (g.closure steps found newest) [] := by
  induction steps generalizing found newest with
  | zero =>
    refine h.done (List.eq_nil_iff_forall_not_mem.2 fun w hw => ?_)
    have hlt := length_unfound_lt hg hw
    omega
  | succ steps ih =>
    rw [closure_succ]
    split
    · next hempty => exact h.done (List.isEmpty_iff.1 hempty)
    · next hempty =>
      obtain ⟨w, hw⟩ := List.exists_mem_of_ne_nil _ (mt List.isEmpty_iff.2 hempty)
      have hlt := length_unfound_lt hg hw
      exact ih h.step (by omega)

theorem mem_reach (hg : g.IsClosed) : w ∈ g.reach v ↔ g.Reaches v w :=
  (exploring_closure hg (exploring_singleton v) (List.length_filter_le _ _)).mem_iff

/-! ## Components -/

theorem lookup_reachTable (hv : v ∈ g.nodes) : g.reachTable.lookup v = some (g.reach v) := by
  have hfind : (g.nodes.find? fun x => x = v) = some v := by
    cases hf : g.nodes.find? fun x => x = v with
    | none => simpa using List.find?_eq_none.1 hf v hv
    | some x => simpa using List.find?_some hf
  rw [reachTable, lookup_map (fun x => x), hfind, Option.map_some]

theorem joined_iff (hg : g.IsClosed) (hv : v ∈ g.nodes) (hw : w ∈ g.nodes) :
    joined g.reachTable v w = true ↔ g.Mutual v w := by
  simp [joined, lookup_reachTable hv, lookup_reachTable hw, mem_reach hg, Mutual]

theorem mem_component (hg : g.IsClosed) (hv : v ∈ g.nodes) :
    w ∈ g.component g.reachTable v ↔ g.Mutual v w := by
  rw [component, List.mem_filter]
  constructor
  · rintro ⟨hw, hjoined⟩
    exact (joined_iff hg hv hw).1 hjoined
  · intro h
    have hw := hg.mem_of_reaches hv h.1
    exact ⟨hw, (joined_iff hg hv hw).2 h⟩

end Digraph

end MetricLayer
