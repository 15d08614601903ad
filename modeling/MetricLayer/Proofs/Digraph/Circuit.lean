import MetricLayer.Digraph.Pending
import Mathlib.Data.List.Chain
import Mathlib.Data.List.Nodup

/-!
# Circuits

A search that keeps the places it is in, outermost first, and meets one of them again has found a
circuit: the places from that one on, with it once more at the end (`isCircuit_loopFrom`). If each
place of the search leads to the next, so does each place of the circuit (`isChain_loopFrom`).
-/

namespace MetricLayer

variable {α β : Type}

/-- A list that ends where it begins and holds nothing else twice. -/
structure IsCircuit (c : List α) : Prop where
  two_le : 2 ≤ c.length
  closes : c.head? = c.getLast?
  nodup : c.dropLast.Nodup

theorem IsCircuit.map {c : List α} (h : IsCircuit c) {f : α → β}
    (hf : ∀ x ∈ c, ∀ y ∈ c, f x = f y → x = y) : IsCircuit (c.map f) where
  two_le := by simpa using h.two_le
  closes := by rw [List.head?_map, List.getLast?_map, h.closes]
  nodup := by
    rw [← List.map_dropLast]
    exact List.Nodup.map_on (fun x hx y hy =>
      hf x (List.dropLast_subset c hx) y (List.dropLast_subset c hy)) h.nodup

theorem transGen_of_isChain_concat {R : α → α → Prop} {x y : α} {xs : List α}
    (h : (xs ++ [x]).IsChain R) (hy : y ∈ xs) : Relation.TransGen R y x := by
  have hchain : (xs ++ [x]).IsChain (Relation.TransGen R) := h.imp fun _ _ => .single
  have hpairs : (xs ++ [x]).Pairwise (Relation.TransGen R) := hchain.pairwise
  exact (List.pairwise_append.1 hpairs).2.2 y hy x (List.mem_singleton_self x)

/-- Around a circuit all places lead to one of them, which therefore leads back to itself. -/
theorem IsCircuit.exists_transGen {c : List α} (h : IsCircuit c) {R : α → α → Prop}
    (hchain : c.IsChain R) : ∃ last ∈ c, ∀ x ∈ c, Relation.TransGen R x last := by
  obtain ⟨htwo, hcloses, -⟩ := h
  obtain rfl | ⟨xs, last, rfl⟩ := c.eq_nil_or_concat'
  · simp at htwo
  · cases xs with
    | nil => simp at htwo
    | cons first rest =>
      rw [List.getLast?_concat, List.cons_append, List.head?_cons] at hcloses
      obtain rfl : first = last := Option.some.inj hcloses
      refine ⟨first, by simp, fun x hx => transGen_of_isChain_concat hchain ?_⟩
      simpa [or_comm] using hx

variable [DecidableEq α] [DecidableEq β]

theorem exists_dropWhile_eq_cons {x : α} {xs : List α} (hx : x ∈ xs) :
    ∃ rest, xs.dropWhile (· ≠ x) = x :: rest := by
  induction xs with
  | nil => simp at hx
  | cons y ys ih =>
    by_cases hy : y = x
    · subst hy
      exact ⟨ys, by simp⟩
    · have hx : x ∈ ys := by simpa [Ne.symm hy] using hx
      simpa [List.dropWhile_cons, hy] using ih hx

theorem isCircuit_loopFrom {x : α} {xs : List α} (hx : x ∈ xs) (h : xs.Nodup) :
    IsCircuit (loopFrom x xs) := by
  obtain ⟨rest, hrest⟩ := exists_dropWhile_eq_cons hx
  have hnodup : (x :: rest).Nodup := hrest ▸ h.sublist (List.dropWhile_sublist _)
  unfold loopFrom
  rw [hrest]
  refine ⟨by simp, ?_, ?_⟩
  · rw [List.getLast?_concat]
    rfl
  · rwa [List.dropLast_concat]

theorem loopFrom_suffix (x : α) (xs : List α) : loopFrom x xs <:+ xs ++ [x] := by
  obtain ⟨front, hfront⟩ := List.dropWhile_suffix (· ≠ x) (l := xs)
  exact ⟨front, by rw [loopFrom, ← List.append_assoc, hfront]⟩

theorem mem_loopFrom {x y : α} {xs : List α} (h : y ∈ loopFrom x xs) : y ∈ xs ∨ y = x := by
  simpa using (loopFrom_suffix x xs).subset h

theorem isChain_loopFrom {R : α → α → Prop} {x : α} {xs : List α}
    (h : (xs ++ [x]).IsChain R) : (loopFrom x xs).IsChain R :=
  h.suffix (loopFrom_suffix x xs)

theorem loopFrom_map {f : α → β} {x : α} {xs : List α} (hf : ∀ y ∈ xs, f y = f x → y = x) :
    loopFrom (f x) (xs.map f) = (loopFrom x xs).map f := by
  unfold loopFrom
  rw [List.dropWhile_map, List.map_append, List.map_singleton]
  congr 2
  induction xs with
  | nil => rfl
  | cons y ys ih =>
    have hiff : f y = f x ↔ y = x := ⟨hf y (by simp), congrArg f⟩
    have ih := ih fun z hz => hf z (List.mem_cons_of_mem _ hz)
    simp only [List.dropWhile_cons, Function.comp_apply, ne_eq, decide_not, hiff]
    split
    · simpa using ih
    · rfl

end MetricLayer
