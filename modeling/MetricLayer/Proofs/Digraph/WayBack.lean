import MetricLayer.Digraph.Cycle
import MetricLayer.Proofs.Digraph.Circuit
import MetricLayer.Proofs.Digraph.Reach

/-!
# The way back

The search for a way back to its start enters no node twice. It gives a node up when all that the
node leads to among the members has been entered, and the start is not there. If it gave up at the
start, so would it have at every node that the start leads to; hence it finds a way back whenever
there is one (`exists_isWayBack`).
-/

namespace MetricLayer.Digraph

open Relation

variable {α : Type} {g : Digraph α} {members entered entered' path vs : List α} {start v w : α}

/-- A node leads to a member of a set of nodes. -/
def LeadsWithin (g : Digraph α) (members : List α) (v w : α) : Prop := g.Leads v w ∧ w ∈ members

/-! ## What a search may find -/

/-- A way from a node back to the start, through members that have not been entered, each at most
once. The node itself is left out. -/
structure IsWayBack (g : Digraph α) (members : List α) (start : α) (entered : List α) (v : α)
    (path : List α) : Prop where
  chain : (v :: path).IsChain (g.LeadsWithin members)
  ends : path.getLast? = some start
  nodup : path.dropLast.Nodup
  fresh : ∀ x ∈ path.dropLast, x ∉ entered

/-- All that a node leads to among the members has been entered, and the start is not there. -/
def Spent (g : Digraph α) (members : List α) (start : α) (entered : List α) (v : α) : Prop :=
  ∀ w, g.LeadsWithin members v w → w ≠ start ∧ w ∈ entered

/-- A search gives up: nothing that was entered is forgotten, and the nodes entered meanwhile are
spent. -/
structure GivesUp (g : Digraph α) (members : List α) (start : α) (entered entered' : List α) :
    Prop where
  kept : entered ⊆ entered'
  spent : ∀ x ∈ entered', x ∈ entered ∨ g.Spent members start entered' x

/-- What a search from a node gives: a way back, or else it gives up and the node is spent. -/
def Searched (g : Digraph α) (members : List α) (start : α) (entered : List α) (v : α) :
    Option (List α) × List α → Prop
  | (some path, _) => g.IsWayBack members start entered v path
  | (none, entered') =>
    g.GivesUp members start entered entered' ∧ g.Spent members start entered' v

theorem IsWayBack.single (h : g.LeadsWithin members v start) :
    g.IsWayBack members start entered v [start] where
  chain := .cons_cons h (.singleton start)
  ends := rfl
  nodup := by simp
  fresh := by simp

theorem IsWayBack.exists_cons (h : g.IsWayBack members start entered v path) :
    ∃ x rest, path = x :: rest := by
  cases path with
  | nil => simpa using h.ends
  | cons x rest => exact ⟨x, rest, rfl⟩

theorem IsWayBack.cons (h : g.IsWayBack members start (w :: entered) w path)
    (hvw : g.LeadsWithin members v w) (hw : w ∉ entered) :
    g.IsWayBack members start entered v (w :: path) := by
  obtain ⟨x, rest, rfl⟩ := h.exists_cons
  refine ⟨.cons_cons hvw h.chain, by rw [List.getLast?_cons_cons, h.ends], ?_, ?_⟩
  · rw [List.dropLast_cons_cons]
    exact List.nodup_cons.2 ⟨fun hmem => h.fresh w hmem (by simp), h.nodup⟩
  · rw [List.dropLast_cons_cons]
    intro y hy hentered
    rcases List.mem_cons.1 hy with rfl | hy
    · exact hw hentered
    · exact h.fresh y hy (List.mem_cons_of_mem _ hentered)

theorem IsWayBack.mono (h : g.IsWayBack members start entered' v path)
    (hsub : entered ⊆ entered') : g.IsWayBack members start entered v path where
  chain := h.chain
  ends := h.ends
  nodup := h.nodup
  fresh x hx hentered := h.fresh x hx (hsub hentered)

theorem IsWayBack.isCircuit (h : g.IsWayBack members start [start] start path) :
    IsCircuit (start :: path) := by
  obtain ⟨x, rest, rfl⟩ := h.exists_cons
  refine ⟨by simp, by rw [List.getLast?_cons_cons, h.ends]; rfl, ?_⟩
  rw [List.dropLast_cons_cons]
  exact List.nodup_cons.2 ⟨fun hmem => h.fresh start hmem (by simp), h.nodup⟩

theorem mem_of_isChain_leadsWithin (h : (v :: path).IsChain (g.LeadsWithin members)) :
    ∀ x ∈ path, x ∈ members := by
  induction path generalizing v with
  | nil => simp
  | cons w path ih =>
    obtain ⟨hvw, hrest⟩ := List.isChain_cons_cons.1 h
    intro x hx
    rcases List.mem_cons.1 hx with rfl | hx
    · exact hvw.2
    · exact ih hrest x hx

theorem Spent.mono (h : g.Spent members start entered v) (hsub : entered ⊆ entered') :
    g.Spent members start entered' v :=
  fun w hvw => ⟨(h w hvw).1, hsub (h w hvw).2⟩

theorem GivesUp.refl (g : Digraph α) (members : List α) (start : α) (entered : List α) :
    g.GivesUp members start entered entered where
  kept := List.Subset.refl _
  spent _ hx := Or.inl hx

theorem GivesUp.trans {entered'' : List α} (h : g.GivesUp members start (w :: entered) entered')
    (hw : g.Spent members start entered' w) (h' : g.GivesUp members start entered' entered'') :
    g.GivesUp members start entered entered'' where
  kept x hx := h'.kept (h.kept (List.mem_cons_of_mem _ hx))
  spent := by
    intro x hx
    rcases h'.spent x hx with hx | hx
    · rcases h.spent x hx with hx | hx
      · rcases List.mem_cons.1 hx with rfl | hx
        · exact Or.inr (hw.mono h'.kept)
        · exact Or.inl hx
      · exact Or.inr (hx.mono h'.kept)
    · exact Or.inr hx

/-! ## Searching -/

variable [DecidableEq α]

/-- How many members have not been entered. -/
def unentered (members entered : List α) : Nat := (members.filter (· ∉ entered)).length

theorem unentered_cons_lt (hw : w ∈ members) (hfresh : w ∉ entered) :
    unentered members (w :: entered) < unentered members entered := by
  have hstrike : members.filter (· ∉ w :: entered) = strike w (members.filter (· ∉ entered)) := by
    rw [strike, List.filter_filter]
    refine List.filter_congr fun x _ => ?_
    simp
  unfold unentered
  rw [hstrike]
  exact length_strike_lt (List.mem_filter.2 ⟨hw, by simpa using hfresh⟩)

theorem unentered_mono (h : entered ⊆ entered') :
    unentered members entered' ≤ unentered members entered := by
  refine List.Sublist.length_le (List.monotone_filter_right members fun x hx => ?_)
  simpa using fun hentered => (by simpa using hx : x ∉ entered') (h hentered)

/-- Trying nodes in turn, each with a search that finds a way back or gives up, finds a way back or
gives up and has entered them all. The induction is on the nodes to be tried. -/
theorem firstWalk_searched {walk : α → List α → Option (List α) × List α} {bound : Nat}
    (hwalk : ∀ w entered, w ∈ members → w ∉ entered → unentered members entered ≤ bound →
      g.Searched members start (w :: entered) w (walk w (w :: entered)))
    (hvs : ∀ w ∈ vs, g.LeadsWithin members v w) (hbound : unentered members entered ≤ bound) :
    (∃ path entered', firstWalk walk start vs entered = (some path, entered') ∧
      g.IsWayBack members start entered v path) ∨
    ∃ entered', firstWalk walk start vs entered = (none, entered') ∧
      g.GivesUp members start entered entered' ∧ ∀ w ∈ vs, w ≠ start ∧ w ∈ entered' := by
  induction vs generalizing entered with
  | nil => exact Or.inr ⟨entered, rfl, .refl g members start entered, by simp⟩
  | cons w vs ih =>
    have hvw : g.LeadsWithin members v w := hvs w (by simp)
    have hrest : ∀ x ∈ vs, g.LeadsWithin members v x := fun x hx =>
      hvs x (List.mem_cons_of_mem _ hx)
    rw [firstWalk]
    by_cases hstart : w = start
    · rw [if_pos hstart]
      exact Or.inl ⟨[start], entered, rfl, .single (hstart ▸ hvw)⟩
    · rw [if_neg hstart]
      by_cases hentered : w ∈ entered
      · rw [if_pos hentered]
        refine (ih hrest hbound).imp id ?_
        rintro ⟨entered', heq, hgives, hall⟩
        refine ⟨entered', heq, hgives, fun x hx => ?_⟩
        rcases List.mem_cons.1 hx with rfl | hx
        · exact ⟨hstart, hgives.kept hentered⟩
        · exact hall x hx
      · rw [if_neg hentered]
        have hsearched := hwalk w entered hvw.2 hentered hbound
        rcases hw : walk w (w :: entered) with ⟨_ | path, entered₁⟩
        · rw [hw] at hsearched
          obtain ⟨hgives, hspent⟩ := hsearched
          have hsub : entered ⊆ entered₁ := fun x hx => hgives.kept (List.mem_cons_of_mem _ hx)
          refine (ih hrest ((unentered_mono hsub).trans hbound)).imp ?_ ?_
          · rintro ⟨path, entered', heq, hpath⟩
            exact ⟨path, entered', heq, hpath.mono hsub⟩
          · rintro ⟨entered', heq, hgives', hall⟩
            refine ⟨entered', heq, hgives.trans hspent hgives', fun x hx => ?_⟩
            rcases List.mem_cons.1 hx with rfl | hx
            · exact ⟨hstart, hgives'.kept (hgives.kept (by simp))⟩
            · exact hall x hx
        · rw [hw] at hsearched
          exact Or.inl ⟨w :: path, entered₁, rfl, IsWayBack.cons hsearched hvw hentered⟩

/-- A search whose fuel exceeds the number of members that have not been entered finds a way back or
gives up. Each node that it enters leaves one member less. -/
theorem walkBack_searched {le : α → α → Bool} {fuel : Nat}
    (hfuel : unentered members entered < fuel) :
    g.Searched members start entered v (g.walkBack le members start fuel v entered) := by
  induction fuel generalizing v entered with
  | zero => omega
  | succ fuel ih =>
    have hsucc : ∀ w, w ∈ ((g.next v).filter (· ∈ members)).mergeSort le ↔
        g.LeadsWithin members v w := by
      intro w
      rw [List.mem_mergeSort, List.mem_filter, decide_eq_true_eq, LeadsWithin, Leads]
    have hwalk : ∀ w entered, w ∈ members → w ∉ entered → unentered members entered ≤ fuel →
        g.Searched members start (w :: entered) w
          (g.walkBack le members start fuel w (w :: entered)) := by
      intro w entered hw hfresh hbound
      have hlt := unentered_cons_lt hw hfresh
      exact ih (by omega)
    have hbound : unentered members entered ≤ fuel := by omega
    rw [walkBack]
    rcases firstWalk_searched hwalk (fun w hw => (hsucc w).1 hw) hbound with
      ⟨path, entered', heq, hpath⟩ | ⟨entered', heq, hgives, hall⟩
    · rw [heq]
      exact hpath
    · rw [heq]
      exact ⟨hgives, fun w hvw => hall w ((hsucc w).2 hvw)⟩

/-- If the members lead from the start back to it, the search finds a way back. -/
theorem exists_isWayBack (le : α → α → Bool) (hstart : start ∈ members)
    (hloop : TransGen (g.LeadsWithin members) start start) :
    ∃ path, (g.walkBack le members start members.length start [start]).1 = some path ∧
      g.IsWayBack members start [start] start path := by
  have hfuel : unentered members [start] < members.length := by
    have hall : unentered members [] = members.length := by simp [unentered]
    have hlt := unentered_cons_lt hstart List.not_mem_nil
    omega
  have hsearched : g.Searched members start [start] start
      (g.walkBack le members start members.length start [start]) := walkBack_searched hfuel
  rcases hw : g.walkBack le members start members.length start [start] with ⟨_ | path, entered'⟩
  · rw [hw] at hsearched
    obtain ⟨hgives, hspent⟩ := hsearched
    -- All that the start leads to has been entered and is spent, and the start is not among it.
    have hreached : ∀ x, TransGen (g.LeadsWithin members) start x →
        x ≠ start ∧ g.Spent members start entered' x := by
      intro x hx
      have hnext : ∀ y z, g.Spent members start entered' y → g.LeadsWithin members y z →
          z ≠ start ∧ g.Spent members start entered' z := by
        intro y z hy hyz
        obtain ⟨hne, hz⟩ := hy z hyz
        exact ⟨hne, (hgives.spent z hz).resolve_left (by simpa using hne)⟩
      induction hx with
      | single h => exact hnext _ _ hspent h
      | tail _ h ih => exact hnext _ _ ih.2 h
    exact absurd rfl (hreached start hloop).1
  · rw [hw] at hsearched
    exact ⟨path, rfl, hsearched⟩

end MetricLayer.Digraph
