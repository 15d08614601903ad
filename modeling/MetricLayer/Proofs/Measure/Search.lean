import MetricLayer.Proofs.Digraph.Circuit
import MetricLayer.Proofs.Measure.Afresh

/-!
# Measures being compiled

While a measure is compiled below others, each of these depends on the next, and all registered
measures besides them are pending (`Searching`). A grounded measure leads to none of those above it,
so what it compiles to there is what it compiles to alone (`Searching.compileAfresh_ok_iff`).
-/

namespace MetricLayer

open Schema Relation

namespace Registry

variable {r : Registry} {rules : WalkRules} {s : Scope r rules} {pending : List String}
  {stack : List (String × String)} {a b : String × String} {m : Measure} {node : MeasureNode}

/-- What is known when a measure is compiled below others. -/
structure Searching (s : Scope r rules) (pending : List String) (stack : List (String × String))
    (a : String × String) : Prop where
  holds : ∀ b ∈ stack ++ [a], s.holds b
  chain : (stack ++ [a]).IsChain (r.DependsOn rules)
  mem_pending : ∀ key ∈ r.measureKeys, key ∈ pending ∨ key ∈ stack.map memberText
  notMem_stack : ∀ key ∈ pending, key ∉ stack.map memberText
  nodup : stack.Nodup

theorem searching_nil (ha : s.holds a) : Searching s r.measureKeys [] a where
  holds := by simpa using ha
  chain := .singleton a
  mem_pending _ hkey := Or.inl hkey
  notMem_stack := by simp
  nodup := List.nodup_nil

namespace Searching

theorem holds_self (h : Searching s pending stack a) : s.holds a :=
  h.holds a (by simp)

theorem push (h : Searching s pending stack a) (hkey : memberText a ∈ pending)
    (hab : r.DependsOn rules a b) :
    Searching s (strike (memberText a) pending) (stack ++ [a]) b := by
  refine ⟨?_, ?_, ?_, ?_, ?_⟩
  · intro c hc
    rcases List.mem_append.1 hc with hc | hc
    · exact h.holds c hc
    · rw [List.mem_singleton.1 hc]
      exact s.closed h.holds_self hab
  · refine h.chain.append (.singleton b) fun x hx y hy => ?_
    obtain rfl : a = x := by simpa using hx
    obtain rfl : b = y := by simpa using hy
    exact hab
  · intro key hmem
    rw [List.map_append, List.mem_append, mem_strike]
    by_cases hne : key = memberText a
    · exact Or.inr (Or.inr (by simp [hne]))
    · exact (h.mem_pending key hmem).imp (fun hp => ⟨hp, hne⟩) Or.inl
  · intro key hmem
    obtain ⟨hp, hne⟩ := mem_strike.1 hmem
    simpa [hne] using h.notMem_stack key hp
  · have hfresh : a ∉ stack := fun ha => h.notMem_stack _ hkey (List.mem_map_of_mem ha)
    simpa using h.nodup.concat hfresh

/-- A measure on the way to another, with its text on the stack, is itself on the stack. -/
theorem mem_stack (h : Searching s pending stack a) (hb : s.holds b)
    (hkey : memberText b ∈ stack.map memberText) : b ∈ stack := by
  obtain ⟨c, hc, htext⟩ := List.mem_map.1 hkey
  have hcb : c = b := s.injective (h.holds c (List.mem_append_left _ hc)) hb htext
  exact hcb ▸ hc

theorem mem_pending_iff (h : Searching s pending stack a) (hb : s.holds b)
    (hm : r.measureAt? b.1 b.2 = some m) : memberText b ∈ pending ↔ b ∉ stack := by
  constructor
  · exact fun hkey hstack => h.notMem_stack _ hkey (List.mem_map_of_mem hstack)
  · intro hstack
    exact (h.mem_pending _ (mem_measureKeys hm)).resolve_right fun hkey =>
      hstack (h.mem_stack hb hkey)

theorem mem_pending_of_grounded (h : Searching s pending stack a) (hground : r.Grounded rules a)
    (hm : r.measureAt? a.1 a.2 = some m) (hab : ReflTransGen (r.DependsOn rules) a b) :
    memberText b ∈ pending := by
  obtain ⟨n, hn⟩ := registered_of_reflTransGen hm hab
  rw [h.mem_pending_iff (s.closed_reflTransGen h.holds_self hab) hn]
  intro hb
  have hba : TransGen (r.DependsOn rules) b a := transGen_of_isChain_concat h.chain hb
  exact hground.not_transGen hab (hba.trans_left hab)

end Searching

theorem compileAfresh_push (hm : r.measureAt? a.1 a.2 = some m) (hkey : memberText a ∈ pending) :
    r.compileAfresh rules pending (stack.map memberText) a.1 m =
      r.defineAfresh rules (r.compileAfresh rules (strike (memberText a) pending)
        ((stack ++ [a]).map memberText)) a.1 m := by
  have htext := qualified_eq_memberText hm
  rw [compileAfresh_of_mem (htext ▸ hkey), htext, List.map_append, List.map_singleton]

namespace Searching

/-- What a measure compiles to below others is what it compiles to alone. -/
theorem compileAfresh_ok_iff (h : Searching s pending stack a)
    (hm : r.measureAt? a.1 a.2 = some m) :
    r.compileAfresh rules pending (stack.map memberText) a.1 m = .ok node ↔
      r.compileAlone rules a.1 m = .ok node := by
  have hnil : Searching s r.measureKeys [] a := searching_nil h.holds_self
  constructor
  · intro hok
    have hground := grounded_of_compileAfresh hm hok
    exact compileAfresh_of_pending s hground h.holds_self hm hok fun b hab =>
      hnil.mem_pending_of_grounded hground hm hab
  · intro hok
    have hground := grounded_of_compileAfresh hm hok
    exact compileAfresh_of_pending s hground h.holds_self hm hok fun b hab =>
      h.mem_pending_of_grounded hground hm hab

end Searching

/-- Below a measure that is compiled alone, what its text refers to compiles as it does alone. -/
theorem compileAfresh_below_ok_iff {ref : Reference} {upstream : Measure}
    (hm : r.measureAt? a.1 a.2 = some m) (hread : r.Reads rules a.1 m ref upstream) :
    r.compileAfresh rules (strike (memberText a) r.measureKeys) (([] ++ [a]).map memberText)
        ref.targetEntity upstream = .ok node ↔
      r.compileAlone rules ref.targetEntity upstream = .ok node := by
  have hroot : Searching (Scope.around r rules a.1) r.measureKeys [] a := searching_nil (Or.inl rfl)
  have hbelow := hroot.push (mem_measureKeys hm) (hread.dependsOn hm)
  exact hbelow.compileAfresh_ok_iff hread.registered

theorem compileAlone_push (hm : r.measureAt? a.1 a.2 = some m) :
    r.compileAlone rules a.1 m =
      r.defineAfresh rules (r.compileAfresh rules (strike (memberText a) r.measureKeys)
        (([] ++ [a]).map memberText)) a.1 m := by
  rw [compileAlone, ← List.map_nil (f := memberText), compileAfresh_push hm (mem_measureKeys hm)]

/-- A measure compiles alone as its definition does over the measures compiled alone. -/
theorem compileAlone_ok_iff (hm : r.measureAt? a.1 a.2 = some m) :
    r.compileAlone rules a.1 m = .ok node ↔
      r.defineAfresh rules (r.compileAlone rules) a.1 m = .ok node := by
  rw [compileAlone_push hm]
  constructor
  · exact fun h => defineAfresh_mono h fun ref upstream n hread =>
      (compileAfresh_below_ok_iff hm hread).1
  · exact fun h => defineAfresh_mono h fun ref upstream n hread =>
      (compileAfresh_below_ok_iff hm hread).2

end Registry

end MetricLayer
