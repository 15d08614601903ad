import MetricLayer.Proofs.Measure.Search

/-!
# Sharing compiled measures

A compilation keeps the measures it has compiled under their texts. What is kept is what these
measures compile to alone (`Faithful`), and so compiling with what is kept gives the same result,
and the same fault, as compiling afresh (`compileShared_eq`, `compileMeasure_eq`).
-/

namespace MetricLayer

open Schema

namespace Registry

variable {r : Registry} {rules : WalkRules} {entity path : String} {m : Measure} {memo : Memo}

/-! ## Definitions over two sources -/

section Simulation

variable {source : CompileSource} {plain : PlainSource} {P : Memo → Prop}

/-- A source that keeps results gives what another source gives that keeps none, on the measures
that a text refers to, and what it keeps has a property if what it was given has. -/
def Agrees (r : Registry) (rules : WalkRules) (P : Memo → Prop) (source : CompileSource)
    (plain : PlainSource) (entity : String) (m : Measure) : Prop :=
  ∀ ref upstream memo, r.Reads rules entity m ref upstream → P memo →
    (source ref.targetEntity upstream memo).1 = plain ref.targetEntity upstream ∧
      P (source ref.targetEntity upstream memo).2

theorem operand_eq (h : r.Agrees rules P source plain entity m)
    (hpath : path ∈ measurePaths entity m) (hmemo : P memo) :
    (r.operand rules source entity path memo).1 = r.operandAfresh rules plain entity path ∧
      P (r.operand rules source entity path memo).2 := by
  unfold operand operandAfresh
  cases hres : r.resolve rules entity path with
  | error f => exact ⟨rfl, hmemo⟩
  | ok ref =>
    obtain ⟨field, hfield, -⟩ := field_of_resolve hres
    simp only [hfield]
    cases field with
    | dimension d => exact ⟨rfl, hmemo⟩
    | measure upstream =>
      obtain ⟨hresult, hkept⟩ := h ref upstream memo (.of_resolve hpath hres hfield) hmemo
      simp only [← hresult]
      rcases hs : source ref.targetEntity upstream memo with ⟨f | n, memo'⟩ <;>
        exact ⟨rfl, by simpa [hs] using hkept⟩

theorem operands_eq (h : r.Agrees rules P source plain entity m) {paths : List String}
    (hpaths : paths ⊆ measurePaths entity m) (hmemo : P memo) :
    (r.operands rules source entity paths memo).1 = r.operandsAfresh rules plain entity paths ∧
      P (r.operands rules source entity paths memo).2 := by
  induction paths generalizing memo with
  | nil => exact ⟨rfl, hmemo⟩
  | cons first rest ih =>
    obtain ⟨hfirst, hrest⟩ := List.cons_subset.1 hpaths
    obtain ⟨hresult, hkept⟩ := operand_eq h hfirst hmemo
    unfold operands operandsAfresh
    rw [← hresult]
    rcases ho : r.operand rules source entity first memo with ⟨f | o, memo'⟩
    · exact ⟨rfl, by simpa [ho] using hkept⟩
    · obtain ⟨hresults, hkept⟩ := ih hrest (show P memo' by simpa [ho] using hkept)
      simp only [← hresults]
      rcases hos : r.operands rules source entity rest memo' with ⟨f | os, memo''⟩ <;>
        exact ⟨rfl, by simpa [hos] using hkept⟩

/-- A definition compiles alike over two sources that agree on the measures its text refers to. -/
theorem define_eq (h : r.Agrees rules P source plain entity m) (hmemo : P memo) :
    (r.define rules source entity m memo).1 = r.defineAfresh rules plain entity m ∧
      P (r.define rules source entity m memo).2 := by
  obtain ⟨hresult, hkept⟩ := operands_eq h (List.Subset.refl _) hmemo
  unfold define defineAfresh
  rw [← hresult]
  rcases hos : r.operands rules source entity (measurePaths entity m) memo with ⟨f | os, memo'⟩ <;>
    exact ⟨rfl, by simpa [hos] using hkept⟩

end Simulation

/-! ## What is kept -/

/-- A property of what is kept that compiling the measures of a scope can rely on: what is found
under the text of a measure is what the measure compiles to alone, and keeping that is allowed. -/
structure Upholds (s : Scope r rules) (P : Memo → Prop) : Prop where
  found : ∀ {memo a m node}, P memo → s.holds a → r.measureAt? a.1 a.2 = some m →
    memo.lookup (memberText a) = some node → r.compileAlone rules a.1 m = .ok node
  kept : ∀ {memo a m node}, P memo → s.holds a → r.measureAt? a.1 a.2 = some m →
    r.compileAlone rules a.1 m = .ok node → P ((memberText a, node) :: memo)

/-- What is kept under a text is what a measure of that text, one of those given, compiles to
alone. -/
def Faithful (r : Registry) (rules : WalkRules) (given : String × String → Prop)
    (memo : Memo) : Prop :=
  ∀ key node, memo.lookup key = some node →
    ∃ a m, given a ∧ memberText a = key ∧ r.measureAt? a.1 a.2 = some m ∧
      r.compileAlone rules a.1 m = .ok node

variable {s : Scope r rules} {given : String × String → Prop} {a : String × String}
  {node : MeasureNode} {pending visiting : List String}

theorem faithful_nil : r.Faithful rules given [] := by
  intro key node h
  simp at h

theorem Faithful.cons (h : r.Faithful rules given memo) (ha : given a)
    (hm : r.measureAt? a.1 a.2 = some m) (hnode : r.compileAlone rules a.1 m = .ok node) :
    r.Faithful rules given ((memberText a, node) :: memo) := by
  intro key n hlookup
  rw [List.lookup_cons] at hlookup
  by_cases hkey : key = memberText a
  · obtain rfl : node = n := by simpa [hkey] using hlookup
    exact ⟨a, m, ha, hkey.symm, hm, hnode⟩
  · have hne : (key == memberText a) = false := by simpa using hkey
    rw [hne] at hlookup
    exact h key n hlookup

theorem Faithful.compileAlone (h : r.Faithful rules s.holds memo) (ha : s.holds a)
    (hm : r.measureAt? a.1 a.2 = some m) (hlookup : memo.lookup (memberText a) = some node) :
    r.compileAlone rules a.1 m = .ok node := by
  obtain ⟨b, n, hb, htext, hn, hnode⟩ := h _ _ hlookup
  obtain rfl : b = a := s.injective hb ha htext
  rw [hm] at hn
  cases hn
  exact hnode

theorem upholds_faithful (s : Scope r rules) : Upholds s (r.Faithful rules s.holds) where
  found := Faithful.compileAlone
  kept := Faithful.cons

/-! ## Compiling with what is kept -/

theorem compileShared_of_lookup (hm : r.measureAt? a.1 a.2 = some m)
    (h : memo.lookup (memberText a) = some node) :
    r.compileShared rules pending visiting a.1 m memo = (.ok node, memo) := by
  rw [← qualified_eq_memberText hm] at h
  rw [compileShared]
  simp only [h]

theorem compileShared_of_notMem (hm : r.measureAt? a.1 a.2 = some m)
    (h : memo.lookup (memberText a) = none) (hkey : memberText a ∉ pending) :
    r.compileShared rules pending visiting a.1 m memo =
      (.error (.cyclicReference (loopFrom (memberText a) visiting)), memo) := by
  rw [← qualified_eq_memberText hm] at h hkey ⊢
  rw [compileShared]
  simp only [h]
  exact dif_neg hkey

theorem compileShared_push {stack : List (String × String)} (hm : r.measureAt? a.1 a.2 = some m)
    (h : memo.lookup (memberText a) = none) (hkey : memberText a ∈ pending) :
    r.compileShared rules pending (stack.map memberText) a.1 m memo =
      match r.define rules (r.compileShared rules (strike (memberText a) pending)
          ((stack ++ [a]).map memberText)) a.1 m memo with
      | (.error f, memo) => (.error f, memo)
      | (.ok node, memo) => (.ok node, (memberText a, node) :: memo) := by
  rw [List.map_append, List.map_singleton]
  rw [← qualified_eq_memberText hm] at h hkey ⊢
  rw [compileShared]
  simp only [h]
  exact dif_pos hkey

/-- Compiling a measure with what is kept gives what compiling it afresh gives. The induction is on
the measures that are not being compiled yet. -/
theorem compileShared_eq {P : Memo → Prop} (hP : Upholds s P) {stack : List (String × String)}
    (h : Searching s pending stack a) (hm : r.measureAt? a.1 a.2 = some m) (hmemo : P memo) :
    (r.compileShared rules pending (stack.map memberText) a.1 m memo).1 =
        r.compileAfresh rules pending (stack.map memberText) a.1 m ∧
      P (r.compileShared rules pending (stack.map memberText) a.1 m memo).2 := by
  induction hn : pending.length using Nat.strongRecOn generalizing pending stack a m memo with
  | ind n ih =>
    cases hlookup : memo.lookup (memberText a) with
    | some node =>
      have halone := hP.found hmemo h.holds_self hm hlookup
      rw [compileShared_of_lookup hm hlookup, (h.compileAfresh_ok_iff hm).2 halone]
      exact ⟨rfl, hmemo⟩
    | none =>
      by_cases hkey : memberText a ∈ pending
      · have hagrees : r.Agrees rules P
            (r.compileShared rules (strike (memberText a) pending) ((stack ++ [a]).map memberText))
            (r.compileAfresh rules (strike (memberText a) pending) ((stack ++ [a]).map memberText))
            a.1 m := fun ref upstream kept hread hkept =>
          ih _ (hn ▸ length_strike_lt hkey) (h.push hkey (hread.dependsOn hm)) hread.registered
            hkept rfl
        obtain ⟨hresult, hkept⟩ := define_eq hagrees hmemo
        rw [← compileAfresh_push hm hkey] at hresult
        rw [compileShared_push hm hlookup hkey]
        rcases hd : r.define rules _ a.1 m memo with ⟨f | node, memo'⟩
        · rw [hd] at hresult hkept
          exact ⟨hresult, hkept⟩
        · rw [hd] at hresult hkept
          have halone := (h.compileAfresh_ok_iff hm).1 hresult.symm
          exact ⟨hresult, hP.kept hkept h.holds_self hm halone⟩
      · rw [compileShared_of_notMem hm hlookup hkey,
          compileAfresh_of_notMem (qualified_eq_memberText hm ▸ hkey), qualified_eq_memberText hm]
        exact ⟨rfl, hmemo⟩

/-! ## Registered measures and other definitions

A definition is taken for the registered one of its name if it is authored alike, numbers in its
filters being compared as numbers. It may differ from it in its filters then, and filters are not
looked at when a measure is compiled. -/

theorem exists_of_isRegistered (h : r.isRegistered entity m = true) :
    ∃ n fs, r.measureAt? entity n.name = some n ∧ m = { n with filters := fs } := by
  unfold isRegistered at h
  cases hn : (r.entity? entity).bind fun e => e.measure? m.name with
  | none => simp [hn] at h
  | some n =>
    simp only [hn, Measure.equals, Bool.and_eq_true, decide_eq_true_eq] at h
    obtain ⟨⟨⟨⟨⟨hname, hsql⟩, hdeclared⟩, -⟩, hdescription⟩, hpublic⟩ := h
    refine ⟨n, m.filters, hname ▸ hn, ?_⟩
    cases m
    simp_all

theorem compileShared_filters (fs : List Filter) :
    r.compileShared rules pending visiting entity { m with filters := fs } memo =
      r.compileShared rules pending visiting entity m memo := by
  rw [compileShared, compileShared]
  rfl

theorem compileAfresh_filters (fs : List Filter) :
    r.compileAfresh rules pending visiting entity { m with filters := fs } =
      r.compileAfresh rules pending visiting entity m := by
  rw [compileAfresh, compileAfresh]
  rfl

/-- A measure compiles to what its text defines, whether it is registered or not. -/
theorem compileMeasureAfresh_ok_iff :
    r.compileMeasureAfresh rules entity m = .ok node ↔
      r.defineAfresh rules (r.compileAlone rules) entity m = .ok node := by
  unfold compileMeasureAfresh
  split
  · next hregistered =>
    obtain ⟨n, fs, hn, rfl⟩ := exists_of_isRegistered hregistered
    have ha : r.measureAt? (entity, n.name).1 (entity, n.name).2 = some n := hn
    rw [compileAlone, compileAfresh_filters]
    exact compileAlone_ok_iff ha
  · exact Iff.rfl

/-- Compiling a measure of an entity, with what is kept from others, gives what compiling it alone
gives, and keeps nothing else. -/
theorem compileMeasure_eq {P : Memo → Prop} (hP : Upholds (Scope.around r rules entity) P)
    (hmemo : P memo) :
    (r.compileMeasure rules entity m memo).1 = r.compileMeasureAfresh rules entity m ∧
      P (r.compileMeasure rules entity m memo).2 := by
  unfold compileMeasure compileMeasureAfresh
  split
  · next hregistered =>
    obtain ⟨n, fs, hn, rfl⟩ := exists_of_isRegistered hregistered
    have hroot : Searching (Scope.around r rules entity) r.measureKeys [] (entity, n.name) :=
      searching_nil (Or.inl rfl)
    rw [compileAlone, compileShared_filters, compileAfresh_filters]
    exact compileShared_eq hP hroot hn hmemo
  · refine define_eq (fun ref upstream kept hread hkept => ?_) hmemo
    exact compileShared_eq hP (searching_nil (Scope.holds_of_reads hread)) hread.registered hkept

theorem compileMeasure_nil :
    (r.compileMeasure rules entity m []).1 = r.compileMeasureAfresh rules entity m :=
  (compileMeasure_eq (upholds_faithful _) faithful_nil).1

/-- What is kept from others makes no difference to what a measure compiles to. -/
theorem compileMeasure_of_upholds {P : Memo → Prop}
    (hP : Upholds (Scope.around r rules entity) P) (hmemo : P memo) :
    (r.compileMeasure rules entity m memo).1 = (r.compileMeasure rules entity m []).1 ∧
      P (r.compileMeasure rules entity m memo).2 := by
  obtain ⟨hresult, hkept⟩ := compileMeasure_eq hP hmemo
  exact ⟨hresult.trans compileMeasure_nil.symm, hkept⟩

theorem compileNamed_of_upholds {P : Memo → Prop} {name : String}
    (hP : Upholds (Scope.around r rules entity) P) (hmemo : P memo) :
    (r.compileNamed rules entity name memo).1 = (r.compileNamed rules entity name []).1 ∧
      P (r.compileNamed rules entity name memo).2 := by
  unfold compileNamed
  cases r.lookup entity with
  | error f => exact ⟨rfl, hmemo⟩
  | ok e =>
    cases hm : e.measure? name with
    | none => simpa only [hm, true_and] using hmemo
    | some m => simpa only [hm] using compileMeasure_of_upholds hP hmemo

theorem measureAt?_of_compileNamed (h : (r.compileNamed rules a.1 a.2 memo).1 = .ok node) :
    ∃ m, r.measureAt? a.1 a.2 = some m := by
  unfold compileNamed at h
  cases he : r.lookup a.1 with
  | error f => simp [he] at h
  | ok e =>
    cases hm : e.measure? a.2 with
    | none => simp [he, hm] at h
    | some m => exact ⟨m, measureAt?_eq_some_iff.2 ⟨e, lookup_eq_ok_iff.1 he, hm⟩⟩

theorem compileNamed_eq {name : String} (hm : r.measureAt? entity name = some m) :
    (r.compileNamed rules entity name []).1 = r.compileMeasureAfresh rules entity m := by
  obtain ⟨e, he, hmeasure⟩ := measureAt?_eq_some_iff.1 hm
  unfold compileNamed
  simp only [lookup_eq_ok_iff.2 he, hmeasure]
  exact compileMeasure_nil

theorem compileNamed_ok_iff (hm : r.measureAt? a.1 a.2 = some m) :
    (r.compileNamed rules a.1 a.2 []).1 = .ok node ↔ r.compileAlone rules a.1 m = .ok node := by
  rw [compileNamed_eq hm, compileMeasureAfresh]
  split
  · exact Iff.rfl
  · exact (compileAlone_ok_iff hm).symm

end Registry

end MetricLayer
