import MetricLayer.Proofs.Measure.Sharing

/-!
# Compiling after other measures

A compiler serves one call after another and keeps the measures it has compiled for later calls. It
knows a measure by the text of its entity and its name. Names may hold dots, so two measures may go
by one text, and then the one that is asked for later is taken for the other. Where no measure that
compiles shares its text, every call gives what it gives a compiler that has served no other, and
only there (`Call.run_kept`).
-/

namespace MetricLayer

open Schema

/-- A call of a compiler: for the measure that an entity declares under a name, or for a definition
of a measure of an entity. -/
inductive Call where
  | named (entity name : String)
  | definition (entity : String) (m : Measure)

namespace Call

/-- What a call gives, and what is kept after it. -/
def run (r : Registry) (rules : WalkRules) : Call → Memo → Except Fault MeasureNode × Memo
  | named entity name => r.compileNamed rules entity name
  | definition entity m => r.compileMeasure rules entity m

/-- What a compiler keeps after a sequence of calls. -/
def kept (r : Registry) (rules : WalkRules) (history : List Call) : Memo :=
  history.foldl (fun memo call => (call.run r rules memo).2) []

end Call

namespace Registry

variable {r : Registry} {rules : WalkRules} {a b : String × String} {m n : Measure} {memo : Memo}
  {node : MeasureNode}

/-- A measure that compiles is the only one that goes by its text. -/
def TellsApart (r : Registry) (rules : WalkRules) : Prop :=
  ∀ a b n node, (r.compileNamed rules a.1 a.2 []).1 = .ok node → r.measureAt? b.1 b.2 = some n →
    memberText a = memberText b → a = b

/-- Names of measures that are free of dots tell them apart, whatever their entities are called. -/
theorem tellsApart_of_dotFree (h : ∀ e ∈ r.entities, ∀ m ∈ e.measures, DotFree m.name) :
    r.TellsApart rules := by
  have hfree : ∀ {a : String × String} {m}, r.measureAt? a.1 a.2 = some m → DotFree a.2 := by
    intro a m hm
    obtain ⟨e, he, hmeasure⟩ := measureAt?_eq_some_iff.1 hm
    obtain ⟨hmem, hname⟩ := Entity.mem_of_measure? hmeasure
    exact hname ▸ h e (entity?_eq_some_iff.1 he).1 m hmem
  intro a b n node hnode hn htext
  obtain ⟨m, hm⟩ := measureAt?_of_compileNamed hnode
  obtain ⟨hentity, hmember⟩ := (Path.qualified_inj_of_member (hfree hm) (hfree hn)).1 htext
  exact Prod.ext hentity hmember

/-! ## What is kept is true -/

/-- Where texts tell measures apart, a compiler keeps under each what its measure compiles to
alone, whichever entities its calls are about. -/
theorem TellsApart.upholds (h : r.TellsApart rules) (s : Scope r rules) :
    Upholds s (r.Faithful rules fun _ => True) where
  found := by
    intro memo a m node hmemo _ hm hlookup
    obtain ⟨b, n, -, htext, hn, hnode⟩ := hmemo _ _ hlookup
    obtain rfl : b = a := h b a m node ((compileNamed_ok_iff hn).2 hnode) hm htext
    rw [hm] at hn
    cases hn
    exact hnode
  kept hmemo _ hm hnode := hmemo.cons trivial hm hnode

end Registry

namespace Call

variable {r : Registry} {rules : WalkRules} {call : Call} {memo : Memo}

/-- One more call gives what it gives when nothing is kept, and keeps nothing untrue. -/
theorem run_of_faithful (h : r.TellsApart rules) (hmemo : r.Faithful rules (fun _ => True) memo) :
    (call.run r rules memo).1 = (call.run r rules []).1 ∧
      r.Faithful rules (fun _ => True) (call.run r rules memo).2 := by
  cases call with
  | definition entity m => exact Registry.compileMeasure_of_upholds (h.upholds _) hmemo
  | named entity name => exact Registry.compileNamed_of_upholds (h.upholds _) hmemo

theorem faithful_foldl (h : r.TellsApart rules) (history : List Call)
    (hmemo : r.Faithful rules (fun _ => True) memo) :
    r.Faithful rules (fun _ => True)
      (history.foldl (fun memo call => (call.run r rules memo).2) memo) := by
  induction history generalizing memo with
  | nil => exact hmemo
  | cons call rest ih => exact ih (run_of_faithful h hmemo).2

theorem faithful_kept (h : r.TellsApart rules) (history : List Call) :
    r.Faithful rules (fun _ => True) (kept r rules history) :=
  faithful_foldl h history Registry.faithful_nil

end Call

/-! ## One text for two measures -/

namespace Registry

variable {r : Registry} {rules : WalkRules} {a b : String × String} {m n : Measure} {memo : Memo}
  {node : MeasureNode}

theorem compileNamed_of_measureAt? (hm : r.measureAt? a.1 a.2 = some m) :
    r.compileNamed rules a.1 a.2 memo = r.compileMeasure rules a.1 m memo := by
  obtain ⟨e, he, hmeasure⟩ := measureAt?_eq_some_iff.1 hm
  unfold compileNamed
  simp only [lookup_eq_ok_iff.2 he, hmeasure]

theorem lookup_compileNamed (hm : r.measureAt? a.1 a.2 = some m)
    (hregistered : r.isRegistered a.1 m = true)
    (h : (r.compileNamed rules a.1 a.2 []).1 = .ok node) :
    (r.compileNamed rules a.1 a.2 []).2.lookup (memberText a) = some node := by
  rw [compileNamed_of_measureAt? hm, compileMeasure, if_pos hregistered,
    ← List.map_nil (f := memberText),
    compileShared_push hm (by simp) (mem_measureKeys hm)] at h ⊢
  rcases hd : r.define rules _ a.1 m [] with ⟨f | n, memo⟩
  · rw [hd] at h
    cases h
  · rw [hd] at h
    cases h
    simp

theorem compileNamed_of_lookup (hm : r.measureAt? a.1 a.2 = some m)
    (hregistered : r.isRegistered a.1 m = true) (h : memo.lookup (memberText a) = some node) :
    r.compileNamed rules a.1 a.2 memo = (.ok node, memo) := by
  rw [compileNamed_of_measureAt? hm, compileMeasure, if_pos hregistered]
  exact compileShared_of_lookup hm h

theorem name_of_compileNamed (hm : r.measureAt? a.1 a.2 = some m)
    (h : (r.compileNamed rules a.1 a.2 []).1 = .ok node) : node.name = a.2 := by
  rw [compileNamed_eq hm] at h
  rw [name_of_compileMeasureAfresh h, name_of_measureAt? hm]

end Registry

namespace Call

variable {r : Registry} {rules : WalkRules}

/-- If a call never depends on those before it, measures are told apart: a measure that goes by the
text of another would be given under the other's name. -/
theorem tellsApart_of_run_kept
    (hself : ∀ e ∈ r.entities, ∀ m ∈ e.measures, r.isRegistered e.name m = true)
    (h : ∀ history call, (run r rules call (kept r rules history)).1 = (run r rules call []).1) :
    r.TellsApart rules := by
  have hregistered : ∀ {a : String × String} {m : Measure}, r.measureAt? a.1 a.2 = some m →
      r.isRegistered a.1 m = true := by
    intro a m hm
    obtain ⟨e, he, hmeasure⟩ := Registry.measureAt?_eq_some_iff.1 hm
    obtain ⟨hmem, hname⟩ := Registry.entity?_eq_some_iff.1 he
    exact hname ▸ hself e hmem m (Entity.mem_of_measure? hmeasure).1
  intro a b n node hnode hn htext
  obtain ⟨m, hm⟩ := Registry.measureAt?_of_compileNamed hnode
  have hkept : (kept r rules [named a.1 a.2]).lookup (memberText b) = some node :=
    htext ▸ Registry.lookup_compileNamed hm (hregistered hm) hnode
  have hfresh : (r.compileNamed rules b.1 b.2 []).1 = .ok node :=
    (h [named a.1 a.2] (named b.1 b.2)).symm.trans
      (congrArg Prod.fst (Registry.compileNamed_of_lookup hn (hregistered hn) hkept))
  have hmember : a.2 = b.2 :=
    (Registry.name_of_compileNamed hm hnode).symm.trans (Registry.name_of_compileNamed hn hfresh)
  unfold memberText at htext
  rw [hmember] at htext
  exact Prod.ext (Path.qualified_inj_left.1 htext) hmember

/-- **Calls and those before them.** Where a measure that compiles is the only one that goes by its
text, a call gives what it gives a compiler that has served no other. Elsewhere some call does not,
unless the registry holds a measure that is not equal to itself, one with a filter for NaN. -/
theorem run_kept :
    (r.TellsApart rules → ∀ history call,
      (run r rules call (kept r rules history)).1 = (run r rules call []).1) ∧
    ((∀ e ∈ r.entities, ∀ m ∈ e.measures, r.isRegistered e.name m = true) →
      (∀ history call, (run r rules call (kept r rules history)).1 = (run r rules call []).1) →
        r.TellsApart rules) :=
  ⟨fun h history _ => (run_of_faithful h (faithful_kept h history)).1, tellsApart_of_run_kept⟩

/-- In the shop, where no name has a dot, a call depends on none before it. -/
theorem run_kept_shop :
    let r := Shop.registry
    (∀ e ∈ r.entities, ∀ m ∈ e.measures, DotFree m.name ∧ r.isRegistered e.name m = true) ∧
      (∀ history call, (run r {} call (kept r {} history)).1 = (run r {} call []).1) ∧
      r.TellsApart {} := by
  intro r
  have hmeasures : ∀ e ∈ r.entities, ∀ m ∈ e.measures,
      DotFree m.name ∧ r.isRegistered e.name m = true := by decide +kernel
  have hcalls : ∀ history call, (run r {} call (kept r {} history)).1 = (run r {} call []).1 :=
    run_kept.1 (Registry.tellsApart_of_dotFree fun e he m hm => (hmeasures e he m hm).1)
  exact ⟨hmeasures, hcalls, run_kept.2 (fun e he m hm => (hmeasures e he m hm).2) hcalls⟩

end Call

/-! ## Names with dots

The orders of a shop in the European Union are counted for the Union, and summed up for the shop:
the text `eu.shop.orders` stands for both measures. -/

namespace Regions

def eu : Entity where
  name := "eu"
  measures := [{ name := "shop.orders", declared := some .count }]

def shop : Entity where
  name := "eu.shop"
  dimensions := [{ name := "amount", valueType := .number }]
  measures := [{ name := "orders", sql := some ("SUM(" ++ Shop.refer "amount" ++ ")") }]

def registry : Registry := Shop.registryOf [eu, shop]

end Regions

/-- After the count of the Union has been compiled, the orders of the shop are that count. -/
theorem Call.run_kept_regions :
    let r := Regions.registry
    let history := [named "eu" "shop.orders"]
    let call := named "eu.shop" "orders"
    (run r {} call (kept r {} history)).1.toOption.map MeasureNode.aggregation = some .count ∧
      (run r {} call []).1.toOption.map MeasureNode.aggregation = some .sum ∧
      (run r {} call (kept r {} history)).1 ≠ (run r {} call []).1 := by
  intro r history call
  have hlater : (run r {} call (kept r {} history)).1.toOption.map MeasureNode.aggregation =
      some .count := by decide +kernel
  have hfresh : (run r {} call []).1.toOption.map MeasureNode.aggregation = some .sum := by
    decide +kernel
  refine ⟨hlater, hfresh, fun h => ?_⟩
  rw [h, hfresh] at hlater
  cases hlater

end MetricLayer
