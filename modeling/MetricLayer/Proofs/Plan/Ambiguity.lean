import Mathlib.Data.Finset.Card
import MetricLayer.Proofs.Plan.Verdict

/-!
# Ambiguous joins

A join is ambiguous where an entity declares two or more different joins to one target. A review
reports exactly those that the plan crosses: it finds each through any reference that the plan
mentions, in whichever direction the reference crosses it, gives the number of different joins, and
says it once (`Plan.review_reportsJoin`).
-/

namespace MetricLayer

open Schema

/-! ## Lists without repetitions -/

section EraseDups

variable {α : Type*} [BEq α] [LawfulBEq α]

theorem nodup_eraseDups (xs : List α) : xs.eraseDups.Nodup := by
  -- The recursion is that of `eraseDups`: on what is left once the head is filtered out.
  match xs with
  | [] => simp
  | x :: xs =>
    rw [List.eraseDups_cons, List.nodup_cons]
    refine ⟨fun hx => ?_, nodup_eraseDups _⟩
    rw [List.mem_eraseDups, List.mem_filter] at hx
    simp at hx
termination_by xs.length
decreasing_by exact Nat.lt_succ_of_le (List.length_filter_le _ _)

theorem length_eraseDups [DecidableEq α] (xs : List α) :
    xs.eraseDups.length = xs.toFinset.card := by
  have hsame : xs.eraseDups.toFinset = xs.toFinset := by
    ext x
    rw [List.mem_toFinset, List.mem_toFinset, List.mem_eraseDups]
  rw [← hsame, List.toFinset_card_of_nodup (nodup_eraseDups xs)]

end EraseDups

/-! ## Declared joins -/

/-- The different joins that an entity declares to another. -/
def Schema.Entity.joinsTo (e : Entity) (target : String) : Finset Relationship :=
  {rel ∈ e.relationships.toFinset | rel.kind = .join ∧ rel.target = target}

/-- The different joins that the entity of a name declares to another. -/
def Registry.joins (r : Registry) (source target : String) : Finset Relationship :=
  match r.entity? source with
  | some e => e.joinsTo target
  | none => ∅

theorem Schema.Entity.mem_joinsTo {e : Entity} {target : String} {rel : Relationship} :
    rel ∈ e.joinsTo target ↔ rel ∈ e.relationships ∧ rel.kind = .join ∧ rel.target = target := by
  rw [joinsTo, Finset.mem_filter, List.mem_toFinset]

theorem Schema.Entity.mem_ambiguousJoins_iff {e : Entity} {target : String} {count : Nat} :
    (target, count) ∈ e.ambiguousJoins ↔ 2 ≤ count ∧ (e.joinsTo target).card = count := by
  have hcount : ∀ target, (((e.relationships.filter fun rel => rel.kind = .join).filter
      fun rel => rel.target = target).eraseDups).length = (e.joinsTo target).card := by
    intro target
    rw [length_eraseDups]
    congr 1
    ext rel
    rw [List.mem_toFinset, mem_joinsTo, List.mem_filter, List.mem_filter, and_assoc,
      decide_eq_true_iff, decide_eq_true_iff]
  unfold ambiguousJoins
  simp only [List.mem_filterMap, List.mem_eraseDups, hcount]
  constructor
  · rintro ⟨declared, -, hjoin⟩
    split_ifs at hjoin with hmany
    cases hjoin
    exact ⟨hmany, rfl⟩
  · rintro ⟨hmany, rfl⟩
    -- the target is among those looked at because some join leads to it
    have hpos : 0 < (e.joinsTo target).card := by omega
    obtain ⟨rel, hrel⟩ := Finset.card_pos.1 hpos
    obtain ⟨hdeclared, hkind, htarget⟩ := mem_joinsTo.1 hrel
    refine ⟨target, List.mem_map.2 ⟨rel, List.mem_filter.2 ⟨hdeclared, by simpa⟩, htarget⟩, ?_⟩
    exact if_pos hmany

theorem Registry.mem_ambiguousJoins_iff {r : Registry} {source target : String} {count : Nat} :
    (target, count) ∈ r.ambiguousJoins source ↔
      2 ≤ count ∧ (r.joins source target).card = count := by
  unfold ambiguousJoins joins
  cases r.entity? source with
  | none =>
    simp only [List.not_mem_nil, Finset.card_empty, false_iff]
    omega
  | some e => exact Entity.mem_ambiguousJoins_iff

/-! ## Crossed joins -/

/-- A crossing is of a join that one entity declares to another: it goes along with it, or against
it. -/
structure Crossing.OfJoin (c : Crossing) (source target : String) : Prop where
  kind : c.kind = .join
  ends : (c.reversed = false ∧ c.source = source ∧ c.target = target) ∨
    (c.reversed = true ∧ c.source = target ∧ c.target = source)

/-- A plan crosses a join that one entity declares to another: a reference that it mentions does. -/
def Plan.CrossesJoin (p : Plan) (source target : String) : Prop :=
  ∃ ref, p.Mentions ref ∧ ∃ c ∈ ref.crossings, c.OfJoin source target

theorem Crossing.ofJoin_iff {c : Crossing} {source target : String} :
    c.OfJoin source target ↔ c.kind = .join ∧ Plan.declaredEnds c = (source, target) := by
  have hends : Plan.declaredEnds c = (source, target) ↔
      (c.reversed = false ∧ c.source = source ∧ c.target = target) ∨
        (c.reversed = true ∧ c.source = target ∧ c.target = source) := by
    unfold Plan.declaredEnds
    cases c.reversed <;> simp [and_comm]
  rw [hends]
  exact ⟨fun h => ⟨h.kind, h.ends⟩, fun h => ⟨h.1, h.2⟩⟩

namespace Plan

variable {r : Registry} {walk : WalkRules} {rules : ReviewRules} {p : Plan} {d : Diagnostic}
  {source target : String} {count : Nat}

theorem mem_crossedEnds_iff :
    (source, target) ∈ ((p.references.flatMap Reference.crossings).filter
      fun c => c.kind = .join).map declaredEnds ↔ p.CrossesJoin source target := by
  simp only [List.mem_map, List.mem_filter, List.mem_flatMap, mem_references_iff, CrossesJoin,
    Crossing.ofJoin_iff, decide_eq_true_iff]
  constructor
  · rintro ⟨c, ⟨⟨ref, href, hc⟩, hkind⟩, hends⟩
    exact ⟨ref, href, c, hc, hkind, hends⟩
  · rintro ⟨ref, href, c, hc, hkind, hends⟩
    exact ⟨c, ⟨⟨ref, href, hc⟩, hkind⟩, hends⟩

theorem mem_ambiguities_iff :
    ((source, target), count) ∈ p.ambiguities r ↔
      p.CrossesJoin source target ∧ 2 ≤ count ∧ (r.joins source target).card = count := by
  rw [← Registry.mem_ambiguousJoins_iff]
  constructor
  · intro h
    refine ⟨?_, mem_ambiguities h⟩
    obtain ⟨ends, hends, hjoin⟩ := List.mem_filterMap.1 h
    obtain ⟨join, -, heq⟩ := Option.map_eq_some_iff.1 hjoin
    cases heq
    exact mem_crossedEnds_iff.1 (List.mem_eraseDups.1 hends)
  · rintro ⟨hcrosses, hjoin⟩
    refine List.mem_filterMap.2
      ⟨(source, target), List.mem_eraseDups.2 (mem_crossedEnds_iff.2 hcrosses), ?_⟩
    -- a target is listed once, so the first join that is found to it is the one at hand
    cases hfind : (r.ambiguousJoins source).find? fun j => j.1 = target with
    | none =>
      have hnone := List.find?_eq_none.1 hfind _ hjoin
      simp at hnone
    | some found =>
      have htarget : found.1 = target := by simpa using List.find?_some hfind
      have hfound : (target, found.2) ∈ r.ambiguousJoins source :=
        htarget ▸ List.mem_of_find?_eq_some hfind
      have hcount : found.2 = count :=
        (Registry.mem_ambiguousJoins_iff.1 hfound).2.symm.trans
          (Registry.mem_ambiguousJoins_iff.1 hjoin).2
      rw [Option.map_some, hcount]

theorem pairwise_ambiguities : (p.ambiguities r).Pairwise fun a b => a.1 ≠ b.1 := by
  refine List.Pairwise.filterMap _ ?_ (nodup_eraseDups _)
  intro ends ends' hne a ha b hb
  obtain ⟨-, -, rfl⟩ := Option.map_eq_some_iff.1 ha
  obtain ⟨-, -, rfl⟩ := Option.map_eq_some_iff.1 hb
  exact hne

end Plan

/-! ## What a report tells -/

/-- A diagnostic reports that the joins from one entity to another are ambiguous. -/
def Diagnostic.ReportsJoin (d : Diagnostic) (source target : String) : Prop :=
  ∃ count, d = .ofFault (.ambiguousJoin source target count)

/-- Two beginnings are equal if each can be followed by either of two different marks. -/
theorem eq_of_append_marks {α : Type*} {a b : α} (hab : a ≠ b) {as bs us vs ws zs : List α}
    (ha : as ++ a :: us = bs ++ a :: vs) (hb : as ++ b :: ws = bs ++ b :: zs) : as = bs := by
  induction as generalizing bs with
  | nil =>
    cases bs with
    | nil => rfl
    | cons y bs =>
      have hya : a = y := (List.cons.inj ha).1
      have hyb : b = y := (List.cons.inj hb).1
      exact absurd (hya.trans hyb.symm) hab
  | cons x as ih =>
    cases bs with
    | nil =>
      have hxa : x = a := (List.cons.inj ha).1
      have hxb : x = b := (List.cons.inj hb).1
      exact absurd (hxa.symm.trans hxb) hab
    | cons y bs =>
      rw [(List.cons.inj ha).1, ih (List.cons.inj ha).2 (List.cons.inj hb).2]

theorem Fault.message_ambiguousJoin (s t : String) (n : Nat) :
    (Fault.ambiguousJoin s t n).message = "Ambiguous join from '" ++ s ++ "' to '" ++ t ++ "': " ++
      n.repr ++ " relationships declared, " ++ "using the first" := rfl

/-- A report names its entities and its count unmistakably, whatever characters the names have: in
the path a point follows the first name, in the message a quote does. -/
theorem Diagnostic.ofFault_ambiguousJoin_inj {s t s' t' : String} {n n' : Nat}
    (h : ofFault (.ambiguousJoin s t n) = ofFault (.ambiguousJoin s' t' n')) :
    s = s' ∧ t = t' ∧ n = n' := by
  obtain ⟨-, -, hmessage, hpath⟩ := Diagnostic.mk.inj h
  have hpath : s ++ "." ++ t = s' ++ "." ++ t' := Option.some.inj hpath
  rw [Fault.message_ambiguousJoin, Fault.message_ambiguousJoin] at hmessage
  have hsource : s = s' := by
    have hquote : "' to '".toList = '\'' :: " to '".toList := by decide
    have hpoint : ".".toList = '.' :: [] := by decide
    have hchars := congrArg String.toList hmessage
    have hpathChars := congrArg String.toList hpath
    simp only [String.toList_append, List.append_assoc, List.append_cancel_left_eq, hquote,
      List.cons_append] at hchars
    simp only [String.toList_append, List.append_assoc, hpoint, List.cons_append] at hpathChars
    exact String.toList_injective (eq_of_append_marks (by decide) hpathChars hchars)
  subst hsource
  have htarget : t = t' := (String.append_right_inj _).1 hpath
  subst htarget
  simp only [String.append_left_inj, String.append_right_inj] at hmessage
  have hdigits : Nat.toDigits 10 n = Nat.toDigits 10 n' := String.ofList_injective hmessage
  refine ⟨rfl, rfl, ?_⟩
  rw [← Nat.ofDigitChars_ten_toDigits (n := n), hdigits, Nat.ofDigitChars_ten_toDigits]

theorem Diagnostic.ReportsJoin.isFatal {d : Diagnostic} {source target : String}
    (h : d.ReportsJoin source target) : d.isFatal = false := by
  obtain ⟨count, rfl⟩ := h
  rfl

namespace Plan

variable {r : Registry} {walk : WalkRules} {rules : ReviewRules} {p : Plan} {d : Diagnostic}

/-- The reports of the ambiguous joins that a plan crosses. -/
def joinReports (r : Registry) (p : Plan) : List Diagnostic :=
  (p.ambiguities r).map fun a => .ofFault (.ambiguousJoin a.1.1 a.1.2 a.2)

theorem exists_review_eq_append (r : Registry) (walk : WalkRules) (rules : ReviewRules) (p : Plan) :
    ∃ found, (∀ d ∈ found, d.isFatal = true) ∧
      p.review r walk rules = found ++ if rules.ambiguousJoins then p.joinReports r else [] := by
  refine ⟨_, fun d hd => ?_, rfl⟩
  simp only [List.mem_append, List.mem_flatMap] at hd
  rcases hd with ((hd | hd) | ⟨f, -, hf⟩) | ⟨f, -, hf⟩
  · exact isFatal_of_entityFaults hd
  · exact isFatal_of_referenceFaults hd
  · exact isFatal_of_predicateFaults hf
  · exact isFatal_of_predicateFaults hf

/-- Of what is not fatal, a review reports the ambiguous joins if it is told to, and nothing else.
-/
theorem mem_review_iff (hd : d.isFatal = false) :
    d ∈ p.review r walk rules ↔ rules.ambiguousJoins = true ∧ d ∈ p.joinReports r := by
  obtain ⟨found, hfatal, heq⟩ := exists_review_eq_append r walk rules p
  have hnotFound : d ∉ found := fun h => by simp [hfatal d h] at hd
  rw [heq, List.mem_append, or_iff_right hnotFound]
  by_cases hrules : rules.ambiguousJoins = true
  · rw [if_pos hrules, and_iff_right hrules]
  · rw [if_neg hrules, eq_false hrules, false_and, iff_false]
    exact List.not_mem_nil

theorem mem_joinReports_iff {source target : String} {count : Nat} :
    .ofFault (.ambiguousJoin source target count) ∈ p.joinReports r ↔
      p.CrossesJoin source target ∧ 2 ≤ count ∧ (r.joins source target).card = count := by
  rw [← mem_ambiguities_iff, joinReports, List.mem_map]
  constructor
  · rintro ⟨⟨⟨s, t⟩, n⟩, hmem, heq⟩
    obtain ⟨rfl, rfl, rfl⟩ := Diagnostic.ofFault_ambiguousJoin_inj heq
    exact hmem
  · intro hmem
    exact ⟨_, hmem, rfl⟩

theorem exists_reportsJoin_of_mem (h : d ∈ p.joinReports r) :
    ∃ source target, d.ReportsJoin source target := by
  obtain ⟨a, -, rfl⟩ := List.mem_map.1 h
  exact ⟨_, _, _, rfl⟩

theorem pairwise_joinReports : (p.joinReports r).Pairwise fun d d' =>
    ∀ source target, ¬ (d.ReportsJoin source target ∧ d'.ReportsJoin source target) := by
  refine List.pairwise_map.2 (pairwise_ambiguities.imp fun {a a'} hne => ?_)
  rintro source target ⟨⟨n, hn⟩, ⟨n', hn'⟩⟩
  obtain ⟨hs, ht, -⟩ := Diagnostic.ofFault_ambiguousJoin_inj hn
  obtain ⟨hs', ht', -⟩ := Diagnostic.ofFault_ambiguousJoin_inj hn'
  exact hne (Prod.ext (hs.trans hs'.symm) (ht.trans ht'.symm))

/-- **Ambiguous joins.** If it is told to, a review reports that the joins from one entity to
another are ambiguous exactly if the plan crosses one of them, in either direction and at any depth
of its measures, and the entity declares two or more different ones, whose number it gives:
inclusions do not count, and a join that is declared twice counts once. It does so once for each
pair of entities, whatever settings it runs under, and finds nothing else that is not fatal. -/
theorem review_reportsJoin (r : Registry) (walk : WalkRules) (rules : ReviewRules) (p : Plan) :
    (∀ source target count,
      .ofFault (.ambiguousJoin source target count) ∈ p.review r walk rules ↔
        rules.ambiguousJoins = true ∧ p.CrossesJoin source target ∧
          2 ≤ count ∧ (r.joins source target).card = count) ∧
      (p.review r walk rules).Pairwise (fun d d' =>
        ∀ source target, ¬ (d.ReportsJoin source target ∧ d'.ReportsJoin source target)) ∧
      ∀ d ∈ p.review r walk rules, d.isFatal = false →
        ∃ source target, d.ReportsJoin source target := by
  refine ⟨fun source target count => ?_, ?_, fun d hd hfatal => ?_⟩
  · rw [mem_review_iff (Diagnostic.ReportsJoin.isFatal ⟨count, rfl⟩), mem_joinReports_iff]
  · obtain ⟨found, hfatal, heq⟩ := exists_review_eq_append r walk rules p
    have hnone : ∀ d ∈ found, ∀ source target, ¬ d.ReportsJoin source target := by
      intro d hd source target h
      have hsevere := hfatal d hd
      rw [h.isFatal] at hsevere
      exact Bool.false_ne_true hsevere
    rw [heq, List.pairwise_append]
    refine ⟨List.pairwise_of_forall_mem_list fun d hd _ _ source target h =>
        hnone d hd source target h.1, ?_, fun d hd _ _ source target h =>
        hnone d hd source target h.1⟩
    split
    · exact pairwise_joinReports
    · exact List.Pairwise.nil
  · exact exists_reportsJoin_of_mem ((mem_review_iff hfatal).1 hd).2

/-- Orders join their buyers, once more their sellers, and their buyers again. A filter of the users
crosses the first of these joins backwards. -/
example :
    let ways : List Relationship :=
      [{ target := "users" }, { target := "users", condition := some "seller" },
        { target := "users" }, .inclusion "users"]
    let users := { Shop.users with measures := [] }
    let orders := { Shop.orders with relationships := ways }
    let c : Compiler := { registry := Shop.registryOf [users, orders] }
    (c.compile "users" [.member "orders.amount" .isNotNull []]).diagnostics =
      [.ofFault (.ambiguousJoin "orders" "users" 2)] := by
  decide +kernel

end Plan

end MetricLayer
