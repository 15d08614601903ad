import MetricLayer.Expression.Condition
import MetricLayer.Proofs.Text.Blank
import Mathlib.Data.List.Forall2

/-!
# Strings in conditions

A string is written between single quotes with each of its quotes doubled. What is read as a string
only has to begin and end with a quote: a quote inside that stands alone is read like a doubled one.
So a string is read from the text it is written as if and only if the quotes inside that text stand
in pairs (`readCondition_exact_iff`), and two conditions in one text, or two lists, can be read as
one string.
-/

namespace MetricLayer

open Schema

/-! ## Doubled quotes -/

namespace Schema.Literal

/-- A text in which single quotes stand in pairs. -/
inductive Paired : List Char → Prop where
  | nil : Paired []
  | pair {cs : List Char} : Paired cs → Paired ('\'' :: '\'' :: cs)
  | other {c : Char} {cs : List Char} : c ≠ '\'' → Paired cs → Paired (c :: cs)

theorem halveQuotes_cons {c : Char} (hc : c ≠ '\'') (cs : List Char) :
    halveQuotes (c :: cs) = c :: halveQuotes cs := by
  rw [halveQuotes]
  intro _ h
  exact absurd h hc

theorem halveQuotes_doubleQuotes (cs : List Char) : halveQuotes (doubleQuotes cs) = cs := by
  induction cs with
  | nil => rfl
  | cons c cs ih =>
    rw [doubleQuotes]
    by_cases hc : c = '\''
    · rw [if_pos hc, halveQuotes, ih, hc]
    · rw [if_neg hc, halveQuotes_cons hc, ih]

theorem mem_doubleQuotes {c : Char} {cs : List Char} : c ∈ doubleQuotes cs ↔ c ∈ cs := by
  induction cs with
  | nil => rfl
  | cons d cs ih =>
    rw [doubleQuotes]
    split <;> simp_all

theorem paired_doubleQuotes (cs : List Char) : Paired (doubleQuotes cs) := by
  induction cs with
  | nil => exact .nil
  | cons c cs ih =>
    rw [doubleQuotes]
    by_cases hc : c = '\''
    · rw [if_pos hc]
      exact .pair ih
    · rw [if_neg hc]
      exact .other hc ih

theorem doubleQuotes_halveQuotes {cs : List Char} (h : Paired cs) :
    doubleQuotes (halveQuotes cs) = cs := by
  induction h with
  | nil => rfl
  | pair _ ih => rw [halveQuotes, doubleQuotes, if_pos rfl, ih]
  | other hc _ ih => rw [halveQuotes_cons hc, doubleQuotes, if_neg hc, ih]

theorem paired_iff {cs : List Char} : Paired cs ↔ doubleQuotes (halveQuotes cs) = cs :=
  ⟨doubleQuotes_halveQuotes, fun h => h ▸ paired_doubleQuotes _⟩

instance : DecidablePred Paired := fun _ => decidable_of_iff _ paired_iff.symm

end Schema.Literal

namespace Expression

open Literal

/-! ## Reading a string -/

theorem between?_eq_some_iff {first last : Char} {cs inner : List Char} :
    between? first last cs = some inner ↔ cs = first :: (inner ++ [last]) := by
  cases cs with
  | nil => simp [between?]
  | cons c rest =>
    rw [between?, List.cons.injEq]
    constructor
    · intro h
      split at h
      · next hc =>
        obtain ⟨rfl, hlast⟩ := hc
        obtain ⟨init, rfl⟩ := List.getLast?_eq_some_iff.1 hlast
        cases h
        exact ⟨rfl, by rw [List.dropLast_concat]⟩
      · simp at h
    · rintro ⟨rfl, rfl⟩
      rw [if_pos ⟨rfl, List.getLast?_concat⟩, List.dropLast_concat]

theorem literal_eq_string_iff {cs : List Char} {s : String} :
    literal cs = .ok (.string s) ↔
      ∃ inner, Text.trim cs = '\'' :: (inner ++ ['\'']) ∧
        s = String.ofList (halveQuotes inner) := by
  unfold literal
  cases hb : between? '\'' '\'' (Text.trim cs) with
  | some inner =>
    simp only [hb, Except.ok.injEq, string.injEq]
    rw [between?_eq_some_iff] at hb
    simp [hb, eq_comm]
  | none =>
    have hnone : ∀ inner, Text.trim cs ≠ '\'' :: (inner ++ ['\'']) := by
      intro inner h
      rw [between?_eq_some_iff.2 h] at hb
      simp at hb
    simp only [hb, hnone, false_and, exists_false, iff_false]
    split_ifs
    · simp
    · simp
    · split <;> simp

/-- A string is read from the text it is written as if the quotes inside stand in pairs. -/
theorem eq_quote_iff {inner : List Char} :
    '\'' :: (inner ++ ['\'']) = (quote (String.ofList (halveQuotes inner))).toList ↔
      Paired inner := by
  rw [quote, String.toList_ofList, String.toList_ofList, paired_iff, List.cons.injEq,
    List.append_cancel_right_eq]
  simp [eq_comm]

theorem toList_quote (s : String) : (quote s).toList = '\'' :: (doubleQuotes s.toList ++ ['\'']) :=
  String.toList_ofList

theorem trim_quote (s : String) : Text.trim (quote s).toList = (quote s).toList := by
  rw [toList_quote, ← List.cons_append]
  refine Text.trim_eq_self ?_ fun c hc => ?_
  · rintro _ ⟨⟩
    rfl
  · rw [List.getLast?_concat] at hc
    cases hc
    rfl

/-- What is written as a string is read as that string. -/
theorem literal_quote (s : String) : literal (quote s).toList = .ok (.string s) := by
  refine literal_eq_string_iff.2 ⟨doubleQuotes s.toList, (trim_quote s).trans (toList_quote s), ?_⟩
  rw [halveQuotes_doubleQuotes, String.ofList_toList]

/-! ## The texts of literals -/

/-- The texts that the literals after an operator are read from. -/
def literalTexts (op : Operator) (rest : List Char) : List (List Char) :=
  if op.isNullCheck then []
  else if op.isSetMembership then ((between? '(' ')' rest).map listItems).getD []
  else [rest]

/-- The texts that the literals of a condition are read from. -/
def sourceTexts (sql : String) (op : Operator) : List (List Char) :=
  match conditionParts? sql.toList with
  | some (_, _, _, rest) => literalTexts op rest
  | none => []

theorem forall₂_of_mapM {α β ε : Type} {f : α → Except ε β} {xs : List α} {ys : List β}
    (h : xs.mapM f = .ok ys) : List.Forall₂ (fun x y => f x = .ok y) xs ys := by
  induction xs generalizing ys with
  | nil =>
    cases h
    exact .nil
  | cons x xs ih =>
    rw [List.mapM_cons] at h
    cases hx : f x with
    | error e => simp [hx, bind, Except.bind] at h
    | ok y =>
      cases hxs : xs.mapM f with
      | error e => simp [hx, hxs, bind, Except.bind] at h
      | ok zs =>
        simp only [hx, hxs, bind, Except.bind, pure, Except.pure, Except.ok.injEq] at h
        subst h
        exact .cons hx (ih hxs)

theorem mapM_of_forall₂ {α β ε : Type} {f : α → Except ε β} {xs : List α} {ys : List β}
    (h : List.Forall₂ (fun x y => f x = .ok y) xs ys) : xs.mapM f = .ok ys := by
  induction h with
  | nil => rfl
  | cons hx _ ih =>
    rw [List.mapM_cons, hx, ih]
    rfl

theorem operands_ok {sql : String} {op : Operator} {rest : List Char} {values : List Literal}
    (h : operands sql op rest = .ok values) :
    List.Forall₂ (fun text v => literal text = .ok v) (literalTexts op rest) values := by
  unfold operands at h
  unfold literalTexts
  split_ifs at h ⊢ with hnull hempty hset
  · cases h
    exact .nil
  · cases hb : between? '(' ')' rest with
    | none => simp [hb] at h
    | some inner =>
      simp only [hb] at h
      exact forall₂_of_mapM h
  · cases hv : literal rest with
    | error e => simp [hv, bind, Except.bind] at h
    | ok v =>
      obtain rfl : [v] = values := by simpa [hv, bind, Except.bind, pure, Except.pure] using h
      exact .cons hv .nil

theorem readCondition_ok {entity sql : String} {c : Condition}
    (h : readCondition entity sql = .ok c) :
    List.Forall₂ (fun text v => literal text = .ok v) (sourceTexts sql c.operator) c.values := by
  unfold readCondition at h
  unfold sourceTexts
  cases hparts : conditionParts? sql.toList with
  | none => simp [hparts] at h
  | some parts =>
    obtain ⟨member, spelling, spelled, rest⟩ := parts
    cases hop : spelling.operator? spelled with
    | none => simp [hparts, hop] at h
    | some op =>
      cases hvalues : operands sql op rest with
      | error e => simp [hparts, hop, hvalues, bind, Except.bind] at h
      | ok values =>
        simp only [hparts, hop, hvalues, bind, Except.bind, pure, Except.pure,
          Except.ok.injEq] at h
        subst h
        exact operands_ok hvalues

/-! ## Exact readings -/

/-- The text that a literal is read from is the one that it is written as, if it is a string. -/
def WrittenAs (text : List Char) : Literal → Prop
  | .string s => Text.trim text = (quote s).toList
  | _ => True

instance (text : List Char) : DecidablePred (WrittenAs text)
  | .string s => inferInstanceAs (Decidable (Text.trim text = (quote s).toList))
  | .bool _ => isTrue trivial
  | .number _ => isTrue trivial

/-- No quote stands alone between the quotes that a text may begin and end with. -/
def NoStrayQuote (text : List Char) : Prop :=
  ∀ inner ∈ between? '\'' '\'' (Text.trim text), Paired inner

instance : DecidablePred NoStrayQuote := fun _ => inferInstanceAs (Decidable (∀ _ ∈ _, _))

/-- Each string that a condition compares with is read from the text that it is written as. -/
def ReadsExactly (sql : String) (c : Condition) : Prop :=
  List.Forall₂ WrittenAs (sourceTexts sql c.operator) c.values

instance (sql : String) : DecidablePred (ReadsExactly sql) := fun _ =>
  inferInstanceAs (Decidable (List.Forall₂ _ _ _))

/-- A literal is read exactly if and only if no quote stands alone inside its text. -/
theorem writtenAs_iff {text : List Char} {v : Literal} (h : literal text = .ok v) :
    WrittenAs text v ↔ NoStrayQuote text := by
  cases hb : between? '\'' '\'' (Text.trim text) with
  | none =>
    have hstray : NoStrayQuote text := by simp [NoStrayQuote, hb]
    refine iff_of_true ?_ hstray
    cases v with
    | string s =>
      obtain ⟨inner, hinner, -⟩ := literal_eq_string_iff.1 h
      rw [between?_eq_some_iff.2 hinner] at hb
      simp at hb
    | bool b => trivial
    | number x => trivial
  | some inner =>
    have hinner := between?_eq_some_iff.1 hb
    have hread : literal text = .ok (.string (String.ofList (halveQuotes inner))) :=
      literal_eq_string_iff.2 ⟨inner, hinner, rfl⟩
    obtain rfl : v = .string (String.ofList (halveQuotes inner)) := by
      rw [h] at hread
      exact Except.ok.inj hread
    rw [WrittenAs, NoStrayQuote, hb, hinner, eq_quote_iff]
    simp

/-- **Strings in conditions.** The literals of a condition are read from its texts, in order, and
the strings among them are read from the texts that they are written as if and only if no quote
stands alone inside one of the texts. -/
theorem readCondition_exact_iff {entity sql : String} {c : Condition}
    (h : readCondition entity sql = .ok c) :
    List.Forall₂ (fun text v => literal text = .ok v) (sourceTexts sql c.operator) c.values ∧
      (ReadsExactly sql c ↔ ∀ text ∈ sourceTexts sql c.operator, NoStrayQuote text) := by
  have hread := readCondition_ok h
  refine ⟨hread, ?_⟩
  unfold ReadsExactly
  generalize sourceTexts sql c.operator = texts at hread ⊢
  generalize c.values = values at hread ⊢
  induction hread with
  | nil => simp
  | cons hv _ ih => rw [List.forall₂_cons, List.forall_mem_cons, ih, writtenAs_iff hv]

/-- Of the strings in a list, one has a quote inside, and both are read exactly. -/
theorem readCondition_exact_iff_list :
    let sql := "$\x7bCUBE.status\x7d NOT IN ('open', 'it''s')"
    ∃ c, readCondition "orders" sql = .ok c ∧ c.values = [.string "open", .string "it's"] ∧
      ReadsExactly sql c := by
  intro sql
  have hread : readCondition "orders" sql =
      .ok ⟨"orders.status", .notIn, [.string "open", .string "it's"]⟩ := by decide +kernel
  have hpaired : ∀ text ∈ sourceTexts sql .notIn, NoStrayQuote text := by decide +kernel
  exact ⟨_, hread, rfl, (readCondition_exact_iff hread).2.2 hpaired⟩

/-- Two conditions are read as one, on a string that would be written in another way. -/
theorem readCondition_two_conditions :
    let sql := "$\x7bx\x7d = 'a' OR $\x7by\x7d = 'b'"
    ∃ c, readCondition "orders" sql = .ok c ∧ c.values = [.string "a' OR $\x7by\x7d = 'b"] ∧
      ¬ ReadsExactly sql c := by
  intro sql
  exact ⟨⟨"x", .equals, [.string "a' OR $\x7by\x7d = 'b"]⟩, by decide +kernel, rfl,
    by decide +kernel⟩

end Expression

end MetricLayer
