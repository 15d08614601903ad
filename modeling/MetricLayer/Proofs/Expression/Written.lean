import MetricLayer.Plan.Filtering
import MetricLayer.Proofs.Expression.Operators
import MetricLayer.Proofs.Expression.StringLiteral
import MetricLayer.Proofs.Registry.Lookup

/-!
# Conditions as they are written

A condition is written as the placeholder of a member, a spelling of the operator, and the texts of
the literals (`Writes`). Blanks may stand between the parts; only what is compared with stays on one
line. Whatever stands in the strings, quotes, commas, parentheses or operators, a text that writes a
condition is read as that condition (`readCondition_of_writes`). So a filter may be authored in
either form, and is compiled to the same predicate or fails with the same fault
(`compileFilter_of_writes`).
-/

namespace MetricLayer

open Schema

namespace Expression

open Literal

variable {cs member text rest : List Char} {op : Operator} {v : Literal} {values : List Literal}

/-! ## Literals -/

/-- A literal that is read from its text and stays on one line: a truth value, or a string without a
line feed. -/
def IsWritable : Literal → Prop
  | .bool _ => True
  | .string s => '\n' ∉ s.toList
  | .number _ => False

instance : DecidablePred IsWritable
  | .bool _ => isTrue trivial
  | .string s => inferInstanceAs (Decidable ('\n' ∉ s.toList))
  | .number _ => isFalse id

/-- Blanks on one line. -/
def IsSpace (blanks : List Char) : Prop := Text.allBlank blanks = true ∧ '\n' ∉ blanks

/-- A literal with blanks at the ends of its text. -/
inductive WritesItem (v : Literal) : List Char → Prop where
  | intro {before after : List Char} : IsSpace before → IsSpace after →
    WritesItem v (before ++ (v.text.toList ++ after))

/-- Literals with commas between them. -/
inductive WritesItems : List Literal → List Char → Prop where
  | none {blanks : List Char} : IsSpace blanks → WritesItems [] blanks
  | last {v : Literal} {item : List Char} : WritesItem v item → WritesItems [v] item
  | more {v next : Literal} {values : List Literal} {item rest : List Char} : WritesItem v item →
    WritesItems (next :: values) rest → WritesItems (v :: next :: values) (item ++ ',' :: rest)

theorem trim_text (h : IsWritable v) : Text.trim v.text.toList = v.text.toList := by
  cases v with
  | bool b => cases b <;> decide
  | string s => exact trim_quote s
  | number x => exact absurd h id

theorem literal_text (h : IsWritable v) : literal v.text.toList = .ok v := by
  cases v with
  | bool b => cases b <;> decide
  | string s => exact literal_quote s
  | number x => exact absurd h id

theorem literal_of_trim {ds : List Char} (h : Text.trim cs = Text.trim ds) :
    literal cs = literal ds := by
  unfold literal
  rw [h]

theorem WritesItem.literal_eq (h : WritesItem v cs) (hv : IsWritable v) : literal cs = .ok v := by
  obtain ⟨hbefore, hafter⟩ := h
  rw [literal_of_trim (Text.trim_append hbefore.1 hafter.1 _)]
  exact literal_text hv

/-! ## Lists -/

/-- Where neither a comma nor a quote stands, the splitting at commas goes on as it was. -/
theorem splitCommas_append_plain (quoted : Bool) (h : ∀ c ∈ cs, c ≠ ',' ∧ c ≠ '\'')
    (rest : List Char) :
    splitCommas quoted (cs ++ rest) =
      (cs ++ (splitCommas quoted rest).1, (splitCommas quoted rest).2) := by
  induction cs with
  | nil => rfl
  | cons c cs ih =>
    obtain ⟨⟨hcomma, hquote⟩, hcs⟩ := List.forall_mem_cons.1 h
    rw [List.cons_append, splitCommas, if_neg hquote, ih hcs]
    simp [hcomma]

/-- Inside a string no comma counts, for its quotes stand in pairs. -/
theorem splitCommas_doubleQuotes (cs rest : List Char) :
    splitCommas true (doubleQuotes cs ++ rest) =
      (doubleQuotes cs ++ (splitCommas true rest).1, (splitCommas true rest).2) := by
  induction cs with
  | nil => rfl
  | cons c cs ih =>
    rw [doubleQuotes]
    split
    · simp [splitCommas, ih]
    · next hquote => simp [splitCommas, hquote, ih]

theorem splitCommas_text (h : IsWritable v) (rest : List Char) :
    splitCommas false (v.text.toList ++ rest) =
      (v.text.toList ++ (splitCommas false rest).1, (splitCommas false rest).2) := by
  cases v with
  | bool b => exact splitCommas_append_plain false (by cases b <;> simp [Literal.text]) rest
  | number x => exact absurd h id
  | string s =>
    rw [Literal.text, toList_quote, List.cons_append, List.append_assoc, splitCommas, if_pos rfl,
      Bool.not_false, splitCommas_doubleQuotes]
    simp [splitCommas]

theorem ne_of_allBlank {blanks : List Char} (h : Text.allBlank blanks = true) {c d : Char}
    (hc : c ∈ blanks) (hd : Text.isBlank d = false) : c ≠ d := by
  rintro rfl
  rw [List.all_eq_true.1 h c hc] at hd
  exact absurd hd (by decide)

theorem IsSpace.plain (h : IsSpace cs) : ∀ c ∈ cs, c ≠ ',' ∧ c ≠ '\'' := fun _ hc =>
  ⟨ne_of_allBlank h.1 hc (by decide), ne_of_allBlank h.1 hc (by decide)⟩

theorem WritesItem.splitCommas_append (h : WritesItem v cs) (hv : IsWritable v)
    (rest : List Char) :
    splitCommas false (cs ++ rest) =
      (cs ++ (splitCommas false rest).1, (splitCommas false rest).2) := by
  obtain ⟨hbefore, hafter⟩ := h
  rw [List.append_assoc, List.append_assoc, splitCommas_append_plain false hbefore.plain,
    splitCommas_text hv, splitCommas_append_plain false hafter.plain]
  simp

/-- One or more literals are read from the pieces between the commas. -/
theorem WritesItems.forall₂ (h : WritesItems values cs) (hne : values ≠ [])
    (hvalues : ∀ v ∈ values, IsWritable v) :
    List.Forall₂ (fun item v => literal item = .ok v)
      ((splitCommas false cs).1 :: (splitCommas false cs).2) values := by
  induction h with
  | none _ => exact absurd rfl hne
  | @last v item hitem =>
    have hv := hvalues v (by simp)
    have hsplit := hitem.splitCommas_append hv []
    rw [List.append_nil] at hsplit
    rw [hsplit]
    exact .cons (by simpa [splitCommas] using hitem.literal_eq hv) .nil
  | @more v next values item rest hitem _ ih =>
    obtain ⟨hv, hmore⟩ := List.forall_mem_cons.1 hvalues
    have hcomma : splitCommas false (',' :: rest) =
        ([], (splitCommas false rest).1 :: (splitCommas false rest).2) := by simp [splitCommas]
    rw [hitem.splitCommas_append hv, hcomma, List.append_nil]
    exact .cons (hitem.literal_eq hv) (ih (List.cons_ne_nil _ _) hmore)

theorem literal_of_allBlank (h : Text.allBlank cs = true) : ∃ e, literal cs = .error e := by
  have htrim := Text.trim_append h (by rfl : Text.allBlank [] = true) []
  rw [List.append_nil, List.append_nil] at htrim
  exact ⟨.invalidLiteral "", (literal_of_trim htrim).trans (by decide)⟩

theorem WritesItems.mapM_listItems (h : WritesItems values cs)
    (hvalues : ∀ v ∈ values, IsWritable v) : (listItems cs).mapM literal = .ok values := by
  cases values with
  | nil =>
    cases h with
    | none hspace =>
      have hsplit := splitCommas_append_plain false hspace.plain []
      rw [List.append_nil] at hsplit
      have hitems : listItems cs = [] := by simp [listItems, hsplit, splitCommas, hspace.1]
      rw [hitems]
      rfl
  | cons v values =>
    have hread := h.forall₂ (List.cons_ne_nil _ _) hvalues
    have hsolid : Text.allBlank (splitCommas false cs).1 = false := by
      cases hblank : Text.allBlank (splitCommas false cs).1 with
      | false => rfl
      | true =>
        obtain ⟨e, he⟩ := literal_of_allBlank hblank
        cases hread with
        | cons hfirst _ => simp [he] at hfirst
    have hitems : listItems cs = (splitCommas false cs).1 :: (splitCommas false cs).2 := by
      simp [listItems, hsolid]
    rw [hitems]
    exact mapM_of_forall₂ hread

/-! ## What operators compare with -/

/-- The text of the literals that an operator takes: none behind a null check, a list in parentheses
behind a membership test, one literal behind any other. -/
inductive WritesValues : Operator → List Literal → List Char → Prop where
  | none {op : Operator} : op.isNullCheck = true → WritesValues op [] []
  | one {op : Operator} {v : Literal} : op.isNullCheck = false → op.isSetMembership = false →
    WritesValues op [v] v.text.toList
  | list {op : Operator} {values : List Literal} {items : List Char} : op.isSetMembership = true →
    WritesItems values items → WritesValues op values ('(' :: (items ++ [')']))

theorem WritesValues.operands_eq (h : WritesValues op values text)
    (hvalues : ∀ v ∈ values, IsWritable v) (sql : String) : operands sql op text = .ok values := by
  cases h with
  | none hnull => rw [operands, if_pos hnull, List.isEmpty_nil, if_pos rfl]
  | @one v hnull hset =>
    simp [operands, hnull, hset, literal_text (hvalues v (by simp)), bind, Except.bind, pure,
      Except.pure]
  | @list _ items hset hitems =>
    have hnull : op.isNullCheck = false := by
      cases op <;> first | rfl | cases hset
    have hbetween : between? '(' ')' ('(' :: (items ++ [')'])) = some items :=
      between?_eq_some_iff.2 rfl
    simp only [operands, hnull, hset, hbetween, if_true, Bool.false_eq_true, if_false]
    exact hitems.mapM_listItems hvalues

theorem WritesValues.trim_eq (h : WritesValues op values text)
    (hvalues : ∀ v ∈ values, IsWritable v) : Text.trim text = text := by
  cases h with
  | none _ => rfl
  | one _ _ => exact trim_text (hvalues _ (by simp))
  | list _ _ =>
    rw [← List.cons_append]
    refine Text.trim_eq_self ?_ fun c hc => ?_
    · rintro _ ⟨⟩
      rfl
    · rw [List.getLast?_concat] at hc
      cases hc
      rfl

theorem notMem_text (h : IsWritable v) : '\n' ∉ v.text.toList := by
  cases v with
  | bool b => cases b <;> decide
  | number x => exact absurd h id
  | string s =>
    rw [Literal.text, toList_quote, List.mem_cons, List.mem_append, mem_doubleQuotes]
    rintro (hmem | hmem | hmem)
    · exact absurd hmem (by decide)
    · exact h hmem
    · exact absurd hmem (by decide)

theorem WritesItem.notMem_newline (h : WritesItem v cs) (hv : IsWritable v) : '\n' ∉ cs := by
  obtain ⟨hbefore, hafter⟩ := h
  rw [List.mem_append, List.mem_append]
  rintro (hmem | hmem | hmem)
  · exact hbefore.2 hmem
  · exact notMem_text hv hmem
  · exact hafter.2 hmem

theorem WritesItems.notMem_newline (h : WritesItems values cs)
    (hvalues : ∀ v ∈ values, IsWritable v) : '\n' ∉ cs := by
  induction h with
  | none hspace => exact hspace.2
  | last hitem => exact hitem.notMem_newline (hvalues _ (by simp))
  | more hitem _ ih =>
    obtain ⟨hv, hmore⟩ := List.forall_mem_cons.1 hvalues
    rw [List.mem_append, List.mem_cons]
    rintro (hmem | hmem | hmem)
    · exact hitem.notMem_newline hv hmem
    · exact absurd hmem (by decide)
    · exact ih hmore hmem

theorem WritesValues.notMem_newline (h : WritesValues op values text)
    (hvalues : ∀ v ∈ values, IsWritable v) : '\n' ∉ text := by
  cases h with
  | none _ => exact List.not_mem_nil
  | one _ _ => exact notMem_text (hvalues _ (by simp))
  | list _ hitems =>
    rw [List.mem_cons, List.mem_append]
    rintro (hmem | hmem | hmem)
    · exact absurd hmem (by decide)
    · exact hitems.notMem_newline hvalues hmem
    · exact absurd hmem (by decide)

theorem WritesValues.head_ne (h : WritesValues op values text)
    (hvalues : ∀ v ∈ values, IsWritable v) : ∀ c ∈ text.head?, c ≠ '=' ∧ c ≠ '>' := by
  cases h with
  | none _ => simp
  | @one v _ _ =>
    have hv := hvalues v (by simp)
    cases v with
    | bool b => cases b <;> simp [Literal.text]
    | number x => exact absurd hv id
    | string s =>
      rw [Literal.text, toList_quote]
      rintro _ ⟨⟩
      decide
  | list _ _ =>
    rintro _ ⟨⟩
    decide

/-! ## Members -/

/-- A member as conditions may name it: a letter or an underscore, and then letters, digits,
underscores and dots. -/
inductive IsMember : List Char → Prop where
  | intro {c : Char} {cs : List Char} : isNameStart c = true → (∀ d ∈ cs, isPathChar d = true) →
    IsMember (c :: cs)

theorem IsMember.isBlank_head (h : IsMember member) (rest : List Char) :
    ∀ c ∈ (member ++ rest).head?, Text.isBlank c = false := by
  obtain ⟨hc, -⟩ := h
  rintro _ ⟨⟩
  exact isBlank_of_isPathChar (isPathChar_of_isNameChar (isNameChar_of_isNameStart hc))

theorem looseMember?_append (h : IsMember member) (hrest : ∀ c ∈ rest.head?, isPathChar c = false) :
    looseMember? (member ++ rest) = some (member, rest) := by
  obtain ⟨hc, hcs⟩ := h
  rw [List.cons_append, looseMember?, if_pos hc]
  show some (_ :: (_ ++ rest).takeWhile isPathChar, (_ ++ rest).dropWhile isPathChar) = _
  rw [takeWhile_append_of_head hcs hrest, dropWhile_append_of_head hcs hrest]

/-! ## Conditions -/

/-- A text that writes a condition on a member: its placeholder, a spelling of the operator and the
text of the literals, with blanks between them and at the ends. -/
inductive Writes (member : List Char) (op : Operator) (values : List Literal) :
    List Char → Prop where
  | intro {before opening closing gap space after spelled text : List Char} :
    Text.allBlank before = true → Text.allBlank opening = true → Text.allBlank closing = true →
    Text.allBlank gap = true → Text.allBlank space = true → Text.allBlank after = true →
    Spells op spelled → WritesValues op values text →
    Writes member op values
      (before ++ '$' :: '\x7b' :: (opening ++ (member ++ (closing ++ '\x7d' ::
        (gap ++ (spelled ++ (space ++ (text ++ after))))))))

theorem conditionMember?_append {before opening closing : List Char} (hmember : IsMember member)
    (hbefore : Text.allBlank before = true) (hopening : Text.allBlank opening = true)
    (hclosing : Text.allBlank closing = true) (rest : List Char) :
    conditionMember?
      (before ++ '$' :: '\x7b' :: (opening ++ (member ++ (closing ++ '\x7d' :: rest)))) =
        some (member, rest) := by
  have hstart : Text.dropBlanks (before ++ '$' :: '\x7b' ::
      (opening ++ (member ++ (closing ++ '\x7d' :: rest)))) =
      '$' :: '\x7b' :: (opening ++ (member ++ (closing ++ '\x7d' :: rest))) :=
    Text.dropBlanks_append hbefore (by rintro _ ⟨⟩; rfl)
  have hopen : Text.dropBlanks (opening ++ (member ++ (closing ++ '\x7d' :: rest))) =
      member ++ (closing ++ '\x7d' :: rest) :=
    Text.dropBlanks_append hopening (hmember.isBlank_head _)
  have hread := looseMember?_append hmember (isPathChar_closing hclosing rest)
  have hclose : Text.dropBlanks (closing ++ '\x7d' :: rest) = '\x7d' :: rest :=
    Text.dropBlanks_append hclosing (by rintro _ ⟨⟩; rfl)
  simp only [conditionMember?, hstart, hopen, hread, hclose]

theorem conditionParts?_of_writes (h : Writes member op values cs) (hmember : IsMember member)
    (hvalues : ∀ v ∈ values, IsWritable v) :
    ∃ t spelled text, conditionParts? cs = some (member, t, spelled, text) ∧
      t.operator? spelled = some op ∧ WritesValues op values text := by
  obtain @⟨_, _, _, gap, space, after, spelled, text, hbefore, hopening, hclosing, hgap, hspace,
    hafter, hspells, htext⟩ := h
  have hblank : ∀ blanks, Text.allBlank blanks = true → ∀ c ∈ blanks.head?, c ≠ '=' ∧ c ≠ '>' := by
    intro blanks hblanks c hc
    have hmem := List.mem_of_mem_head? hc
    exact ⟨ne_of_allBlank hblanks hmem (by decide), ne_of_allBlank hblanks hmem (by decide)⟩
  have hhead : ∀ c ∈ (space ++ (text ++ after)).head?, c ≠ '=' ∧ c ≠ '>' :=
    forall_head?_append (hblank space hspace)
      (forall_head?_append (htext.head_ne hvalues) (hblank after hafter))
  obtain ⟨t, ht, hop⟩ := operatorText?_of_spells hspells hhead
  refine ⟨t, spelled, text, ?_, hop, htext⟩
  have hdrop : Text.dropBlanks (gap ++ (spelled ++ (space ++ (text ++ after)))) =
      spelled ++ (space ++ (text ++ after)) :=
    Text.dropBlanks_append hgap (hspells.isBlank_head _)
  have htrim : Text.trim (space ++ (text ++ after)) = text :=
    (Text.trim_append hspace hafter text).trans (htext.trim_eq hvalues)
  simp only [conditionParts?, conditionMember?_append hmember hbefore hopening hclosing, hdrop, ht,
    htrim, if_neg (htext.notMem_newline hvalues), Option.bind_eq_bind, Option.bind_some]

/-- A text that writes a condition is read as that condition. -/
theorem readCondition_of_writes (h : Writes member op values cs) (hmember : IsMember member)
    (hvalues : ∀ v ∈ values, IsWritable v) (entity : String) :
    readCondition entity (String.ofList cs) =
      .ok ⟨String.ofList (normalize entity.toList member), op, values⟩ := by
  obtain ⟨t, spelled, text, hparts, hop, htext⟩ := conditionParts?_of_writes h hmember hvalues
  rw [readCondition, String.toList_ofList, hparts]
  simp only [hop, htext.operands_eq hvalues]
  rfl

/-! ## The plain text of a condition -/

/-- The plain spelling of an operator. -/
def plainSpelling : Operator → String
  | .equals => "="
  | .notEquals => "!="
  | .gt => ">"
  | .gte => ">="
  | .lt => "<"
  | .lte => "<="
  | .isIn => "IN"
  | .notIn => "NOT IN"
  | .isNull => "IS NULL"
  | .isNotNull => "IS NOT NULL"

/-- The texts of literals with a comma and a blank between them. -/
def itemsText : List Literal → List Char
  | [] => []
  | [v] => v.text.toList
  | v :: next :: values => v.text.toList ++ ',' :: ' ' :: itemsText (next :: values)

/-- The plain text of what an operator compares with. -/
def operandsText (op : Operator) (values : List Literal) : List Char :=
  if op.isSetMembership then '(' :: (itemsText values ++ [')']) else itemsText values

/-- The plain text of a condition. -/
def conditionText (member : String) (op : Operator) (values : List Literal) : String :=
  String.ofList ('$' :: '\x7b' :: (member.toList ++ '\x7d' :: ' ' ::
    ((plainSpelling op).toList ++ ' ' :: operandsText op values)))

/-- Whether literals can be written behind an operator: none behind a null check, any number behind
a membership test, and one behind any other. -/
def HasText (op : Operator) (values : List Literal) : Prop :=
  if op.isNullCheck then values = [] else op.isSetMembership = true ∨ values.length = 1

instance : Decidable (HasText op values) :=
  inferInstanceAs (Decidable (if op.isNullCheck then values = []
    else op.isSetMembership = true ∨ values.length = 1))

theorem SpellsWords.spaced {word next first : String} {words : List String}
    (h : Numeral.lower first.toList = word.toList) (hrest : SpellsWords (next :: words) rest) :
    SpellsWords (word :: next :: words) (first.toList ++ ' ' :: rest) :=
  .more h (List.cons_ne_nil ' ' []) (by decide) hrest

theorem spells_plainSpelling (op : Operator) : Spells op (plainSpelling op).toList := by
  have hword : ∀ first word : String, Numeral.lower first.toList = word.toList →
      SpellsWords [word] first.toList := fun _ _ h => .last h
  cases op with
  | equals => exact .equals
  | notEquals => exact .notEquals
  | gt => exact .gt
  | gte => exact .gte
  | lt => exact .lt
  | lte => exact .lte
  | isIn => exact .isIn (hword "IN" _ (by decide))
  | notIn =>
    have hin := hword "IN" "in" (by decide)
    exact .notIn (.spaced (by decide : Numeral.lower "NOT".toList = _) hin)
  | isNull =>
    have hnull := hword "NULL" "null" (by decide)
    exact .isNull (.spaced (by decide : Numeral.lower "IS".toList = _) hnull)
  | isNotNull =>
    have hnull := hword "NULL" "null" (by decide)
    have hnot := SpellsWords.spaced (by decide : Numeral.lower "NOT".toList = "not".toList) hnull
    exact .isNotNull (.spaced (by decide : Numeral.lower "IS".toList = _) hnot)

theorem writesItems_itemsText (values : List Literal) {before : List Char} (h : IsSpace before) :
    WritesItems values (before ++ itemsText values) := by
  have hitem : ∀ v before, IsSpace before → WritesItem v (before ++ v.text.toList) := by
    intro v before hbefore
    have hitem := WritesItem.intro (v := v) hbefore ⟨rfl, List.not_mem_nil⟩
    rwa [List.append_nil] at hitem
  induction values generalizing before with
  | nil =>
    rw [itemsText, List.append_nil]
    exact .none h
  | cons v values ih =>
    cases values with
    | nil => exact .last (hitem v before h)
    | cons next values =>
      rw [itemsText, ← List.append_assoc]
      have hone : IsSpace [' '] := ⟨by decide, by decide⟩
      exact .more (hitem v before h) (ih hone)

theorem writesValues_operandsText (h : HasText op values) :
    WritesValues op values (operandsText op values) := by
  unfold HasText at h
  split at h
  · next hnull =>
    subst h
    cases op with
    | isNull => exact .none rfl
    | isNotNull => exact .none rfl
    | _ => cases hnull
  · next hnull =>
    rw [Bool.not_eq_true] at hnull
    unfold operandsText
    split
    · next hset => exact .list hset (writesItems_itemsText values ⟨rfl, List.not_mem_nil⟩)
    · next hset =>
      obtain ⟨v, rfl⟩ := List.length_eq_one_iff.1 (h.resolve_left hset)
      exact .one hnull (Bool.eq_false_iff.2 hset)

/-- The plain text of a condition writes it. -/
theorem writes_conditionText (member : String) (h : HasText op values) :
    Writes member.toList op values (conditionText member op values).toList := by
  have hnone : Text.allBlank [] = true := rfl
  have hone : Text.allBlank [' '] = true := by decide
  have hwrites : Writes member.toList op values _ :=
    .intro hnone hnone hnone hone hone hnone (spells_plainSpelling op) (writesValues_operandsText h)
  rw [conditionText, String.toList_ofList]
  simpa only [List.nil_append, List.append_nil, List.singleton_append] using hwrites

end Expression

open Expression

/-- A filter may be authored in either form. Its plain text writes it, and with whatever blanks and
letter case a text writes it, the text and the structured form are compiled to the same predicate or
fail with the same fault. -/
theorem Registry.compileFilter_of_writes (r : Registry) (rules : WalkRules) (entity : String)
    {member : String} {op : Operator} {values : List Literal} (hmember : IsMember member.toList)
    (hvalues : ∀ v ∈ values, IsWritable v) (hcount : HasText op values) :
    Writes member.toList op values (conditionText member op values).toList ∧
      ∀ text : String, Writes member.toList op values text.toList →
        r.compileFilter rules entity (.sql text) =
          r.compileFilter rules entity (.member member op values) := by
  refine ⟨writes_conditionText member hcount, fun text htext => ?_⟩
  have hread := readCondition_of_writes htext hmember hvalues entity
  rw [String.ofList_toList] at hread
  have hcondition : (Filter.sql text).condition entity =
      (Filter.member member op values).condition entity := by
    simp only [Filter.condition, hread]
    rfl
  rw [compileFilter, compileFilter, hcondition]

/-- Neither commas nor quotes, parentheses or operators in the strings of a list are taken for those
of the condition. -/
theorem Registry.compileFilter_of_writes_countries :
    let text := "$\x7busers.country\x7d NOT IN ('it''s, NOT IN (''a'')', '$\x7bid\x7d >= '')', '')"
    let values := [Literal.string "it's, NOT IN ('a')", .string "$\x7bid\x7d >= ')", .string ""]
    IsMember "users.country".toList ∧ (∀ v ∈ values, IsWritable v) ∧ HasText .notIn values ∧
      conditionText "users.country" .notIn values = text ∧
      ∃ p, Shop.registry.compileFilter {} "orders" (.sql text) = .ok p ∧ p.operator = .notIn ∧
        p.values = values := by
  intro text values
  have hmember : IsMember "users.country".toList :=
    .intro (c := 'u') (by decide) (List.all_eq_true.1 (by decide))
  have hvalues : ∀ v ∈ values, IsWritable v := by decide
  have hcount : HasText .notIn values := by decide
  have htext : conditionText "users.country" .notIn values = text := by decide
  obtain ⟨hwrites, hsame⟩ := Registry.compileFilter_of_writes Shop.registry {} "orders" hmember
    hvalues hcount
  have hread := hsame _ hwrites
  rw [htext] at hread
  have hshown : (Shop.registry.compileFilter {} "orders"
      (.member "users.country" .notIn values)).toOption.map (fun p => (p.operator, p.values)) =
        some (.notIn, values) := by decide +kernel
  obtain ⟨p, hp, hfields⟩ := Option.map_eq_some_iff.1 hshown
  obtain ⟨hop, hvals⟩ := Prod.mk.inj hfields
  exact ⟨hmember, hvalues, hcount, htext, p, hread.trans (toOption_eq_some_iff.1 hp), hop, hvals⟩

end MetricLayer
