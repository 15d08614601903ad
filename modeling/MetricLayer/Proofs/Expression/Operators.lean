import MetricLayer.Expression.Condition
import MetricLayer.Proofs.Expression.Scanning

/-!
# Spellings of operators

An operator is spelled with symbols, or with words in any letter case and blanks between them
(`Spells`). The spellings are tried in order, and one is read where no other that is tried before it
can be: a symbol of one character unless a longer one stands there, words because a letter is no
symbol and the words differ from those before in some letter. So a text that begins with a spelling
of an operator is read as that operator, whatever follows but a character that makes another symbol
of it (`operatorText?_of_spells`).
-/

namespace MetricLayer

open Schema

namespace Expression

variable {cs spelled rest : List Char} {word : String} {words : List String} {op : Operator}

/-! ## Words -/

/-- Words, given in lower case, in any letter case and with blanks between them. -/
inductive SpellsWords : List String → List Char → Prop where
  | last {word : String} {spelled : List Char} : Numeral.lower spelled = word.toList →
    SpellsWords [word] spelled
  | more {word next : String} {words : List String} {spelled blanks rest : List Char} :
    Numeral.lower spelled = word.toList → blanks ≠ [] → Text.allBlank blanks = true →
    SpellsWords (next :: words) rest →
    SpellsWords (word :: next :: words) (spelled ++ (blanks ++ rest))

/-- A word of letters. -/
def IsWord (word : String) : Prop := word.toList ≠ [] ∧ word.toList.all Char.isAlpha = true

instance : DecidablePred IsWord := fun word =>
  inferInstanceAs (Decidable (word.toList ≠ [] ∧ word.toList.all Char.isAlpha = true))

theorem isAlpha_of_toLower {c : Char} (h : c.toLower.isAlpha = true) : c.isAlpha = true := by
  unfold Char.toLower at h
  split at h
  · next hupper =>
    have hisUpper : c.isUpper = true := decide_eq_true hupper
    show (c.isUpper || c.isLower) = true
    rw [hisUpper, Bool.true_or]
  · exact h

theorem isAlpha_of_lower (h : Numeral.lower spelled = word.toList) (hword : IsWord word) :
    spelled ≠ [] ∧ ∀ c ∈ spelled, c.isAlpha = true := by
  have hletters := List.all_eq_true.1 hword.2
  refine ⟨?_, fun c hc => isAlpha_of_toLower (hletters _ (h ▸ List.mem_map_of_mem hc))⟩
  rintro rfl
  exact hword.1 h.symm

theorem exists_letter_of_lower (h : Numeral.lower spelled = word.toList) (hword : IsWord word) :
    ∃ c cs, spelled = c :: cs ∧ c.isAlpha = true := by
  obtain ⟨hne, hletters⟩ := isAlpha_of_lower h hword
  obtain ⟨c, cs, rfl⟩ := List.exists_cons_of_ne_nil hne
  exact ⟨c, cs, rfl, hletters c List.mem_cons_self⟩

theorem SpellsWords.exists_letter (h : SpellsWords (word :: words) spelled) (hword : IsWord word) :
    ∃ c cs, spelled = c :: cs ∧ c.isAlpha = true := by
  cases h with
  | last hspelled => exact exists_letter_of_lower hspelled hword
  | more hspelled _ _ _ =>
    obtain ⟨c, tail, rfl, hc⟩ := exists_letter_of_lower hspelled hword
    exact ⟨c, _, rfl, hc⟩

theorem isBlank_of_isAlpha {c : Char} (h : c.isAlpha = true) : Text.isBlank c = false :=
  isBlank_of_isPathChar (by simp [isPathChar, isNameChar, Char.isAlphanum, h])

theorem SpellsWords.isBlank_head (h : SpellsWords (word :: words) spelled) (hword : IsWord word)
    (rest : List Char) : ∀ c ∈ (spelled ++ rest).head?, Text.isBlank c = false := by
  obtain ⟨c, cs, rfl, hc⟩ := h.exists_letter hword
  rintro _ ⟨⟩
  exact isBlank_of_isAlpha hc

theorem SpellsWords.notMem_longS (h : SpellsWords words spelled) (hwords : ∀ w ∈ words, IsWord w) :
    '\u017f' ∉ spelled := by
  induction h with
  | last hspelled =>
    exact fun hmem => absurd ((isAlpha_of_lower hspelled (hwords _ (by simp))).2 _ hmem) (by decide)
  | more hspelled _ hblanks _ ih =>
    obtain ⟨hfirst, hmore⟩ := List.forall_mem_cons.1 hwords
    rw [List.mem_append, List.mem_append]
    rintro (hmem | hmem | hmem)
    · exact absurd ((isAlpha_of_lower hspelled hfirst).2 _ hmem) (by decide)
    · exact absurd (List.all_eq_true.1 hblanks _ hmem) (by decide)
    · exact ih hmore hmem

theorem dropWord?_append {word : List Char} (h : Numeral.lower spelled = word) (rest : List Char) :
    dropWord? word (spelled ++ rest) = some rest := by
  induction spelled generalizing word with
  | nil =>
    subst h
    rfl
  | cons c spelled ih =>
    subst h
    have hletter : isLetterOf c.toLower c = true := by simp [isLetterOf]
    rw [Numeral.lower, List.map_cons, List.cons_append, dropWord?, if_pos hletter]
    exact ih rfl

theorem dropWord?_eq_none {common left right : List Char} {a b : Char} (hne : a ≠ b)
    (hlong : b ≠ '\u017f') (h : Numeral.lower spelled = common ++ b :: right) (rest : List Char) :
    dropWord? (common ++ a :: left) (spelled ++ rest) = none := by
  induction common generalizing spelled with
  | nil =>
    cases spelled with
    | nil => cases h
    | cons c spelled =>
      obtain ⟨hc, -⟩ := List.cons.inj h
      have hletter : ¬ isLetterOf a c = true := by
        rw [isLetterOf, Bool.or_eq_true, Bool.and_eq_true, decide_eq_true_eq, decide_eq_true_eq,
          decide_eq_true_eq]
        rintro (hca | ⟨-, rfl⟩)
        · exact hne (hca.symm.trans hc)
        · exact hlong hc.symm
      rw [List.nil_append, List.cons_append, dropWord?, if_neg hletter]
  | cons d common ih =>
    cases spelled with
    | nil => cases h
    | cons c spelled =>
      obtain ⟨rfl, hspelled⟩ := List.cons.inj h
      have hletter : isLetterOf c.toLower c = true := by simp [isLetterOf]
      rw [List.cons_append, List.cons_append, dropWord?, if_pos hletter]
      exact ih hspelled

theorem dropBlanks1?_append {blanks : List Char} (hne : blanks ≠ [])
    (hblanks : Text.allBlank blanks = true) (hrest : ∀ c ∈ rest.head?, Text.isBlank c = false) :
    dropBlanks1? (blanks ++ rest) = some rest := by
  cases blanks with
  | nil => exact absurd rfl hne
  | cons b blanks =>
    obtain ⟨hb, hmore⟩ := Bool.and_eq_true_iff.1 hblanks
    rw [List.cons_append, dropBlanks1?, if_pos hb, Text.dropBlanks_append hmore hrest]

theorem dropWords?_more {next : String} {blanks : List Char}
    (h : Numeral.lower spelled = word.toList) (hne : blanks ≠ [])
    (hblanks : Text.allBlank blanks = true) (hrest : ∀ c ∈ rest.head?, Text.isBlank c = false) :
    dropWords? (word :: next :: words) (spelled ++ (blanks ++ rest)) =
      dropWords? (next :: words) rest := by
  rw [dropWords?, dropWord?_append h, Option.bind_some, dropBlanks1?_append hne hblanks hrest,
    Option.bind_some]
  exact List.cons_ne_nil _ _

theorem dropWords?_eq_none (h : dropWord? word.toList cs = none) :
    dropWords? (word :: words) cs = none := by
  cases words with
  | nil => exact h
  | cons next words =>
    rw [dropWords?, h, Option.bind_none, Option.bind_none]
    exact List.cons_ne_nil _ _

theorem dropWords?_of_differs (common : List Char) {left right : List Char} {a b : Char}
    {other : String} {more : List String} (h : SpellsWords (word :: words) spelled)
    (hother : other.toList = common ++ a :: left)
    (hword : word.toList = common ++ b :: right) (hne : a ≠ b) (hlong : b ≠ '\u017f') :
    dropWords? (other :: more) (spelled ++ rest) = none := by
  refine dropWords?_eq_none ?_
  rw [hother]
  cases h with
  | last hspelled => exact dropWord?_eq_none hne hlong (hspelled.trans hword) rest
  | more hspelled _ _ _ =>
    rw [List.append_assoc]
    exact dropWord?_eq_none hne hlong (hspelled.trans hword) _

theorem dropWords?_append (h : SpellsWords words spelled) (hwords : ∀ w ∈ words, IsWord w)
    (rest : List Char) : dropWords? words (spelled ++ rest) = some rest := by
  induction h with
  | last hspelled => exact dropWord?_append hspelled rest
  | more hspelled hne hblanks hmore ih =>
    obtain ⟨-, hwords⟩ := List.forall_mem_cons.1 hwords
    have hhead := hmore.isBlank_head (hwords _ (by simp)) rest
    rw [List.append_assoc, List.append_assoc, dropWords?_more hspelled hne hblanks hhead]
    exact ih hwords

/-! ## Operators -/

/-- The spellings of operators in SQL. -/
inductive Spells : Operator → List Char → Prop where
  | equals : Spells .equals ['=']
  | equalsTwice : Spells .equals ['=', '=']
  | notEquals : Spells .notEquals ['!', '=']
  | differs : Spells .notEquals ['<', '>']
  | gt : Spells .gt ['>']
  | gte : Spells .gte ['>', '=']
  | lt : Spells .lt ['<']
  | lte : Spells .lte ['<', '=']
  | isIn {spelled : List Char} : SpellsWords ["in"] spelled → Spells .isIn spelled
  | notIn {spelled : List Char} : SpellsWords ["not", "in"] spelled → Spells .notIn spelled
  | isNull {spelled : List Char} : SpellsWords ["is", "null"] spelled → Spells .isNull spelled
  | isNotNull {spelled : List Char} : SpellsWords ["is", "not", "null"] spelled →
    Spells .isNotNull spelled

theorem Spells.isBlank_head (h : Spells op spelled) (rest : List Char) :
    ∀ c ∈ (spelled ++ rest).head?, Text.isBlank c = false := by
  cases h with
  | isIn h => exact h.isBlank_head (by decide) rest
  | notIn h => exact h.isBlank_head (by decide) rest
  | isNull h => exact h.isBlank_head (by decide) rest
  | isNotNull h => exact h.isBlank_head (by decide) rest
  | _ =>
    rintro _ ⟨⟩
    rfl

/-- A spelling is read where a text begins with it and with none of those tried before it. -/
theorem operatorText?_of_drop? (k : Nat) {t : OperatorText} (ht : operatorTexts[k]? = some t)
    (hbefore : ∀ u ∈ operatorTexts.take k, u.drop? (spelled ++ rest) = none)
    (hdrop : t.drop? (spelled ++ rest) = some rest) :
    operatorText? (spelled ++ rest) = some (t, spelled, rest) := by
  obtain ⟨hk, rfl⟩ := List.getElem?_eq_some_iff.1 ht
  refine List.findSome?_eq_some_iff.2
    ⟨operatorTexts.take k, operatorTexts[k], operatorTexts.drop (k + 1), ?_, ?_, fun u hu => ?_⟩
  · rw [List.getElem_cons_drop, List.take_append_drop]
  · simp [hdrop]
  · rw [hbefore u hu, Option.map_none]

theorem drop?_symbol (text : String) (op : Operator) (rest : List Char) :
    (OperatorText.symbol text op).drop? (text.toList ++ rest) = some rest := by
  rw [OperatorText.drop?, ← String.length_toList, List.drop_left,
    if_pos (List.isPrefixOf_iff_prefix.2 (List.prefix_append _ _))]

theorem drop?_symbol_of_letter {c : Char} (hc : c.isAlpha = true) (cs : List Char) :
    ∀ u ∈ operatorTexts.take 8, u.drop? (c :: cs) = none := by
  have hne : ∀ d : Char, d.isAlpha = false → d ≠ c := by
    rintro d hd rfl
    simp [hc] at hd
  simp [operatorTexts, OperatorText.drop?, hne '>' (by decide), hne '<' (by decide),
    hne '!' (by decide), hne '=' (by decide)]

theorem operatorText?_of_words (k : Nat) (ht : operatorTexts[k]? = some (.words (word :: words) op))
    (hk : 8 ≤ k) (h : SpellsWords (word :: words) spelled) (hwords : ∀ w ∈ word :: words, IsWord w)
    (hearlier : ∀ u ∈ (operatorTexts.take k).drop 8, u.drop? (spelled ++ rest) = none) :
    ∃ t, operatorText? (spelled ++ rest) = some (t, spelled, rest) ∧
      t.operator? spelled = some op := by
  have hbefore : ∀ u ∈ operatorTexts.take k, u.drop? (spelled ++ rest) = none := by
    rw [← List.take_append_drop 8 (operatorTexts.take k), List.forall_mem_append, List.take_take,
      Nat.min_eq_left hk]
    refine ⟨?_, hearlier⟩
    obtain ⟨c, cs, rfl, hc⟩ := h.exists_letter (hwords _ (by simp))
    exact drop?_symbol_of_letter hc _
  exact ⟨_, operatorText?_of_drop? k ht hbefore (dropWords?_append h hwords rest),
    if_neg (h.notMem_longS hwords)⟩

/-- A spelling of an operator is read as that operator, if no other symbol begins behind it. -/
theorem operatorText?_of_spells (h : Spells op spelled)
    (hrest : ∀ c ∈ rest.head?, c ≠ '=' ∧ c ≠ '>') :
    ∃ t, operatorText? (spelled ++ rest) = some (t, spelled, rest) ∧
      t.operator? spelled = some op := by
  have hsymbol : ∀ (text : String) (op : Operator) (k : Nat),
      operatorTexts[k]? = some (.symbol text op) →
      (∀ u ∈ operatorTexts.take k, u.drop? (text.toList ++ rest) = none) →
      ∃ t, operatorText? (text.toList ++ rest) = some (t, text.toList, rest) ∧
        t.operator? text.toList = some op :=
    fun text op k ht hbefore =>
      ⟨_, operatorText?_of_drop? k ht hbefore (drop?_symbol text op rest), rfl⟩
  have hlonger : ∀ d ∈ ['=', '>'], ¬ [d] <+: rest := by
    rintro d hd ⟨more, rfl⟩
    obtain ⟨heq, hgt⟩ := hrest d rfl
    simp [heq, hgt] at hd
  cases h with
  | gte => exact hsymbol ">=" _ 0 rfl (by simp)
  | lte => exact hsymbol "<=" _ 1 rfl (by simp [operatorTexts, OperatorText.drop?])
  | differs => exact hsymbol "<>" _ 2 rfl (by simp [operatorTexts, OperatorText.drop?])
  | notEquals => exact hsymbol "!=" _ 3 rfl (by simp [operatorTexts, OperatorText.drop?])
  | equalsTwice => exact hsymbol "==" _ 4 rfl (by simp [operatorTexts, OperatorText.drop?])
  | equals => exact hsymbol "=" _ 5 rfl (by simp [operatorTexts, OperatorText.drop?, hlonger])
  | gt => exact hsymbol ">" _ 6 rfl (by simp [operatorTexts, OperatorText.drop?, hlonger])
  | lt => exact hsymbol "<" _ 7 rfl (by simp [operatorTexts, OperatorText.drop?, hlonger])
  | isNotNull h =>
    exact operatorText?_of_words 8 rfl (by decide) h (by decide) (by simp [operatorTexts])
  | isNull h =>
    -- Both null checks begin with one word, and their second words differ.
    refine operatorText?_of_words 9 rfl (by decide) h (by decide) ?_
    have hnone : dropWords? ["is", "not", "null"] (spelled ++ rest) = none := by
      cases h with
      | more his hne hblanks hnull =>
        have hhead := hnull.isBlank_head (by decide) rest
        rw [List.append_assoc, List.append_assoc, dropWords?_more his hne hblanks hhead]
        exact dropWords?_of_differs ['n'] hnull rfl rfl (by decide) (by decide)
    simp [operatorTexts, OperatorText.drop?, hnone]
  | notIn h =>
    refine operatorText?_of_words 10 rfl (by decide) h (by decide) ?_
    have his : ∀ more, dropWords? ("is" :: more) (spelled ++ rest) = none := fun more =>
      dropWords?_of_differs [] h rfl rfl (by decide) (by decide)
    simp [operatorTexts, OperatorText.drop?, his]
  | isIn h =>
    refine operatorText?_of_words 11 rfl (by decide) h (by decide) ?_
    have his : ∀ more, dropWords? ("is" :: more) (spelled ++ rest) = none := fun more =>
      dropWords?_of_differs ['i'] h rfl rfl (by decide) (by decide)
    have hnot : ∀ more, dropWords? ("not" :: more) (spelled ++ rest) = none := fun more =>
      dropWords?_of_differs [] h rfl rfl (by decide) (by decide)
    simp [operatorTexts, OperatorText.drop?, his, hnot]

end Expression

end MetricLayer
