import MetricLayer.Proofs.Expression.Operators

/-!
# Calls

A text is a call if it is a name and, in parentheses, a body that closes each parenthesis it opens
(`IsCall`). A parenthesis between single quotes counts for nothing. The scan that looks for the end
of a call counts the parentheses that are open (`afterClosing?_append`), and ends where for the
first time one more is closed than opened since, so that it finds the body of a call and no other
text (`afterClosing?_eq_some_iff`).
-/

namespace MetricLayer

open Schema

namespace Expression

/-! ## Text outside of quotes -/

/-- The characters of a text that do not stand between single quotes, without the quotes. -/
def unquoted (quoted : Bool) : List Char → List Char
  | [] => []
  | c :: cs =>
    if c = '\'' then unquoted (!quoted) cs
    else if quoted then unquoted quoted cs
    else c :: unquoted quoted cs

/-- How many parentheses a text opens more than it closes, outside of quotes. -/
def rise (quoted : Bool) (cs : List Char) : Int :=
  (unquoted quoted cs).count '(' - (unquoted quoted cs).count ')'

/-- Whether a quote is open at the end of a text. -/
def endsQuoted (quoted : Bool) (cs : List Char) : Bool :=
  if cs.count '\'' % 2 = 0 then quoted else !quoted

/-- Whether a quote is open behind a character. -/
def quotedAfter (quoted : Bool) (c : Char) : Bool := if c = '\'' then !quoted else quoted

/-- How many parentheses a character opens, one that it closes counting against it. -/
def weight (quoted : Bool) (c : Char) : Int :=
  if quoted then 0 else if c = '(' then 1 else if c = ')' then -1 else 0

variable {quoted : Bool} {opened : Nat} {c : Char} {cs rest body front : List Char}

theorem rise_nil : rise quoted [] = 0 := rfl

theorem rise_cons (quoted : Bool) (c : Char) (cs : List Char) :
    rise quoted (c :: cs) = weight quoted c + rise (quotedAfter quoted c) cs := by
  unfold rise weight quotedAfter
  rw [unquoted]
  by_cases hquote : c = '\''
  · subst hquote
    simp
  · cases quoted with
    | true => simp [hquote]
    | false =>
      simp only [hquote, if_false, Bool.false_eq_true, List.count_cons, beq_iff_eq]
      split_ifs with hopen hclose hclose
      · exact absurd (hopen.symm.trans hclose) (by decide)
      all_goals omega

theorem endsQuoted_nil : endsQuoted quoted [] = quoted := rfl

theorem endsQuoted_cons (quoted : Bool) (c : Char) (cs : List Char) :
    endsQuoted quoted (c :: cs) = endsQuoted (quotedAfter quoted c) cs := by
  unfold endsQuoted quotedAfter
  rw [List.count_cons]
  by_cases hquote : c = '\''
  · have hparity : (cs.count '\'' + 1) % 2 = 0 ↔ ¬ cs.count '\'' % 2 = 0 := by omega
    by_cases heven : cs.count '\'' % 2 = 0 <;> simp [hquote, hparity, heven]
  · simp [hquote]

/-! ## The end of a call -/

/-- One step of the scan: it ends with the parenthesis that closes the last open one, and else goes
on with the count of those that are open. -/
theorem afterClosing?_cons (h : 1 ≤ opened) (c : Char) (cs : List Char) :
    afterClosing? quoted opened (c :: cs) =
      if opened + weight quoted c = 0 then some cs
      else afterClosing? (quotedAfter quoted c) (opened + weight quoted c).toNat cs := by
  have hne : opened ≠ 0 := by omega
  have hmore : ((opened : Int) + 1).toNat = opened + 1 := by omega
  have hless : ((opened : Int) + -1).toNat = opened - 1 := by omega
  have hlast : (opened : Int) + -1 = 0 ↔ opened ≤ 1 := by omega
  rw [afterClosing?]
  unfold weight quotedAfter
  by_cases hquote : c = '\''
  · subst hquote
    cases quoted <;> simp [hne]
  · cases quoted with
    | true => simp [hquote, hne]
    | false =>
      by_cases hopen : c = '('
      · subst hopen
        have hpos : (opened : Int) + 1 ≠ 0 := by omega
        simp [hpos, hmore]
      · by_cases hclose : c = ')'
        · subst hclose
          simp [hlast, hless]
        · simp [hquote, hopen, hclose, hne]

theorem weight_eq_of_last (h : 1 ≤ opened) (hlast : opened + weight quoted c = 0) :
    opened = 1 ∧ quoted = false ∧ c = ')' := by
  unfold weight at hlast
  split_ifs at hlast with hquoted hopen hclose
  · omega
  · omega
  · exact ⟨by omega, by simpa using hquoted, hclose⟩
  · omega

theorem one_le_opened (h : 1 ≤ opened) (hgoes : ¬ opened + weight quoted c = 0) :
    1 ≤ (opened + weight quoted c).toNat ∧
      ((opened + weight quoted c).toNat : Int) = opened + weight quoted c := by
  have hweight : -1 ≤ weight quoted c := by
    unfold weight
    split_ifs <;> decide
  omega

/-- The scan goes on through a text no front of which closes all that was open. -/
theorem afterClosing?_eq_none_iff (h : 1 ≤ opened) :
    afterClosing? quoted opened cs = none ↔
      ∀ front, front <+: cs → 1 ≤ opened + rise quoted front := by
  induction cs generalizing quoted opened with
  | nil =>
    refine iff_of_true rfl fun front hfront => ?_
    rw [List.prefix_nil.1 hfront, rise_nil]
    omega
  | cons c cs ih =>
    rw [afterClosing?_cons h]
    split
    · next hlast =>
      refine iff_of_false (by simp) fun hfronts => ?_
      have hfront := hfronts [c] (by simp)
      rw [rise_cons, rise_nil] at hfront
      omega
    · next hgoes =>
      obtain ⟨hone, hcount⟩ := one_le_opened h hgoes
      rw [ih hone, hcount]
      constructor
      · intro hfronts front hfront
        rcases List.prefix_cons_iff.1 hfront with rfl | ⟨shorter, rfl, hshorter⟩
        · rw [rise_nil]
          omega
        · rw [rise_cons, ← Int.add_assoc]
          exact hfronts shorter hshorter
      · intro hfronts front hfront
        have hlonger := hfronts (c :: front) (List.cons_prefix_cons.2 ⟨rfl, hfront⟩)
        rwa [rise_cons, ← Int.add_assoc] at hlonger

/-- **The count of the scan.** Behind a text that the scan has gone through, the number of open
parentheses is what there was and what the text opens more than it closes, and it is not zero. -/
theorem afterClosing?_append (h : 1 ≤ opened) (hgoes : afterClosing? quoted opened cs = none)
    (rest : List Char) :
    1 ≤ opened + rise quoted cs ∧
      afterClosing? quoted opened (cs ++ rest) =
        afterClosing? (endsQuoted quoted cs) (opened + rise quoted cs).toNat rest := by
  refine ⟨(afterClosing?_eq_none_iff h).1 hgoes cs List.prefix_rfl, ?_⟩
  induction cs generalizing quoted opened with
  | nil => rw [List.nil_append, rise_nil, endsQuoted_nil, Int.add_zero, Int.toNat_natCast]
  | cons c cs ih =>
    rw [afterClosing?_cons h] at hgoes
    rw [List.cons_append, afterClosing?_cons h, rise_cons, endsQuoted_cons, ← Int.add_assoc]
    split at hgoes
    · simp at hgoes
    · next hmore =>
      obtain ⟨hone, hcount⟩ := one_le_opened h hmore
      rw [if_neg hmore, ih hone hgoes, hcount]

/-- The scan ends with the first parenthesis that closes what was open before the text. -/
theorem afterClosing?_eq_some_iff (h : 1 ≤ opened) :
    afterClosing? quoted opened cs = some rest ↔
      ∃ body, cs = body ++ ')' :: rest ∧ afterClosing? quoted opened body = none ∧
        endsQuoted quoted body = false ∧ opened + rise quoted body = 1 := by
  constructor
  · intro hend
    induction cs generalizing quoted opened with
    | nil => simp [afterClosing?] at hend
    | cons c cs ih =>
      rw [afterClosing?_cons h] at hend
      split at hend
      · next hlast =>
        obtain ⟨rfl, rfl, rfl⟩ := weight_eq_of_last h hlast
        obtain rfl := Option.some.inj hend
        exact ⟨[], rfl, rfl, rfl, rfl⟩
      · next hmore =>
        obtain ⟨hone, hcount⟩ := one_le_opened h hmore
        obtain ⟨body, rfl, hbody, hquoted, hrise⟩ := ih hone hend
        refine ⟨c :: body, rfl, ?_, ?_, ?_⟩
        · rw [afterClosing?_cons h, if_neg hmore, hbody]
        · rw [endsQuoted_cons, hquoted]
        · rw [rise_cons, ← Int.add_assoc, ← hcount, hrise]
  · rintro ⟨body, rfl, hbody, hquoted, hrise⟩
    rw [(afterClosing?_append h hbody _).2, hquoted, hrise]
    rfl

/-! ## Balanced texts -/

/-- A text in which quotes stand in pairs and, outside of them, no parenthesis is closed before it
is opened or left open. -/
structure Balanced (body : List Char) : Prop where
  quotes : body.count '\'' % 2 = 0
  closed : (unquoted false body).count '(' = (unquoted false body).count ')'
  opened : ∀ front, front <+: body →
    (unquoted false front).count ')' ≤ (unquoted false front).count '('

theorem balanced_iff : Balanced body ↔ afterClosing? false 1 body = none ∧
    endsQuoted false body = false ∧ ((1 : Nat) : Int) + rise false body = 1 := by
  have hquotes : endsQuoted false body = false ↔ body.count '\'' % 2 = 0 := by
    unfold endsQuoted
    split_ifs with heven <;> simp [heven]
  have hfront : ∀ front, 1 ≤ ((1 : Nat) : Int) + rise false front ↔
      (unquoted false front).count ')' ≤ (unquoted false front).count '(' := by
    intro front
    unfold rise
    omega
  have hclosed : ((1 : Nat) : Int) + rise false body = 1 ↔
      (unquoted false body).count '(' = (unquoted false body).count ')' := by
    unfold rise
    omega
  rw [afterClosing?_eq_none_iff (Nat.le_refl 1), hquotes, hclosed]
  simp only [hfront]
  exact ⟨fun h => ⟨h.opened, h.quotes, h.closed⟩, fun h => ⟨h.2.1, h.2.2, h.1⟩⟩

/-- What follows a balanced text and the parenthesis that closes it. -/
theorem afterClosing?_one_iff : afterClosing? false 1 cs = some rest ↔
    ∃ body, cs = body ++ ')' :: rest ∧ Balanced body := by
  rw [afterClosing?_eq_some_iff (Nat.le_refl 1)]
  simp only [balanced_iff]

instance : DecidablePred Balanced := fun _ => decidable_of_iff _ balanced_iff.symm

/-! ## Calls -/

/-- A text begins with a call: a name of letters and underscores, with blanks around it, and the
parenthesis in front of the arguments. -/
inductive BeginsCall (name arguments : List Char) : List Char → Prop where
  | intro {before gap : List Char} : Text.allBlank before = true → name ≠ [] →
      (∀ c ∈ name, isNameStart c = true) → Text.allBlank gap = true →
      BeginsCall name arguments (before ++ (name ++ (gap ++ '(' :: arguments)))

/-- A text is one call: behind the parenthesis that closes its body there are blanks at most. -/
structure IsCall (name body cs : List Char) : Prop where
  balanced : Balanced body
  begins : ∃ after, Text.allBlank after = true ∧ BeginsCall name (body ++ ')' :: after) cs

variable {name arguments : List Char}

theorem isBlank_of_isNameStart {c : Char} (h : isNameStart c = true) : Text.isBlank c = false :=
  isBlank_of_isPathChar (isPathChar_of_isNameChar (isNameChar_of_isNameStart h))

theorem isNameStart_of_isBlank {c : Char} (h : Text.isBlank c = true) : isNameStart c = false :=
  Bool.eq_false_iff.2 fun hname => by simp [isBlank_of_isNameStart hname] at h

theorem callHead?_eq (cs : List Char) :
    callHead? cs =
      if (Text.dropBlanks cs).takeWhile isNameStart = [] then none
      else
        match Text.dropBlanks ((Text.dropBlanks cs).dropWhile isNameStart) with
        | '(' :: rest => some (String.ofList ((Text.dropBlanks cs).takeWhile isNameStart), rest)
        | _ => none := by
  simp only [← List.isEmpty_iff]
  rfl

theorem beginsCall_of_callHead? (h : callHead? cs = some (String.ofList name, arguments)) :
    BeginsCall name arguments cs := by
  rw [callHead?_eq] at h
  split_ifs at h with hne
  split at h
  · next rest hopen =>
    obtain ⟨hname, rfl⟩ := Prod.mk.inj (Option.some.inj h)
    obtain rfl : (Text.dropBlanks cs).takeWhile isNameStart = name := String.ofList_injective hname
    obtain ⟨before, hbefore, hcs⟩ := Text.exists_blanks_dropBlanks cs
    obtain ⟨gap, hgap, hrest⟩ :=
      Text.exists_blanks_dropBlanks ((Text.dropBlanks cs).dropWhile isNameStart)
    rw [hopen] at hrest
    have hwhole : cs =
        before ++ ((Text.dropBlanks cs).takeWhile isNameStart ++ (gap ++ '(' :: rest)) := by
      rw [← hrest, List.takeWhile_append_dropWhile]
      exact hcs
    have hname : ∀ c ∈ (Text.dropBlanks cs).takeWhile isNameStart, isNameStart c = true :=
      List.all_eq_true.1 List.all_takeWhile
    have hbegins : BeginsCall _ rest (before ++ _) := .intro hbefore hne hname hgap
    rwa [← hwhole] at hbegins
  · simp at h

theorem callHead?_of_beginsCall (h : BeginsCall name arguments cs) :
    callHead? cs = some (String.ofList name, arguments) := by
  obtain @⟨before, gap, hbefore, hne, hname, hgap⟩ := h
  have hstart : Text.dropBlanks (before ++ (name ++ (gap ++ '(' :: arguments))) =
      name ++ (gap ++ '(' :: arguments) := by
    refine Text.dropBlanks_append hbefore fun c hc => isBlank_of_isNameStart (hname c ?_)
    rw [List.head?_append_of_ne_nil _ hne] at hc
    exact List.mem_of_mem_head? hc
  have hboundary : ∀ c ∈ (gap ++ '(' :: arguments).head?, isNameStart c = false :=
    forall_head?_append (fun c hc => isNameStart_of_isBlank
      (List.all_eq_true.1 hgap c (List.mem_of_mem_head? hc))) (by rintro _ ⟨⟩; rfl)
  have hopen : Text.dropBlanks (gap ++ '(' :: arguments) = '(' :: arguments :=
    Text.dropBlanks_append hgap (by rintro _ ⟨⟩; rfl)
  rw [callHead?_eq, hstart, takeWhile_append_of_head hname hboundary,
    dropWhile_append_of_head hname hboundary, hopen, if_neg hne]
  rfl

instance : Decidable (BeginsCall name arguments cs) :=
  decidable_of_iff (callHead? cs = some (String.ofList name, arguments))
    ⟨beginsCall_of_callHead?, callHead?_of_beginsCall⟩

theorem isSome_dropWord?_append {word : List Char}
    (hword : word.all (fun w => !isLetterOf w ')') = true) (cs after : List Char) :
    ((dropWord? word (cs ++ ')' :: after)).bind dropBlanks1?).isSome =
      ((dropWord? word cs).bind dropBlanks1?).isSome := by
  induction word generalizing cs with
  | nil =>
    cases cs with
    | nil => rfl
    | cons c cs =>
      show (dropBlanks1? (c :: (cs ++ ')' :: after))).isSome = (dropBlanks1? (c :: cs)).isSome
      rw [dropBlanks1?, dropBlanks1?]
      split <;> rfl
  | cons w word ih =>
    rw [List.all_cons, Bool.and_eq_true, Bool.not_eq_true'] at hword
    cases cs with
    | nil => simp [dropWord?, hword.1]
    | cons c cs =>
      rw [List.cons_append, dropWord?, dropWord?]
      split
      · exact ih hword.2 cs
      · rfl

theorem beginsDistinct_append (body after : List Char) :
    beginsDistinct (body ++ ')' :: after) = beginsDistinct body := by
  have hblanks : Text.dropBlanks (body ++ ')' :: after) = Text.dropBlanks body ++ ')' :: after := by
    unfold Text.dropBlanks
    rw [List.dropWhile_append]
    split
    · next hempty => rw [List.isEmpty_iff.1 hempty]; rfl
    · rfl
  unfold beginsDistinct
  rw [hblanks]
  exact isSome_dropWord?_append rfl _ _

/-- Where a balanced body and the parenthesis that closes it stand behind the head of a call, the
text is of an aggregation if nothing but blanks follows. -/
theorem topLevelAggregate?_of_beginsCall {sql : String}
    (h : BeginsCall name (body ++ ')' :: rest) sql.toList) (hbody : Balanced body) :
    topLevelAggregate? sql =
      if Text.allBlank rest then
        Aggregation.ofFunction? (String.ofList name) (beginsDistinct body)
      else none := by
  have hrest : afterClosing? false 1 (body ++ ')' :: rest) = some rest :=
    afterClosing?_one_iff.2 ⟨body, rfl, hbody⟩
  unfold topLevelAggregate?
  simp only [callHead?_of_beginsCall h, hrest, beginsDistinct_append, bind, Option.bind_some]
  cases Aggregation.ofFunction? (String.ofList name) (beginsDistinct body) <;>
    simp

/-- A text that is one call is of the aggregation that its name stands for. -/
theorem topLevelAggregate?_of_isCall {sql : String} (h : IsCall name arguments sql.toList) :
    topLevelAggregate? sql =
      Aggregation.ofFunction? (String.ofList name) (beginsDistinct arguments) := by
  obtain ⟨after, hblank, hbegins⟩ := h.begins
  rw [topLevelAggregate?_of_beginsCall hbegins h.balanced, if_pos hblank]

/-- **Calls of aggregate functions.** A text is of an aggregation if and only if it is one call,
with a balanced body, of a function that computes that aggregation. Where anything but blanks
follows the parenthesis that closes the body, another call for instance, it is of none. Wherever the
scan of the arguments has come to without finding that parenthesis, it counts one parenthesis more
than have been opened and not closed on the way, so it counts one at least. -/
theorem topLevelAggregate?_call (sql : String) :
    (∀ kind, topLevelAggregate? sql = some kind ↔
      ∃ name body, IsCall name body sql.toList ∧
        Aggregation.ofFunction? (String.ofList name) (beginsDistinct body) = some kind) ∧
    (∀ name body rest, BeginsCall name (body ++ ')' :: rest) sql.toList → Balanced body →
      Text.allBlank rest = false → topLevelAggregate? sql = none) ∧
    ∀ front rest, afterClosing? false 1 front = none →
      1 ≤ 1 + rise false front ∧
        afterClosing? false 1 (front ++ rest) =
          afterClosing? (endsQuoted false front) (1 + rise false front).toNat rest := by
  refine ⟨fun kind => ⟨fun h => ?_, ?_⟩, fun name body rest hbegins hbody hrest => ?_,
    fun front rest hfront => afterClosing?_append (Nat.le_refl 1) hfront rest⟩
  · unfold topLevelAggregate? at h
    obtain ⟨⟨name, arguments⟩, hhead, h⟩ := Option.bind_eq_some_iff.1 h
    obtain ⟨kind', hkind, h⟩ := Option.bind_eq_some_iff.1 h
    obtain ⟨after, hafter, h⟩ := Option.bind_eq_some_iff.1 h
    split_ifs at h with hblank
    obtain rfl := Option.some.inj h
    obtain ⟨body, rfl, hbody⟩ := afterClosing?_one_iff.1 hafter
    obtain ⟨name, rfl⟩ : ∃ cs, String.ofList cs = name := ⟨name.toList, String.ofList_toList⟩
    rw [beginsDistinct_append] at hkind
    exact ⟨name, body, ⟨hbody, after, hblank, beginsCall_of_callHead? hhead⟩, hkind⟩
  · rintro ⟨name, body, hcall, hkind⟩
    rw [topLevelAggregate?_of_isCall hcall, hkind]
  · rw [topLevelAggregate?_of_beginsCall hbegins hbody, if_neg (by simp [hrest])]

/-- A parenthesis between quotes closes nothing, so the first of these texts is a call and the scan
goes on past the quote in it; the second is two calls. -/
theorem topLevelAggregate?_call_quoted :
    let body := "case when $\x7bs\x7d = ')' then 1 end".toList
    let one := "max(case when $\x7bs\x7d = ')' then 1 end)"
    let two := "sum($\x7ba\x7d) / count(*)"
    let front := "case when $\x7bs\x7d = '".toList
    let rest := ")' then 1 end)".toList
    (IsCall "max".toList body one.toList ∧ topLevelAggregate? one = some .max) ∧
      (BeginsCall "sum".toList ("$\x7ba\x7d".toList ++ ')' :: " / count(*)".toList) two.toList ∧
        topLevelAggregate? two = none) ∧
      afterClosing? false 1 front = none ∧ 1 ≤ 1 + rise false front ∧
      afterClosing? false 1 (front ++ rest) =
        afterClosing? (endsQuoted false front) (1 + rise false front).toNat rest := by
  intro body one two front rest
  have hone : IsCall "max".toList body one.toList :=
    ⟨by decide +kernel, [], rfl, by decide +kernel⟩
  have htwo : BeginsCall "sum".toList ("$\x7ba\x7d".toList ++ ')' :: " / count(*)".toList)
      two.toList := by decide +kernel
  have hfront : afterClosing? false 1 front = none := by decide +kernel
  obtain ⟨hcall, -, hcount⟩ := topLevelAggregate?_call one
  obtain ⟨-, htrailing, -⟩ := topLevelAggregate?_call two
  exact ⟨⟨hone, (hcall .max).2 ⟨_, _, hone, by decide +kernel⟩⟩,
    ⟨htwo, htrailing _ _ _ htwo (by decide +kernel) (by decide +kernel)⟩, hfront,
    hcount front rest hfront⟩

end Expression

end MetricLayer
