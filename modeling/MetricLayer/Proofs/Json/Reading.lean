import MetricLayer.Json.Reader
import MetricLayer.Proofs.Json.Writing

/-!
# Reading compact texts

What is written is read again, whatever text stands behind it. A string is read back character by
character (`stringBody_quoted`). A number's reader looks at nothing behind the number
(`number_append`), so a number that is read back from its text alone is read back everywhere. From
these the plain values are read back, the nested ones by induction (`Plain.value_compact`), and the
text of a plain value is a document of that value (`Plain.ofText?_compactText`).
-/

namespace MetricLayer

namespace Json

variable {p : Binary64 → Prop} {x : Json} {cs rest more : List Char}

/-! ## Strings -/

theorem hexUnit?_control : ∀ n < 0x20,
    hexUnit? '0' '0' (hexDigit (n / 16)) (hexDigit (n % 16)) = some n := by
  decide

theorem ofUnit_control {c : Char} (h : c.toNat < 0x20) : Piece.ofUnit c.toNat = .char c := by
  rw [Piece.ofUnit, if_neg (by omega), Char.ofNat_toNat]

theorem pieces_escaped {e c : Char} (hu : e ≠ 'u') (h : escaped? e = some c) (cs : List Char) :
    pieces ('\\' :: e :: cs) = (pieces cs).map fun (ps, rest) => (.char c :: ps, rest) := by
  rw [pieces.eq_def]
  cases hcs : pieces cs with
  | none => simp [h, hu, hcs]
  | some found => simp [h, hu, hcs]

theorem pieces_unit {a b c d : Char} {unit : Nat} (h : hexUnit? a b c d = some unit)
    (cs : List Char) :
    pieces ('\\' :: 'u' :: a :: b :: c :: d :: cs) =
      (pieces cs).map fun (ps, rest) => (Piece.ofUnit unit :: ps, rest) := by
  rw [pieces.eq_def]
  cases hcs : pieces cs with
  | none => simp [h, hcs]
  | some found => simp [h, hcs]

theorem pieces_plain {c : Char} (hquote : c ≠ '"') (hbackslash : c ≠ '\\')
    (hcontrol : ¬ c.toNat < 0x20) (cs : List Char) :
    pieces (c :: cs) = (pieces cs).map fun (ps, rest) => (.char c :: ps, rest) := by
  rw [pieces.eq_def]
  cases hcs : pieces cs with
  | none => simp [hquote, hbackslash, hcontrol, hcs]
  | some found => simp [hquote, hbackslash, hcontrol, hcs]

theorem pieces_escapeChar (c : Char) (cs : List Char) :
    pieces (escapeChar c ++ cs) = (pieces cs).map fun (ps, rest) => (.char c :: ps, rest) := by
  unfold escapeChar
  split_ifs with hquote hbackslash hb hf hn hr ht hcontrol
  · exact pieces_escaped (by decide) (by rw [hquote]; rfl) cs
  · exact pieces_escaped (by decide) (by rw [hbackslash]; rfl) cs
  · exact pieces_escaped (by decide) (by rw [hb]; rfl) cs
  · exact pieces_escaped (by decide) (by rw [hf]; rfl) cs
  · exact pieces_escaped (by decide) (by rw [hn]; rfl) cs
  · exact pieces_escaped (by decide) (by rw [hr]; rfl) cs
  · exact pieces_escaped (by decide) (by rw [ht]; rfl) cs
  · rw [← ofUnit_control hcontrol]
    exact pieces_unit (hexUnit?_control c.toNat hcontrol) cs
  · exact pieces_plain hquote hbackslash hcontrol cs

theorem pieces_flatMap (cs rest : List Char) :
    pieces (cs.flatMap escapeChar ++ '"' :: rest) = some (cs.map .char, rest) := by
  induction cs with
  | nil =>
    rw [pieces.eq_def]
    rfl
  | cons c cs ih =>
    rw [List.flatMap_cons, List.append_assoc, pieces_escapeChar, ih]
    rfl

theorem joinPieces_map (cs : List Char) : joinPieces (cs.map .char) = some cs := by
  induction cs with
  | nil => rfl
  | cons c cs ih => rw [List.map_cons, joinPieces, ih, Option.map_some]

theorem stringBody_flatMap (s : String) (rest : List Char) :
    stringBody (s.toList.flatMap escapeChar ++ '"' :: rest) = some (some s, rest) := by
  rw [stringBody, pieces_flatMap]
  show some ((joinPieces (s.toList.map .char)).map String.ofList, rest) = _
  rw [joinPieces_map, Option.map_some, String.ofList_toList]

theorem quoted_append (s : String) (rest : List Char) :
    quoted s ++ rest = '"' :: (s.toList.flatMap escapeChar ++ '"' :: rest) := by
  simp [quoted]

/-! ## Numbers -/

/-- A reader that takes something off the front of a text, and takes the same whatever is put behind
the text, as long as a number could not go on with it. -/
structure TakesFront {α : Type} (read : List Char → Option (α × List Char)) : Prop where
  suffix : ∀ {cs a left}, read cs = some (a, left) → left <:+ cs
  append : ∀ {cs a left more}, (∀ c ∈ more.head?, Numeral.isNumeric c = false) →
    read cs = some (a, left) → read (cs ++ more) = some (a, left ++ more)

theorem isDigit_of_not_isNumeric {c : Char} (h : Numeral.isNumeric c = false) :
    c.isDigit = false := by
  cases hc : c.isDigit with
  | false => rfl
  | true => rw [Numeral.isNumeric_of_isDigit hc] at h; cases h

namespace TakesFront

variable {α β : Type} {read : List Char → Option (α × List Char)}

theorem pure (a : α) : TakesFront fun cs => some (a, cs) where
  suffix h := by
    cases h
    exact List.suffix_refl _
  append _ h := by
    cases h
    rfl

theorem map (hread : TakesFront read) (f : α → β) :
    TakesFront fun cs => (read cs).map fun (a, rest) => (f a, rest) where
  suffix h := by
    obtain ⟨⟨a, left⟩, hr, heq⟩ := Option.map_eq_some_iff.1 h
    cases heq
    exact hread.suffix hr
  append hmore h := by
    obtain ⟨⟨a, left⟩, hr, heq⟩ := Option.map_eq_some_iff.1 h
    cases heq
    dsimp only
    rw [hread.append hmore hr]
    rfl

theorem bind {next : α → List Char → Option (β × List Char)} (hread : TakesFront read)
    (hnext : ∀ a, TakesFront (next a)) :
    TakesFront fun cs => (read cs).bind fun (a, rest) => next a rest where
  suffix h := by
    obtain ⟨⟨a, left⟩, hr, hn⟩ := Option.bind_eq_some_iff.1 h
    exact ((hnext a).suffix hn).trans (hread.suffix hr)
  append hmore h := by
    obtain ⟨⟨a, left⟩, hr, hn⟩ := Option.bind_eq_some_iff.1 h
    dsimp only
    rw [hread.append hmore hr]
    exact (hnext a).append hmore hn

/-- A reader that goes by the first character: it is another reader behind that character, or from
that character on. -/
theorem of_head
    (hnil : ∀ {a left}, read [] = some (a, left) → left = [] ∧
      ∀ {more}, (∀ c ∈ more.head?, Numeral.isNumeric c = false) → read more = some (a, more))
    (hcons : ∀ c, ∃ next, TakesFront next ∧
      ((∀ cs, read (c :: cs) = next cs) ∨ ∀ cs, read (c :: cs) = next (c :: cs))) :
    TakesFront read where
  suffix {cs a left} h := by
    rcases cs with - | ⟨c, cs⟩
    · obtain ⟨rfl, -⟩ := hnil h
      exact List.suffix_refl _
    · obtain ⟨next, hnext, heq | heq⟩ := hcons c
      · rw [heq] at h
        exact (hnext.suffix h).trans (List.suffix_cons c cs)
      · rw [heq] at h
        exact hnext.suffix h
  append {cs a left more} hmore h := by
    rcases cs with - | ⟨c, cs⟩
    · obtain ⟨rfl, hread⟩ := hnil h
      exact hread hmore
    · obtain ⟨next, hnext, heq | heq⟩ := hcons c
      · rw [heq] at h
        rw [List.cons_append, heq]
        exact hnext.append hmore h
      · rw [heq] at h
        rw [List.cons_append, heq]
        exact hnext.append hmore h

end TakesFront

theorem digits1?_ok {ds left : List Char} (h : digits1? cs = some (ds, left)) :
    ds ≠ [] ∧ (∀ c ∈ ds, c.isDigit = true) ∧ cs = ds ++ left ∧
      ∀ c ∈ left.head?, c.isDigit = false := by
  unfold digits1? at h
  dsimp only at h
  split at h
  · cases h
  · rename_i hne
    obtain ⟨rfl, rfl⟩ := Prod.mk.inj (Option.some.inj h)
    refine ⟨by simpa using hne, fun c hc => ?_, List.takeWhile_append_dropWhile.symm, ?_⟩
    · exact List.all_eq_true.1 List.all_takeWhile c hc
    · intro c hc
      have hhead := List.head?_dropWhile_not Char.isDigit cs
      rw [hc] at hhead
      exact hhead

theorem takesFront_digits1? : TakesFront digits1? where
  suffix h := by
    obtain ⟨-, -, rfl, -⟩ := digits1?_ok h
    exact List.suffix_append _ _
  append hmore h := by
    obtain ⟨hne, hds, rfl, hleft⟩ := digits1?_ok h
    have hhead := forall_head?_append hleft fun c hc => isDigit_of_not_isNumeric (hmore c hc)
    rw [List.append_assoc, digits1?, takeWhile_append_of_head hds hhead,
      dropWhile_append_of_head hds hhead]
    simp [hne]

theorem takesFront_wholePart? : TakesFront wholePart? := by
  refine .of_head (fun h => by cases h) fun c => ?_
  by_cases hc : c = '0'
  · subst hc
    exact ⟨_, .pure ['0'], Or.inl fun cs => rfl⟩
  · exact ⟨_, takesFront_digits1?, Or.inr fun cs => by simp [wholePart?, hc]⟩

theorem takesFront_fractionPart? : TakesFront fractionPart? := by
  refine .of_head (fun h => ?_) fun c => ?_
  · cases h
    refine ⟨rfl, fun {more} hmore => ?_⟩
    rcases more with - | ⟨c, more⟩
    · rfl
    · have hc : c ≠ '.' := by
        rintro rfl
        exact absurd (hmore '.' rfl) (by decide)
      simp [fractionPart?, hc]
  · by_cases hc : c = '.'
    · subst hc
      exact ⟨_, takesFront_digits1?.map some, Or.inl fun cs => rfl⟩
    · exact ⟨_, .pure none, Or.inr fun cs => by simp [fractionPart?, hc]⟩

theorem takesFront_exponentDigits? : TakesFront exponentDigits? := by
  refine .of_head (fun h => by cases h) fun c => ?_
  by_cases hminus : c = '-'
  · subst hminus
    exact ⟨_, takesFront_digits1?.map fun ds => -(Nat.ofDigitChars 10 ds 0 : Int),
      Or.inl fun cs => rfl⟩
  · have hdigits := takesFront_digits1?.map fun ds => (Nat.ofDigitChars 10 ds 0 : Int)
    by_cases hplus : c = '+'
    · subst hplus
      exact ⟨_, hdigits, Or.inl fun cs => rfl⟩
    · exact ⟨_, hdigits, Or.inr fun cs => by simp [exponentDigits?, hminus, hplus]⟩

theorem takesFront_exponentPart? : TakesFront exponentPart? := by
  refine .of_head (fun h => ?_) fun c => ?_
  · cases h
    refine ⟨rfl, fun {more} hmore => ?_⟩
    rcases more with - | ⟨c, more⟩
    · rfl
    · have hc : ¬ (c = 'e' ∨ c = 'E') := by
        rintro (rfl | rfl)
        · exact absurd (hmore 'e' rfl) (by decide)
        · exact absurd (hmore 'E' rfl) (by decide)
      rw [exponentPart?, if_neg hc]
  · by_cases hc : c = 'e' ∨ c = 'E'
    · exact ⟨_, takesFront_exponentDigits?.map some,
        Or.inl fun cs => by rw [exponentPart?, if_pos hc]⟩
    · exact ⟨_, .pure none, Or.inr fun cs => by rw [exponentPart?, if_neg hc]⟩

theorem takesFront_unsignedNumber (negative : Bool) : TakesFront (unsignedNumber negative) :=
  takesFront_wholePart?.bind fun whole =>
    takesFront_fractionPart?.bind fun fraction =>
      takesFront_exponentPart?.bind fun exponent =>
        .pure (ofNumberParts negative whole fraction exponent)

theorem takesFront_number : TakesFront number := by
  refine .of_head (fun h => by cases h) fun c => ?_
  by_cases hc : c = '-'
  · subst hc
    exact ⟨_, takesFront_unsignedNumber true, Or.inl fun cs => rfl⟩
  · exact ⟨_, takesFront_unsignedNumber false, Or.inr fun cs => by simp [number, hc]⟩

/-! ## Values -/

theorem skipSpace_of_head {c : Char} (hc : isSpace c = false) (cs : List Char) :
    skipSpace (c :: cs) = c :: cs := by
  rw [skipSpace, List.dropWhile_cons, if_neg (by rw [hc]; exact Bool.false_ne_true)]

theorem isNumeric_of_isSpace {c : Char} (h : isSpace c = true) : Numeral.isNumeric c = false := by
  have hblank : ((c = ' ' ∨ c = '\t') ∨ c = '\n') ∨ c = '\r' := by simpa [isSpace] using h
  rcases hblank with ((rfl | rfl) | rfl) | rfl <;> decide

theorem isSpace_of_isNumeric {c : Char} (h : Numeral.isNumeric c = true) : isSpace c = false := by
  cases hs : isSpace c with
  | false => rfl
  | true =>
    rw [isNumeric_of_isSpace hs] at h
    cases h

/-- What a text begins with is neither a blank nor the end of an array. -/
theorem Opens.ne {c : Char} (h : x.Opens c) : isSpace c = false ∧ c ≠ ']' := by
  have hnumber : c = '-' ∨ c.isDigit = true → isSpace c = false ∧ c ≠ ']' := by
    rintro (rfl | hc)
    · decide
    · refine ⟨isSpace_of_isNumeric (Numeral.isNumeric_of_isDigit hc), ?_⟩
      rintro rfl
      exact absurd hc (by decide)
  cases x with
  | null => exact h ▸ by decide
  | bool b => cases b <;> exact h ▸ by decide
  | string s => exact h ▸ by decide
  | array items => exact h ▸ by decide
  | object members => exact h ▸ by decide
  | integer negative size => exact hnumber h
  | real x => exact hnumber h
  | broken => exact hnumber h

theorem value_of_number {c : Char} (hc : c = '-' ∨ c.isDigit = true) (fuel : Nat)
    (cs : List Char) : value (fuel + 1) (c :: cs) = number (c :: cs) := by
  have hspace : skipSpace (c :: cs) = c :: cs :=
    skipSpace_of_head (Opens.ne (x := .real .nan) hc).1 cs
  have hne : ∀ {d}, ¬ (d = '-' ∨ d.isDigit = true) → c ≠ d := fun hd heq => hd (heq ▸ hc)
  rw [value, hspace]
  split
  case h_7 => rfl
  all_goals
    rename_i heq
    exact absurd (List.cons.inj heq).1 (hne (by decide))

end Json

/-- The number of a value that is one. -/
def Json.real? : Json → Option Binary64
  | .real x => some x
  | _ => none

theorem Json.real?_eq_some_iff {j : Json} {y : Binary64} : j.real? = some y ↔ j = .real y := by
  cases j <;> simp [Json.real?]

/-- A number whose text is read as a document of that number. -/
def Binary64.ReadsBack (x : Binary64) : Prop :=
  Json.ofText? (Json.real x).compactText = some (.real x)

theorem Binary64.readsBack_iff (x : Binary64) :
    x.ReadsBack ↔ (Json.ofText? (Json.real x).compactText).bind Json.real? = some x := by
  simp [ReadsBack, Option.bind_eq_some_iff, Json.real?_eq_some_iff]

instance (x : Binary64) : Decidable x.ReadsBack := decidable_of_iff _ x.readsBack_iff.symm

namespace Json

/-- A number that is read back from its text alone is read back in front of any text. -/
theorem number_text {y : Binary64} (hfinite : y.isFinite = true) (hback : y.ReadsBack)
    (hrest : ∀ c ∈ rest.head?, Numeral.isNumeric c = false) :
    number ((y.text .json).toList ++ rest) = some (.real y, rest) := by
  have hnumeric := fun c => Binary64.isNumeric_of_mem_text (c := c)
    NumberStyle.writesNumerals_json hfinite
  obtain ⟨c, cs, htext, hc⟩ := Binary64.head_text NumberStyle.writesNumerals_json hfinite
  have hcompact : (real y).compact [] = (y.text .json).toList := by
    simp [compact, leafText]
  rw [Binary64.ReadsBack, ofText?, compactText, String.toList_ofList, hcompact, ofChars?, htext,
    value_of_number hc, ← htext] at hback
  cases hnumber : number (y.text .json).toList with
  | none =>
    rw [hnumber] at hback
    cases hback
  | some found =>
    obtain ⟨j, left⟩ := found
    rw [hnumber] at hback
    -- nothing is left over, for what is left would be skipped, and a number holds no blanks
    have hleft : left = [] := by
      cases left with
      | nil => rfl
      | cons d left =>
        have hd : d ∈ (y.text .json).toList :=
          (takesFront_number.suffix hnumber).subset List.mem_cons_self
        dsimp only at hback
        rw [skipSpace_of_head (isSpace_of_isNumeric (hnumeric d hd))] at hback
        cases hback
    subst hleft
    have hj : j = .real y := Option.some.inj hback
    rw [takesFront_number.append hrest hnumber, hj, List.nil_append]

/-! ## Nested values -/

/-- A value is read back in front of any text that no number could go on with, as long as two
readers may be at work for each character. -/
def Returns (x : Json) : Prop :=
  ∀ fuel rest, (∀ c ∈ rest.head?, Numeral.isNumeric c = false) →
    2 * (x.compact rest).length ≤ fuel → value fuel (x.compact rest) = some (x, rest)

theorem isNumeric_moreItems (xs : List Json) (rest : List Char) :
    ∀ c ∈ (moreItems xs (']' :: rest)).head?, Numeral.isNumeric c = false := by
  cases xs with
  | nil => rintro c ⟨⟩; decide
  | cons y xs => rintro c ⟨⟩; decide

theorem isNumeric_moreMembers (ms : List (String × Json)) (rest : List Char) :
    ∀ c ∈ (moreMembers ms ('\x7d' :: rest)).head?, Numeral.isNumeric c = false := by
  cases ms with
  | nil => rintro c ⟨⟩; decide
  | cons m ms => rintro c ⟨⟩; decide

theorem items_more {fuel : Nat} (h : value fuel cs = some (x, ',' :: rest)) :
    items (fuel + 1) cs = (items fuel rest).map fun (xs, rest) => (x :: xs, rest) := by
  rw [items, h]
  rfl

theorem items_last {fuel : Nat} (h : value fuel cs = some (x, ']' :: rest)) :
    items (fuel + 1) cs = some ([x], rest) := by
  rw [items, h]
  rfl

theorem members_more {fuel : Nat} {key : Option String}
    (hkey : stringBody cs = some (key, ':' :: more))
    (h : value fuel more = some (x, ',' :: rest)) :
    members (fuel + 1) ('"' :: cs) =
      (members fuel rest).map fun (ms, rest) => ((key, x) :: ms, rest) := by
  have hspace : ∀ cs, skipSpace (':' :: cs) = ':' :: cs := skipSpace_of_head (by decide)
  rw [members, skipSpace_of_head (by decide)]
  simp only [hkey, hspace, h]
  rfl

theorem members_last {fuel : Nat} {key : Option String}
    (hkey : stringBody cs = some (key, ':' :: more))
    (h : value fuel more = some (x, '\x7d' :: rest)) :
    members (fuel + 1) ('"' :: cs) = some ([(key, x)], rest) := by
  have hspace : ∀ cs, skipSpace (':' :: cs) = ':' :: cs := skipSpace_of_head (by decide)
  rw [members, skipSpace_of_head (by decide)]
  simp only [hkey, hspace, h]
  rfl

theorem items_compactItems (hp : ∀ x, p x → x.isFinite = true) {xs : List Json} (hne : xs ≠ [])
    (hxs : ∀ x ∈ xs, Plain p x) (hback : ∀ x ∈ xs, x.Returns) {fuel : Nat}
    (hfuel : 2 * (compact.compactItems xs (']' :: rest)).length + 1 ≤ fuel) :
    items fuel (compact.compactItems xs (']' :: rest)) = some (xs, rest) := by
  induction xs generalizing fuel with
  | nil => exact absurd rfl hne
  | cons x xs ih =>
    obtain ⟨fuel, rfl⟩ : ∃ f, fuel = f + 1 := ⟨fuel - 1, by omega⟩
    rw [compactItems_cons] at hfuel ⊢
    have hx := hback x List.mem_cons_self fuel _ (isNumeric_moreItems xs rest) (by omega)
    cases xs with
    | nil => exact items_last hx
    | cons y xs =>
      have hlt := (hxs x List.mem_cons_self).length_lt hp (moreItems (y :: xs) (']' :: rest))
      have hmore : (moreItems (y :: xs) (']' :: rest)).length =
          (compact.compactItems (y :: xs) (']' :: rest)).length + 1 := rfl
      have hrest : items fuel (compact.compactItems (y :: xs) (']' :: rest)) =
          some (y :: xs, rest) :=
        ih (List.cons_ne_nil y xs) (fun z hz => hxs z (List.mem_cons_of_mem x hz))
          (fun z hz => hback z (List.mem_cons_of_mem x hz)) (by omega)
      rw [items_more hx, hrest]
      rfl

/-- The members of an object are read back one by one, each key being a text. -/
theorem members_compactMembers (hp : ∀ x, p x → x.isFinite = true) {ms : List (String × Json)}
    (hne : ms ≠ []) (hms : ∀ m ∈ ms, Plain p m.2) (hback : ∀ m ∈ ms, m.2.Returns) {fuel : Nat}
    (hfuel : 2 * (compact.compactMembers ms ('\x7d' :: rest)).length + 1 ≤ fuel) :
    members fuel (compact.compactMembers ms ('\x7d' :: rest)) =
      some (ms.map fun m => (some m.1, m.2), rest) := by
  induction ms generalizing fuel with
  | nil => exact absurd rfl hne
  | cons m ms ih =>
    obtain ⟨key, x⟩ := m
    obtain ⟨fuel, rfl⟩ : ∃ f, fuel = f + 1 := ⟨fuel - 1, by omega⟩
    rw [compactMembers_cons] at hfuel ⊢
    rw [List.length_append, List.length_cons] at hfuel
    have hx : value fuel (x.compact (moreMembers ms ('\x7d' :: rest))) = some (x, _) :=
      hback (key, x) List.mem_cons_self fuel _ (isNumeric_moreMembers ms rest)
        (by dsimp only; omega)
    have hkey := stringBody_flatMap key (':' :: x.compact (moreMembers ms ('\x7d' :: rest)))
    rw [quoted_append]
    cases ms with
    | nil => exact members_last hkey hx
    | cons m' ms =>
      have hlt : (moreMembers (m' :: ms) ('\x7d' :: rest)).length <
          (x.compact (moreMembers (m' :: ms) ('\x7d' :: rest))).length :=
        (hms (key, x) List.mem_cons_self).length_lt hp _
      have hmore : (moreMembers (m' :: ms) ('\x7d' :: rest)).length =
          (compact.compactMembers (m' :: ms) ('\x7d' :: rest)).length + 1 := rfl
      have hrest : members fuel (compact.compactMembers (m' :: ms) ('\x7d' :: rest)) =
          some ((m' :: ms).map fun m => (some m.1, m.2), rest) :=
        ih (List.cons_ne_nil m' ms) (fun n hn => hms n (List.mem_cons_of_mem (key, x) hn))
          (fun n hn => hback n (List.mem_cons_of_mem (key, x) hn)) (by omega)
      rw [members_more hkey hx, hrest]
      rfl

theorem ofMembers_map (ms : List (String × Json)) :
    ofMembers (ms.map fun m => (some m.1, m.2)) = .object ms := by
  have hkeys : (ms.map fun m => (some m.1, m.2)).mapM
      (fun (m : Option String × Json) => m.1.map fun k => (k, m.2)) = some ms := by
    induction ms with
    | nil => rfl
    | cons m ms ih => rw [List.map_cons, List.mapM_cons, ih]; rfl
  unfold ofMembers
  rw [hkeys]

theorem value_quoted (fuel : Nat) (s : String) (rest : List Char) :
    value (fuel + 1) (quoted s ++ rest) = some (.string s, rest) := by
  rw [quoted_append, value, skipSpace_of_head (by decide)]
  show (stringBody _).map _ = _
  rw [stringBody_flatMap]
  rfl

theorem value_items {fuel : Nat} {c : Char} (hspace : isSpace c = false) (hend : c ≠ ']')
    (cs : List Char) :
    value (fuel + 1) ('[' :: c :: cs) =
      (items fuel (c :: cs)).map fun (xs, rest) => (.array xs, rest) := by
  rw [value, skipSpace_of_head (by decide)]
  simp only [skipSpace_of_head hspace]
  split
  · rename_i heq
    exact absurd (List.cons.inj heq).1 hend
  · rfl

theorem value_members (fuel : Nat) (cs : List Char) :
    value (fuel + 1) ('\x7b' :: '"' :: cs) =
      (members fuel ('"' :: cs)).map fun (ms, rest) => (ofMembers ms, rest) := by
  rw [value, skipSpace_of_head (by decide)]
  rfl

theorem Plain.exists_fuel (hp : ∀ x, p x → x.isFinite = true) (h : Plain p x) {fuel : Nat}
    (hfuel : 2 * (x.compact rest).length ≤ fuel) : ∃ f, fuel = f + 1 := by
  have hlt := h.length_lt hp rest
  exact ⟨fuel - 1, by omega⟩

theorem returns_real {y : Binary64} (hfinite : y.isFinite = true) (hback : y.ReadsBack) :
    (real y).Returns := by
  intro fuel rest hrest hfuel
  have hplain : Plain (fun x => x.isFinite = true) (Json.real y) := .real hfinite
  obtain ⟨fuel, rfl⟩ := hplain.exists_fuel (fun _ => id) hfuel
  obtain ⟨c, cs, htext, hc⟩ := Binary64.head_text NumberStyle.writesNumerals_json hfinite
  have hread := number_text hfinite hback hrest
  have hcompact : (Json.real y).compact rest = (y.text .json).toList ++ rest := by
    simp [compact, leafText]
  rw [hcompact]
  rw [htext, List.cons_append] at hread ⊢
  rw [value_of_number hc, hread]

theorem returns_array (hp : ∀ x, p x → x.isFinite = true) {xs : List Json}
    (hxs : ∀ x ∈ xs, Plain p x) (hback : ∀ x ∈ xs, x.Returns) : (array xs).Returns := by
  intro fuel rest hrest hfuel
  obtain ⟨fuel, rfl⟩ := (Plain.array hxs).exists_fuel hp hfuel
  rw [compact] at hfuel ⊢
  rw [List.length_cons] at hfuel
  cases xs with
  | nil => rfl
  | cons x xs =>
    have hread : items fuel (compact.compactItems (x :: xs) (']' :: rest)) =
        some (x :: xs, rest) :=
      items_compactItems hp (List.cons_ne_nil x xs) hxs hback (by omega)
    obtain ⟨c, cs, hcs, hc⟩ :=
      (hxs x List.mem_cons_self).exists_compact hp (moreItems xs (']' :: rest))
    rw [← compactItems_cons] at hcs
    rw [hcs] at hread ⊢
    rw [value_items hc.ne.1 hc.ne.2, hread]
    rfl

theorem returns_object (hp : ∀ x, p x → x.isFinite = true) {ms : List (String × Json)}
    (hms : ∀ m ∈ ms, Plain p m.2) (hback : ∀ m ∈ ms, m.2.Returns) : (object ms).Returns := by
  intro fuel rest hrest hfuel
  obtain ⟨fuel, rfl⟩ := (Plain.object hms).exists_fuel hp hfuel
  rw [compact] at hfuel ⊢
  rw [List.length_cons] at hfuel
  cases ms with
  | nil => rfl
  | cons m ms =>
    have hread : members fuel (compact.compactMembers (m :: ms) ('\x7d' :: rest)) = _ :=
      members_compactMembers hp (List.cons_ne_nil m ms) hms hback (by omega)
    obtain ⟨key, x⟩ := m
    rw [compactMembers_cons, quoted_append] at hread ⊢
    rw [value_members, hread]
    show some (ofMembers _, rest) = _
    rw [ofMembers_map]

/-- A plain value whose numbers are read back is read back itself. -/
theorem Plain.returns (hp : ∀ x, p x → x.isFinite = true ∧ x.ReadsBack) (h : Plain p x) :
    x.Returns := by
  have hfinite : ∀ x, p x → x.isFinite = true := fun x hx => (hp x hx).1
  induction h with
  | null =>
    intro fuel rest hrest hfuel
    obtain ⟨fuel, rfl⟩ := Plain.null.exists_fuel hfinite hfuel
    rfl
  | bool b =>
    intro fuel rest hrest hfuel
    obtain ⟨fuel, rfl⟩ := (Plain.bool b).exists_fuel hfinite hfuel
    cases b <;> rfl
  | string s =>
    intro fuel rest hrest hfuel
    obtain ⟨fuel, rfl⟩ := (Plain.string s).exists_fuel hfinite hfuel
    exact value_quoted fuel s rest
  | real hx => exact returns_real (hp _ hx).1 (hp _ hx).2
  | array hitems ih => exact returns_array hfinite hitems ih
  | object hmembers ih => exact returns_object hfinite hmembers ih

/-- The text of a plain value is a document of that value. -/
theorem Plain.ofText?_compactText (hp : ∀ x, p x → x.isFinite = true ∧ x.ReadsBack)
    (h : Plain p x) : ofText? x.compactText = some x := by
  rw [ofText?, compactText, String.toList_ofList, ofChars?,
    h.returns hp _ [] (by simp) (by omega)]
  rfl

end Json

end MetricLayer
