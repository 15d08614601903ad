import MetricLayer.Expression.Placeholder
import MetricLayer.Proofs.Text.Blank
import Mathlib.Data.List.Basic
import Mathlib.Data.List.Nodup
import Mathlib.Data.List.TakeWhile

/-!
# What the scan for placeholders finds

A text holds a placeholder wherever a dollar sign and an opening brace stand before a closing one,
with the body up to the first of these. The scan finds the placeholders whose trimmed bodies are
dotted paths of identifiers, all of them and no others (`mem_placeholders_iff`). A placeholder with
any other body is left alone as the rest of the text is.
-/

namespace MetricLayer

namespace Expression

/-! ## Dotted paths of identifiers -/

/-- A text that is an identifier. -/
inductive IsIdentifier : List Char → Prop where
  | intro {c : Char} {cs : List Char} : isNameStart c = true → (∀ d ∈ cs, isNameChar d = true) →
    IsIdentifier (c :: cs)

/-- A text that is made of identifiers with dots between them. -/
inductive IsDottedPath : List Char → Prop where
  | single {name : List Char} : IsIdentifier name → IsDottedPath name
  | dot {name path : List Char} : IsIdentifier name → IsDottedPath path →
    IsDottedPath (name ++ '.' :: path)

/-- The characters of dotted paths. -/
def isPathChar (c : Char) : Bool := isNameChar c || c = '.'

theorem isNameChar_of_isNameStart {c : Char} (h : isNameStart c = true) : isNameChar c = true := by
  simp only [isNameStart, isNameChar, Char.isAlphanum, Bool.or_eq_true] at h ⊢
  tauto

theorem isPathChar_of_isNameChar {c : Char} (h : isNameChar c = true) : isPathChar c = true := by
  simp [isPathChar, h]

theorem toNat_of_isPathChar {c : Char} (h : isPathChar c = true) :
    c.toNat = 46 ∨ c.toNat = 95 ∨ (48 ≤ c.toNat ∧ c.toNat ≤ 57) ∨
      (65 ≤ c.toNat ∧ c.toNat ≤ 90) ∨ (97 ≤ c.toNat ∧ c.toNat ≤ 122) := by
  have hval : c.val.toNat = c.toNat := rfl
  unfold isPathChar isNameChar at h
  delta Char.isAlphanum Char.isAlpha Char.isUpper Char.isLower Char.isDigit at h
  simp [UInt32.le_iff_toNat_le, hval] at h
  rcases h with (h | rfl) | rfl
  · omega
  · decide
  · decide

theorem isBlank_of_isPathChar {c : Char} (h : isPathChar c = true) : Text.isBlank c = false := by
  have hrange := toNat_of_isPathChar h
  simp only [Text.isBlank, Bool.or_eq_false_iff, Bool.and_eq_false_iff, decide_eq_false_iff_not]
  omega

theorem isPathChar_of_isBlank {c : Char} (h : Text.isBlank c = true) : isPathChar c = false :=
  Bool.eq_false_iff.2 fun hpath => by simp [isBlank_of_isPathChar hpath] at h

theorem isPathChar_closing {blanks : List Char} (h : Text.allBlank blanks = true)
    (rest : List Char) : ∀ c ∈ (blanks ++ '\x7d' :: rest).head?, isPathChar c = false := by
  refine forall_head?_append (fun c hc => ?_) (by rintro _ ⟨⟩; rfl)
  exact isPathChar_of_isBlank (List.all_eq_true.1 h c (List.mem_of_mem_head? hc))

theorem IsIdentifier.isNameChar {name : List Char} (h : IsIdentifier name) :
    ∀ c ∈ name, isNameChar c = true := by
  obtain ⟨hc, hcs⟩ := h
  exact List.forall_mem_cons.2 ⟨isNameChar_of_isNameStart hc, hcs⟩

theorem IsDottedPath.isPathChar {path : List Char} (h : IsDottedPath path) :
    ∀ c ∈ path, isPathChar c = true := by
  induction h with
  | single h => exact fun c hc => isPathChar_of_isNameChar (h.isNameChar c hc)
  | dot h _ ih =>
    intro c hc
    rcases List.mem_append.1 hc with hc | hc
    · exact isPathChar_of_isNameChar (h.isNameChar c hc)
    · rcases List.mem_cons.1 hc with rfl | hc
      · rfl
      · exact ih c hc

theorem IsDottedPath.isBlank {path : List Char} (h : IsDottedPath path) :
    ∀ c ∈ path, Text.isBlank c = false :=
  fun c hc => isBlank_of_isPathChar (h.isPathChar c hc)

theorem IsDottedPath.ne_nil {path : List Char} (h : IsDottedPath path) : path ≠ [] := by
  cases h with
  | single h => cases h; simp
  | dot => simp

theorem IsDottedPath.trim {path : List Char} (h : IsDottedPath path) : Text.trim path = path :=
  Text.trim_eq_self (fun c hc => h.isBlank c (List.mem_of_mem_head? hc))
    fun c hc => h.isBlank c (List.mem_of_getLast? hc)

/-! ## Reading a dotted path -/

variable {cs rest name path : List Char}

theorem identifier?_ok (h : identifier? cs = some (name, rest)) :
    cs = name ++ rest ∧ IsIdentifier name := by
  cases cs with
  | nil => simp [identifier?] at h
  | cons c cs =>
    rw [identifier?] at h
    split_ifs at h with hc
    cases h
    exact ⟨by simp, .intro hc (List.all_eq_true.1 List.all_takeWhile)⟩

theorem identifier?_append (h : IsIdentifier name)
    (hrest : ∀ c ∈ rest.head?, isNameChar c = false) :
    identifier? (name ++ rest) = some (name, rest) := by
  obtain ⟨hc, hcs⟩ := h
  rw [List.cons_append, identifier?, if_pos hc, takeWhile_append_of_head hcs hrest,
    dropWhile_append_of_head hcs hrest]

theorem dottedPath?_of_identifier? (h : identifier? cs = some (name, rest)) :
    dottedPath? cs = some (name ++ (moreIdentifiers rest).1, (moreIdentifiers rest).2) := by
  rw [dottedPath?, h]
  rfl

theorem moreIdentifiers_dot (tail : List Char) :
    moreIdentifiers ('.' :: tail) =
      match dottedPath? tail with
      | some (path, after) => ('.' :: path, after)
      | none => ([], '.' :: tail) := by
  rw [moreIdentifiers, dottedPath?]
  cases identifier? tail <;> rfl

theorem moreIdentifiers_of_head (h : ∀ c ∈ cs.head?, c ≠ '.') : moreIdentifiers cs = ([], cs) := by
  rw [moreIdentifiers]
  intro tail htail
  subst htail
  exact h '.' rfl rfl

/-- There are no more identifiers, or a dot and a dotted path. -/
theorem moreIdentifiers_cases (cs : List Char) :
    moreIdentifiers cs = ([], cs) ∨ ∃ tail path after, cs = '.' :: tail ∧
      dottedPath? tail = some (path, after) ∧ moreIdentifiers cs = ('.' :: path, after) := by
  by_cases hdot : ∃ tail, cs = '.' :: tail
  · obtain ⟨tail, rfl⟩ := hdot
    cases htail : dottedPath? tail with
    | none => exact Or.inl (by rw [moreIdentifiers_dot, htail])
    | some found =>
      refine Or.inr ⟨tail, found.1, found.2, rfl, htail, ?_⟩
      rw [moreIdentifiers_dot, htail]
  · refine Or.inl (moreIdentifiers_of_head fun c hc heq => hdot ?_)
    cases cs with
    | nil => simp at hc
    | cons d tail => exact ⟨tail, by simp_all⟩

theorem dottedPath?_ok (h : dottedPath? cs = some (path, rest)) :
    cs = path ++ rest ∧ IsDottedPath path := by
  induction hn : cs.length using Nat.strongRecOn generalizing cs path with
  | ind n ih =>
    cases hname : identifier? cs with
    | none => simp [dottedPath?, hname] at h
    | some found =>
      obtain ⟨name, after⟩ := found
      have hlt := length_lt_of_identifier? hname
      rw [dottedPath?_of_identifier? hname] at h
      obtain ⟨rfl, hident⟩ := identifier?_ok hname
      rcases moreIdentifiers_cases after with hmore | ⟨tail, p, rest', rfl, htail, hmore⟩
      · rw [hmore] at h
        cases h
        exact ⟨by simp, by simpa using .single hident⟩
      · rw [hmore] at h
        cases h
        obtain ⟨rfl, hp⟩ := ih tail.length (by simp at hlt hn; omega) htail rfl
        exact ⟨by simp, .dot hident hp⟩

/-- A dotted path is read up to the first character that is not of a path. -/
theorem dottedPath?_append (h : IsDottedPath path)
    (hrest : ∀ c ∈ rest.head?, isPathChar c = false) :
    dottedPath? (path ++ rest) = some (path, rest) := by
  induction h with
  | single h =>
    have hname : ∀ c ∈ rest.head?, isNameChar c = false := fun c hc => by
      have hc := hrest c hc
      simp only [isPathChar, Bool.or_eq_false_iff] at hc
      exact hc.1
    have hdot : ∀ c ∈ rest.head?, c ≠ '.' := by
      rintro _ hc rfl
      simpa [isPathChar] using hrest _ hc
    rw [dottedPath?_of_identifier? (identifier?_append h hname), moreIdentifiers_of_head hdot,
      List.append_nil]
  | @dot name tail h _ ih =>
    have hname : identifier? (name ++ '.' :: (tail ++ rest)) = some (name, '.' :: (tail ++ rest)) :=
      identifier?_append h (by rintro _ ⟨⟩; rfl)
    rw [List.append_assoc, List.cons_append, dottedPath?_of_identifier? hname,
      moreIdentifiers_dot, ih]

theorem isDottedPath_iff : IsDottedPath path ↔ dottedPath? path = some (path, []) := by
  refine ⟨fun h => ?_, fun h => (dottedPath?_ok h).2⟩
  have hread : dottedPath? (path ++ []) = some (path, []) := dottedPath?_append h (by simp)
  rwa [List.append_nil] at hread

instance : DecidablePred IsDottedPath := fun _ => decidable_of_iff _ isDottedPath_iff.symm

/-! ## Placeholders of a text -/

/-- A text holds a placeholder with a body: a dollar sign and an opening brace, and what stands
between them and the next closing brace. -/
def HasPlaceholder (cs body : List Char) : Prop :=
  ∃ before after, cs = before ++ '$' :: '\x7b' :: (body ++ '\x7d' :: after) ∧ '\x7d' ∉ body

/-- A body that is a dotted path with blanks at its ends holds no other characters. -/
theorem notMem_of_trim {body : List Char} {c : Char} (h : IsDottedPath (Text.trim body))
    (hpath : isPathChar c = false) (hblank : Text.isBlank c = false) : c ∉ body := by
  obtain ⟨before, after, hbefore, hafter, hbody⟩ := Text.exists_blanks_trim body
  intro hc
  rw [hbody, List.mem_append, List.mem_append] at hc
  rcases hc with hc | hc | hc
  · simp [List.all_eq_true.1 hbefore c hc] at hblank
  · simp [h.isPathChar c hc] at hpath
  · simp [List.all_eq_true.1 hafter c hc] at hblank

/-- What is read as a placeholder is a dotted path with blanks at its ends. -/
theorem placeholderBody?_ok {after : List Char} (h : placeholderBody? cs = some (path, after)) :
    ∃ body, cs = body ++ '\x7d' :: after ∧ Text.trim body = path ∧ IsDottedPath path := by
  unfold placeholderBody? at h
  split at h
  · next path' rest hpath =>
    split at h
    · next after' hrest =>
      cases h
      obtain ⟨hcs, hdotted⟩ := dottedPath?_ok hpath
      obtain ⟨before, hbefore, hdrop⟩ := Text.exists_blanks_dropBlanks cs
      obtain ⟨blanks, hblanks, hdropRest⟩ := Text.exists_blanks_dropBlanks rest
      refine ⟨before ++ (path ++ blanks), ?_, ?_, hdotted⟩
      · rw [hdrop, hcs, hdropRest, hrest]
        simp
      · exact (Text.trim_append hbefore hblanks path).trans hdotted.trim
    · simp at h
  · simp at h

theorem placeholderBody?_append {body : List Char} (h : IsDottedPath (Text.trim body))
    (after : List Char) :
    placeholderBody? (body ++ '\x7d' :: after) = some (Text.trim body, after) := by
  obtain ⟨before, blanks, hbefore, hblanks, hbody⟩ := Text.exists_blanks_trim body
  have hstart : Text.dropBlanks (body ++ '\x7d' :: after) =
      Text.trim body ++ (blanks ++ '\x7d' :: after) := by
    conv_lhs => rw [hbody]
    rw [List.append_assoc, List.append_assoc, Text.dropBlanks_append hbefore]
    rw [List.head?_append_of_ne_nil _ h.ne_nil]
    exact fun c hc => h.isBlank c (List.mem_of_mem_head? hc)
  have hclose : Text.dropBlanks (blanks ++ '\x7d' :: after) = '\x7d' :: after :=
    Text.dropBlanks_append hblanks (by rintro _ ⟨⟩; rfl)
  have hpath := dottedPath?_append h (isPathChar_closing hblanks after)
  simp only [placeholderBody?, hstart, hpath, hclose]

theorem placeholder?_eq_some_iff {after : List Char} :
    placeholder? cs = some (path, after) ↔
      ∃ body, cs = '$' :: '\x7b' :: (body ++ '\x7d' :: after) ∧ Text.trim body = path ∧
        IsDottedPath path := by
  constructor
  · intro h
    unfold placeholder? at h
    split at h
    · next rest =>
      obtain ⟨body, rfl, htrim, hpath⟩ := placeholderBody?_ok h
      exact ⟨body, rfl, htrim, hpath⟩
    · simp at h
  · rintro ⟨body, rfl, rfl, hpath⟩
    exact placeholderBody?_append hpath after

theorem placeholdersAfter_append (xs ys : List Char) :
    placeholdersAfter xs.length (xs ++ ys) = placeholders ys := by
  induction xs with
  | nil => rfl
  | cons x xs ih => rwa [List.cons_append, List.length_cons, placeholdersAfter]

/-- The scan goes on after a placeholder that it has found. -/
theorem placeholders_of_placeholder? {body after : List Char}
    (h : IsDottedPath (Text.trim body)) :
    placeholders ('$' :: '\x7b' :: (body ++ '\x7d' :: after)) =
      Text.trim body :: placeholders after := by
  have hfound : placeholder? ('$' :: '\x7b' :: (body ++ '\x7d' :: after)) =
      some (Text.trim body, after) := placeholder?_eq_some_iff.2 ⟨body, rfl, rfl, h⟩
  rw [placeholders, placeholdersAfter, hfound]
  have hskip : ('\x7b' :: (body ++ '\x7d' :: after)).length - after.length =
      ('\x7b' :: (body ++ ['\x7d'])).length := by
    simp
    omega
  have hcs : '\x7b' :: (body ++ '\x7d' :: after) = '\x7b' :: (body ++ ['\x7d']) ++ after := by
    simp
  simp only
  rw [hskip, hcs, placeholdersAfter_append]

theorem placeholders_cons_of_none {c : Char} (h : placeholder? (c :: cs) = none) :
    placeholders (c :: cs) = placeholders cs := by
  rw [placeholders, placeholdersAfter, h]
  rfl

/-! A placeholder of a text begins where the text does or further on. -/

theorem hasPlaceholder_cons {c : Char} {body : List Char} :
    HasPlaceholder (c :: cs) body ↔
      (∃ after, c :: cs = '$' :: '\x7b' :: (body ++ '\x7d' :: after) ∧ '\x7d' ∉ body) ∨
        HasPlaceholder cs body := by
  constructor
  · rintro ⟨before, after, hcs, hbody⟩
    cases before with
    | nil => exact Or.inl ⟨after, hcs, hbody⟩
    | cons d before => exact Or.inr ⟨before, after, (List.cons.inj hcs).2, hbody⟩
  · rintro (⟨after, hcs, hbody⟩ | ⟨before, after, rfl, hbody⟩)
    · exact ⟨[], after, hcs, hbody⟩
    · exact ⟨c :: before, after, rfl, hbody⟩

theorem hasPlaceholder_append {xs ys body : List Char} (h : '$' ∉ xs) :
    HasPlaceholder (xs ++ ys) body ↔ HasPlaceholder ys body := by
  induction xs with
  | nil => rfl
  | cons x xs ih =>
    obtain ⟨hx, hxs⟩ := not_or.1 (mt List.mem_cons.2 h)
    rw [List.cons_append, hasPlaceholder_cons, ih hxs, or_iff_right]
    rintro ⟨after, hcs, -⟩
    exact hx (List.cons.inj hcs).1.symm

theorem eq_of_append_cons {α : Type} [DecidableEq α] {a : α} {xs xs' ys ys' : List α} (h : a ∉ xs)
    (h' : a ∉ xs') (heq : xs ++ a :: ys = xs' ++ a :: ys') : xs = xs' := by
  have htake : ∀ {zs ws : List α}, a ∉ zs → (zs ++ a :: ws).takeWhile (· ≠ a) = zs := by
    intro zs ws hzs
    rw [List.takeWhile_append_of_pos fun x hx => by simpa using ne_of_mem_of_not_mem hx hzs]
    simp
  rw [← htake h, heq, htake h']

theorem hasPlaceholder_of_placeholder? {body other after : List Char}
    (h : IsDottedPath (Text.trim body)) :
    HasPlaceholder ('$' :: '\x7b' :: (body ++ '\x7d' :: after)) other ↔
      other = body ∨ HasPlaceholder after other := by
  have hclose : '\x7d' ∉ body := notMem_of_trim h (by decide) (by decide)
  have hopen : '$' ∉ '\x7b' :: (body ++ ['\x7d']) := by
    simp [notMem_of_trim (c := '$') h (by decide) (by decide)]
  have hcs : '\x7b' :: (body ++ '\x7d' :: after) = '\x7b' :: (body ++ ['\x7d']) ++ after := by
    simp
  rw [hasPlaceholder_cons, hcs, hasPlaceholder_append hopen, ← hcs]
  refine or_congr_left ⟨?_, ?_⟩
  · rintro ⟨after', heq, hother⟩
    simp only [List.cons.injEq, true_and] at heq
    exact eq_of_append_cons hother hclose heq.symm
  · rintro rfl
    exact ⟨after, rfl, hclose⟩

/-- **The scan finds every placeholder** whose trimmed body is a dotted path of identifiers, and
nothing else. The induction is on the text, from one placeholder to what follows it. -/
theorem mem_placeholders_iff :
    path ∈ placeholders cs ↔
      ∃ body, HasPlaceholder cs body ∧ Text.trim body = path ∧ IsDottedPath path := by
  induction hn : cs.length using Nat.strongRecOn generalizing cs with
  | ind n ih =>
    cases cs with
    | nil => simp [placeholders, placeholdersAfter, HasPlaceholder]
    | cons c cs =>
      cases hfound : placeholder? (c :: cs) with
      | none =>
        rw [placeholders_cons_of_none hfound, ih cs.length (by simp at hn; omega) rfl]
        refine exists_congr fun body => ?_
        rw [hasPlaceholder_cons]
        refine ⟨fun h => ⟨Or.inr h.1, h.2⟩, fun ⟨hbody, htrim, hpath⟩ => ⟨?_, htrim, hpath⟩⟩
        refine hbody.resolve_left fun ⟨after, hcs, _⟩ => ?_
        rw [placeholder?_eq_some_iff.2 ⟨body, hcs, htrim, hpath⟩] at hfound
        cases hfound
      | some found =>
        obtain ⟨p, after⟩ := found
        obtain ⟨body, hcs, rfl, hp⟩ := placeholder?_eq_some_iff.1 hfound
        have hlt : after.length < n := by
          rw [← hn, hcs]
          simp
          omega
        rw [hcs, placeholders_of_placeholder? hp, List.mem_cons, ih _ hlt rfl]
        simp only [hasPlaceholder_of_placeholder? hp, or_and_right, exists_or, exists_eq_left]
        refine or_congr_left ⟨?_, fun h => h.1.symm⟩
        rintro rfl
        exact ⟨rfl, hp⟩

/-! ## References of a text -/

theorem mem_foldl_dropRepeats {α : Type} [DecidableEq α] {x : α} {xs seen : List α} :
    x ∈ xs.foldl (fun seen x => if x ∈ seen then seen else seen ++ [x]) seen ↔
      x ∈ seen ∨ x ∈ xs := by
  induction xs generalizing seen with
  | nil => simp
  | cons y ys ih =>
    rw [List.foldl_cons, ih, List.mem_cons]
    split
    · next hy =>
      refine ⟨fun h => h.imp_right Or.inr, ?_⟩
      rintro (h | rfl | h)
      · exact Or.inl h
      · exact Or.inl hy
      · exact Or.inr h
    · simp [or_assoc]

theorem mem_dropRepeats {α : Type} [DecidableEq α] {x : α} {xs : List α} :
    x ∈ dropRepeats xs ↔ x ∈ xs := by
  rw [dropRepeats, mem_foldl_dropRepeats]
  simp

theorem nodup_foldl_dropRepeats {α : Type} [DecidableEq α] {xs seen : List α} (h : seen.Nodup) :
    (xs.foldl (fun seen x => if x ∈ seen then seen else seen ++ [x]) seen).Nodup := by
  induction xs generalizing seen with
  | nil => exact h
  | cons x xs ih =>
    rw [List.foldl_cons]
    apply ih
    split
    · exact h
    · next hx => simpa using h.concat hx

theorem nodup_dropRepeats {α : Type} [DecidableEq α] (xs : List α) : (dropRepeats xs).Nodup :=
  nodup_foldl_dropRepeats List.nodup_nil

/-- The member path that a placeholder with a body stands for in a text of an entity. -/
def bodyPath (entity : String) (body : List Char) : String :=
  normalizePath entity (String.ofList (Text.trim body))

/-- A text refers to the paths of those placeholders that are dotted paths, other than an alias of
the entity alone. -/
theorem mem_references_iff {entity sql path : String} :
    path ∈ references entity sql ↔
      ∃ body, HasPlaceholder sql.toList body ∧ IsDottedPath (Text.trim body) ∧
        Text.trim body ∉ ownAliases ∧ bodyPath entity body = path := by
  rw [references, mem_dropRepeats, List.mem_map]
  constructor
  · rintro ⟨p, hp, rfl⟩
    obtain ⟨hscan, halias⟩ := List.mem_filter.1 hp
    obtain ⟨body, hbody, rfl, hpath⟩ := mem_placeholders_iff.1 hscan
    exact ⟨body, hbody, hpath, by simpa using halias, by simp [bodyPath, normalizePath]⟩
  · rintro ⟨body, hbody, hpath, halias, rfl⟩
    refine ⟨Text.trim body, List.mem_filter.2 ⟨?_, by simpa using halias⟩, ?_⟩
    · exact mem_placeholders_iff.2 ⟨body, hbody, rfl, hpath⟩
    · simp [bodyPath, normalizePath]

end Expression

end MetricLayer
