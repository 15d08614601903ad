import MetricLayer.Proofs.Json.Reading

/-!
# Compact texts are unambiguous

What is written in front of one text is not what is written in front of another, unless the values
and the texts behind them are the same (`Plain.compact_inj`). This is more than that no two values
have one text: a row of values, each in front of the next, can be taken apart in one way only. It
needs no reader of numbers, only that a number's text ends where no character of a number follows
(`text_append_inj`).
-/

namespace MetricLayer.Json

variable {p : Binary64 → Prop} {x y : Json} {r s : List Char}

/-! ## Kinds -/

/-- The kinds of values. -/
inductive Kind where
  | null
  | bool
  | number
  | string
  | array
  | object
  deriving DecidableEq

def kind : Json → Kind
  | null => .null
  | bool _ => .bool
  | string _ => .string
  | array _ => .array
  | object _ => .object
  | _ => .number

/-- The kind of a value whose text begins with a character. -/
def Kind.ofFirst (c : Char) : Kind :=
  if c = 'n' then .null
  else if c = 't' ∨ c = 'f' then .bool
  else if c = '"' then .string
  else if c = '[' then .array
  else if c = '\x7b' then .object
  else .number

theorem Opens.kind {c : Char} (h : x.Opens c) : Kind.ofFirst c = x.kind := by
  have hnumber : c = '-' ∨ c.isDigit = true → Kind.ofFirst c = .number := by
    intro hc
    unfold Kind.ofFirst
    split_ifs with hn hb hs ha ho
    · exact absurd hc (by rw [hn]; decide)
    · rcases hb with hb | hb <;> exact absurd hc (by rw [hb]; decide)
    · exact absurd hc (by rw [hs]; decide)
    · exact absurd hc (by rw [ha]; decide)
    · exact absurd hc (by rw [ho]; decide)
    · rfl
  cases x with
  | null => exact h ▸ rfl
  | bool b => cases b <;> exact h ▸ rfl
  | string s => exact h ▸ rfl
  | array items => exact h ▸ rfl
  | object members => exact h ▸ rfl
  | integer negative size => exact hnumber h
  | real x => exact hnumber h
  | broken => exact hnumber h

theorem Plain.kind_eq (hp : ∀ x, p x → x.isFinite = true) (hx : Plain p x) (hy : Plain p y)
    (h : x.compact r = y.compact s) : x.kind = y.kind := by
  obtain ⟨c, cs, hcs, hc⟩ := hx.exists_compact hp r
  obtain ⟨d, ds, hds, hd⟩ := hy.exists_compact hp s
  rw [hcs, hds] at h
  rw [← hc.kind, ← hd.kind, (List.cons.inj h).1]

/-! ## Strings and numbers -/

theorem quoted_append_inj {key key' : String} (h : quoted key ++ r = quoted key' ++ s) :
    key = key' ∧ r = s := by
  rw [quoted_append, quoted_append] at h
  have hbody := congrArg stringBody (List.cons.inj h).2
  rw [stringBody_flatMap, stringBody_flatMap] at hbody
  obtain ⟨hkey, hrest⟩ := Prod.mk.inj (Option.some.inj hbody)
  exact ⟨Option.some.inj hkey, hrest⟩

/-- The text of a number ends where no character of a number follows. -/
theorem text_append_inj {a b : Binary64} (ha : a.isFinite = true) (hb : b.isFinite = true)
    (hr : ∀ c ∈ r.head?, Numeral.isNumeric c = false)
    (hs : ∀ c ∈ s.head?, Numeral.isNumeric c = false)
    (h : (a.text .json).toList ++ r = (b.text .json).toList ++ s) : a = b ∧ r = s := by
  have hjson := NumberStyle.writesNumerals_json
  have htake := congrArg (List.takeWhile Numeral.isNumeric) h
  have hdrop := congrArg (List.dropWhile Numeral.isNumeric) h
  rw [takeWhile_append_of_head (fun c => Binary64.isNumeric_of_mem_text hjson ha) hr,
    takeWhile_append_of_head (fun c => Binary64.isNumeric_of_mem_text hjson hb) hs] at htake
  rw [dropWhile_append_of_head (fun c => Binary64.isNumeric_of_mem_text hjson ha) hr,
    dropWhile_append_of_head (fun c => Binary64.isNumeric_of_mem_text hjson hb) hs] at hdrop
  exact ⟨Binary64.text_injective hjson ha hb (String.toList_injective htake), hdrop⟩

/-! ## Values -/

/-- What is written in front of a text tells the value and the text. -/
def Separates (p : Binary64 → Prop) (x : Json) : Prop :=
  ∀ {y r s}, Plain p y → (∀ c ∈ r.head?, Numeral.isNumeric c = false) →
    (∀ c ∈ s.head?, Numeral.isNumeric c = false) → x.compact r = y.compact s → x = y ∧ r = s

theorem compactItems_of_moreItems {xs ys : List Json}
    (h : moreItems xs (']' :: r) = moreItems ys (']' :: s)) :
    compact.compactItems xs (']' :: r) = compact.compactItems ys (']' :: s) := by
  cases xs with
  | nil =>
    cases ys with
    | nil => exact h
    | cons y ys => exact absurd (List.cons.inj h).1 (by decide)
  | cons x xs =>
    cases ys with
    | nil => exact absurd (List.cons.inj h).1 (by decide)
    | cons y ys => exact (List.cons.inj h).2

theorem compactMembers_of_moreMembers {ms ns : List (String × Json)}
    (h : moreMembers ms ('\x7d' :: r) = moreMembers ns ('\x7d' :: s)) :
    compact.compactMembers ms ('\x7d' :: r) = compact.compactMembers ns ('\x7d' :: s) := by
  cases ms with
  | nil =>
    cases ns with
    | nil => exact h
    | cons n ns => exact absurd (List.cons.inj h).1 (by decide)
  | cons m ms =>
    cases ns with
    | nil => exact absurd (List.cons.inj h).1 (by decide)
    | cons n ns => exact (List.cons.inj h).2

theorem compactItems_inj (hp : ∀ x, p x → x.isFinite = true) {xs ys : List Json}
    (hxs : ∀ x ∈ xs, Plain p x) (hys : ∀ y ∈ ys, Plain p y) (hinj : ∀ x ∈ xs, x.Separates p)
    (h : compact.compactItems xs (']' :: r) = compact.compactItems ys (']' :: s)) :
    xs = ys ∧ r = s := by
  have hend : ∀ {z zs q q'}, Plain p z →
      ']' :: q ≠ compact.compactItems (z :: zs) (']' :: q') := by
    intro z zs q q' hz heq
    obtain ⟨c, cs, hcs, hc⟩ := hz.exists_compact hp (moreItems zs (']' :: q'))
    rw [compactItems_cons, hcs] at heq
    exact hc.ne.2 (List.cons.inj heq).1.symm
  induction xs generalizing ys with
  | nil =>
    cases ys with
    | nil => exact ⟨rfl, (List.cons.inj h).2⟩
    | cons y ys => exact absurd h (hend (hys y List.mem_cons_self))
  | cons x xs ih =>
    cases ys with
    | nil => exact absurd h.symm (hend (hxs x List.mem_cons_self))
    | cons y ys =>
      rw [compactItems_cons, compactItems_cons] at h
      obtain ⟨rfl, hmore⟩ := hinj x List.mem_cons_self (hys y List.mem_cons_self)
        (isNumeric_moreItems xs r) (isNumeric_moreItems ys s) h
      obtain ⟨rfl, hrest⟩ := ih (fun z hz => hxs z (List.mem_cons_of_mem x hz))
        (fun z hz => hys z (List.mem_cons_of_mem x hz))
        (fun z hz => hinj z (List.mem_cons_of_mem x hz)) (compactItems_of_moreItems hmore)
      exact ⟨rfl, hrest⟩

theorem compactMembers_inj {ms ns : List (String × Json)} (hns : ∀ n ∈ ns, Plain p n.2)
    (hinj : ∀ m ∈ ms, m.2.Separates p)
    (h : compact.compactMembers ms ('\x7d' :: r) = compact.compactMembers ns ('\x7d' :: s)) :
    ms = ns ∧ r = s := by
  have hend : ∀ {n ns} {q q' : List Char},
      '\x7d' :: q ≠ compact.compactMembers (n :: ns) ('\x7d' :: q') := by
    rintro ⟨key, z⟩ ns q q' heq
    rw [compactMembers_cons, quoted_append] at heq
    exact absurd (List.cons.inj heq).1 (by decide)
  induction ms generalizing ns with
  | nil =>
    cases ns with
    | nil => exact ⟨rfl, (List.cons.inj h).2⟩
    | cons n ns => exact absurd h hend
  | cons m ms ih =>
    cases ns with
    | nil => exact absurd h.symm hend
    | cons n ns =>
      obtain ⟨key, x⟩ := m
      obtain ⟨key', y⟩ := n
      rw [compactMembers_cons, compactMembers_cons] at h
      obtain ⟨rfl, hvalue⟩ := quoted_append_inj h
      obtain ⟨hxy, hmore⟩ := hinj (key, x) List.mem_cons_self (hns (key, y) List.mem_cons_self)
        (isNumeric_moreMembers ms r) (isNumeric_moreMembers ns s) (List.cons.inj hvalue).2
      obtain ⟨rfl, hrest⟩ := ih (fun n hn => hns n (List.mem_cons_of_mem _ hn))
        (fun n hn => hinj n (List.mem_cons_of_mem _ hn)) (compactMembers_of_moreMembers hmore)
      exact ⟨congrArg (fun z => (key, z) :: ms) hxy, hrest⟩

/-- What a plain value is written in front of can be told from the value. -/
theorem Plain.separates (hp : ∀ x, p x → x.isFinite = true) (hx : Plain p x) : x.Separates p := by
  induction hx with
  | null =>
    intro y r s hy hr hs h
    have hkind := Plain.null.kind_eq hp hy h
    cases hy with
    | null => exact ⟨rfl, List.append_cancel_left h⟩
    | _ => cases hkind
  | bool b =>
    intro y r s hy hr hs h
    have hkind := (Plain.bool b).kind_eq hp hy h
    cases hy with
    | bool b' =>
      cases b <;> cases b'
      · exact ⟨rfl, List.append_cancel_left h⟩
      · exact absurd (List.cons.inj h).1 (by decide)
      · exact absurd (List.cons.inj h).1 (by decide)
      · exact ⟨rfl, List.append_cancel_left h⟩
    | _ => cases hkind
  | string t =>
    intro y r s hy hr hs h
    have hkind := (Plain.string t).kind_eq hp hy h
    cases hy with
    | string t' =>
      obtain ⟨rfl, hrest⟩ := quoted_append_inj h
      exact ⟨rfl, hrest⟩
    | _ => cases hkind
  | real ha =>
    intro y r s hy hr hs h
    have hkind := (Plain.real ha).kind_eq hp hy h
    cases hy with
    | real hb =>
      obtain ⟨rfl, hrest⟩ := text_append_inj (hp _ ha) (hp _ hb) hr hs h
      exact ⟨rfl, hrest⟩
    | _ => cases hkind
  | array hitems ih =>
    intro y r s hy hr hs h
    have hkind := (Plain.array hitems).kind_eq hp hy h
    cases hy with
    | array hitems' =>
      obtain ⟨rfl, hrest⟩ := compactItems_inj hp hitems hitems' ih (List.cons.inj h).2
      exact ⟨rfl, hrest⟩
    | _ => cases hkind
  | object hmembers ih =>
    intro y r s hy hr hs h
    have hkind := (Plain.object hmembers).kind_eq hp hy h
    cases hy with
    | object hmembers' =>
      obtain ⟨rfl, hrest⟩ := compactMembers_inj hmembers' ih (List.cons.inj h).2
      exact ⟨rfl, hrest⟩
    | _ => cases hkind

/-- Plain values with finite numbers, each in front of a text that no number could go on with, are
written alike only if the values and the texts are the same. -/
theorem Plain.compact_inj (hx : Plain (fun x => x.isFinite = true) x)
    (hy : Plain (fun x => x.isFinite = true) y)
    (hr : ∀ c ∈ r.head?, Numeral.isNumeric c = false)
    (hs : ∀ c ∈ s.head?, Numeral.isNumeric c = false) (h : x.compact r = y.compact s) :
    x = y ∧ r = s :=
  hx.separates (fun _ => id) hy hr hs h

end MetricLayer.Json
