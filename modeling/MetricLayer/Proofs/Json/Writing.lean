import MetricLayer.Json.Printer
import MetricLayer.Proofs.Number.Spelling

/-!
# Compact texts

The values that are written in a way that keeps them apart are the `Plain` ones: they hold neither
whole numbers, which might be taken for other numbers, nor broken parts. The compact text of a plain
value stands in front of a text without touching it (`compact_append`), and its first character
tells what kind of value it is (`Plain.exists_compact`).
-/

namespace MetricLayer.Json

/-- A value without whole numbers and broken parts whose other numbers have a property. -/
inductive Plain (p : Binary64 → Prop) : Json → Prop where
  | null : Plain p null
  | bool (b : Bool) : Plain p (bool b)
  | string (s : String) : Plain p (string s)
  | real {x : Binary64} (hx : p x) : Plain p (real x)
  | array {items : List Json} (hitems : ∀ x ∈ items, Plain p x) : Plain p (array items)
  | object {members : List (String × Json)} (hmembers : ∀ m ∈ members, Plain p m.2) :
    Plain p (object members)

variable {p : Binary64 → Prop} {x : Json} {rest more : List Char}

/-! ## Items and members -/

/-- What follows an item: the next one behind a comma, or the rest. -/
def moreItems (items : List Json) (rest : List Char) : List Char :=
  match items with
  | [] => rest
  | _ :: _ => ',' :: compact.compactItems items rest

/-- What follows a member: the next one behind a comma, or the rest. -/
def moreMembers (members : List (String × Json)) (rest : List Char) : List Char :=
  match members with
  | [] => rest
  | _ :: _ => ',' :: compact.compactMembers members rest

theorem compactItems_cons (x : Json) (items : List Json) (rest : List Char) :
    compact.compactItems (x :: items) rest = x.compact (moreItems items rest) := by
  cases items with
  | nil => rw [compact.compactItems, moreItems]
  | cons y items =>
    rw [compact.compactItems, moreItems]
    exact List.cons_ne_nil y items

theorem compactMembers_cons (key : String) (x : Json) (members : List (String × Json))
    (rest : List Char) :
    compact.compactMembers ((key, x) :: members) rest =
      quoted key ++ ':' :: x.compact (moreMembers members rest) := by
  cases members with
  | nil => rw [compact.compactMembers, moreMembers]
  | cons m members =>
    rw [compact.compactMembers, moreMembers]
    exact List.cons_ne_nil m members

/-! ## In front of a text -/

theorem compactItems_append {items : List Json}
    (h : ∀ x ∈ items, ∀ rest, x.compact rest ++ more = x.compact (rest ++ more)) :
    compact.compactItems items rest ++ more = compact.compactItems items (rest ++ more) := by
  induction items with
  | nil => rfl
  | cons x items ih =>
    have htail := ih fun y hy => h y (List.mem_cons_of_mem x hy)
    rw [compactItems_cons, compactItems_cons, h x List.mem_cons_self]
    cases items with
    | nil => rfl
    | cons y items => exact congrArg (fun cs => x.compact (',' :: cs)) htail

theorem compactMembers_append {members : List (String × Json)}
    (h : ∀ m ∈ members, ∀ rest, m.2.compact rest ++ more = m.2.compact (rest ++ more)) :
    compact.compactMembers members rest ++ more =
      compact.compactMembers members (rest ++ more) := by
  induction members with
  | nil => rfl
  | cons m members ih =>
    obtain ⟨key, x⟩ := m
    have htail := ih fun m hm => h m (List.mem_cons_of_mem (key, x) hm)
    rw [compactMembers_cons, compactMembers_cons, List.append_assoc, List.cons_append,
      h (key, x) List.mem_cons_self]
    cases members with
    | nil => rfl
    | cons m members => exact congrArg (fun cs => quoted key ++ ':' :: x.compact (',' :: cs)) htail

/-- The text that a value is written in front of stays as it is. -/
theorem Plain.compact_append (h : Plain p x) (rest more : List Char) :
    x.compact rest ++ more = x.compact (rest ++ more) := by
  induction h generalizing rest with
  | null => simp [compact]
  | bool b => simp [compact]
  | string s => simp [compact]
  | real hx => simp [compact]
  | array hitems ih =>
    rw [compact, compact, List.cons_append, compactItems_append ih]
    rfl
  | object hmembers ih =>
    rw [compact, compact, List.cons_append, compactMembers_append ih]
    rfl

/-! ## The first character -/

/-- Whether a character is what the text of a value of this kind begins with. -/
def Opens (c : Char) : Json → Prop
  | null => c = 'n'
  | bool b => c = if b then 't' else 'f'
  | string _ => c = '"'
  | array _ => c = '['
  | object _ => c = '\x7b'
  | _ => c = '-' ∨ c.isDigit = true

theorem Plain.exists_compact (hp : ∀ x, p x → x.isFinite = true) (h : Plain p x)
    (rest : List Char) : ∃ c cs, x.compact rest = c :: cs ∧ x.Opens c := by
  cases h with
  | null => exact ⟨'n', _, rfl, rfl⟩
  | bool b =>
    cases b with
    | true => exact ⟨'t', _, rfl, rfl⟩
    | false => exact ⟨'f', _, rfl, rfl⟩
  | string s => exact ⟨'"', _, rfl, rfl⟩
  | real hx =>
    obtain ⟨c, cs, htext, hc⟩ := Binary64.head_text NumberStyle.writesNumerals_json (hp _ hx)
    refine ⟨c, cs ++ rest, ?_, hc⟩
    rw [compact, leafText, htext, List.cons_append]
    all_goals simp
  | array hitems => exact ⟨'[', _, rfl, rfl⟩
  | object hmembers => exact ⟨'\x7b', _, rfl, rfl⟩

theorem Plain.length_lt (hp : ∀ x, p x → x.isFinite = true) (h : Plain p x) (rest : List Char) :
    rest.length < (x.compact rest).length := by
  obtain ⟨c, cs, hcs, -⟩ := h.exists_compact hp []
  have happend := h.compact_append [] rest
  rw [List.nil_append, hcs] at happend
  rw [← happend, List.cons_append, List.length_cons, List.length_append]
  omega

end MetricLayer.Json
