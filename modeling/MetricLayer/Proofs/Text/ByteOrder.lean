import Mathlib.Data.String.Basic
import Mathlib.Tactic.SplitIfs

/-!
# The order of texts

Texts are ordered by the code points of their characters. A character of a greater code point has
the greater bytes, so this is the order of their bytes (`le_iff_utf8Bytes_le`): the least of several
names is the same by either.
-/

namespace MetricLayer

/-- The bytes of a text. -/
def utf8Bytes (s : String) : List UInt8 := s.toUTF8.data.toList

theorem utf8Bytes_injective {s t : String} (h : utf8Bytes s = utf8Bytes t) : s = t := by
  rw [utf8Bytes, utf8Bytes, String.toUTF8_eq_toByteArray, String.toUTF8_eq_toByteArray] at h
  exact String.toByteArray_inj.1 (ByteArray.ext (Array.toList_inj.1 h))

theorem utf8Bytes_eq (s : String) : utf8Bytes s = s.toList.flatMap String.utf8EncodeChar := by
  rw [utf8Bytes, String.toUTF8, ← String.utf8Encode_toList, List.utf8Encode,
    List.data_toByteArray]

/-! ## Characters -/

theorem utf8EncodeChar_ne_nil (c : Char) : String.utf8EncodeChar c ≠ [] := by
  rw [String.utf8EncodeChar]
  split_ifs <;> exact List.cons_ne_nil _ _

/-- Of two numbers the greater has greater leading digits, or the same and a greater last one. -/
theorem lt_of_sextets {m n : Nat} (h : m < n) :
    m / 64 < n / 64 ∨ m / 64 = n / 64 ∧ m % 64 < n % 64 := by
  omega

theorem utf8EncodeChar_lt {c d : Char} (h : c < d) (xs ys : List UInt8) :
    String.utf8EncodeChar c ++ xs < String.utf8EncodeChar d ++ ys := by
  have hcd : c.val.toNat < d.val.toNat := h
  have hd : d.val.toNat < 1114112 := by
    rcases d.valid with hlow | ⟨-, hhigh⟩
    · exact lt_trans hlow (by decide)
    · exact hhigh
  -- A byte of each kind keeps its digit: no marker and digit exceed a byte.
  have h64 : ∀ k, (k % 64 + 128) % 256 = k % 64 + 128 := by omega
  have h32 : ∀ k, (k % 32 + 192) % 256 = k % 32 + 192 := by omega
  have h16 : ∀ k, (k % 16 + 224) % 256 = k % 16 + 224 := by omega
  have h8 : ∀ k, (k % 8 + 240) % 256 = k % 8 + 240 := by omega
  have h2 : ∀ k : Nat, k / 4096 = k / 64 / 64 := by omega
  have h3 : ∀ k : Nat, k / 262144 = k / 64 / 64 / 64 := by omega
  simp only [String.utf8EncodeChar]
  generalize c.val.toNat = m at *
  generalize d.val.toNat = n at *
  have hdigits : m / 64 / 64 / 64 < n / 64 / 64 / 64 ∨ m / 64 / 64 / 64 = n / 64 / 64 / 64 ∧
      (m / 64 / 64 % 64 < n / 64 / 64 % 64 ∨ m / 64 / 64 % 64 = n / 64 / 64 % 64 ∧
        (m / 64 % 64 < n / 64 % 64 ∨ m / 64 % 64 = n / 64 % 64 ∧ m % 64 < n % 64)) := by
    rcases lt_of_sextets hcd with h | ⟨h, hlast⟩
    · rcases lt_of_sextets h with h | ⟨h, hlast⟩
      · rcases lt_of_sextets h with h | ⟨h, hlast⟩
        · exact Or.inl h
        · exact Or.inr ⟨h, Or.inl hlast⟩
      · exact Or.inr ⟨by rw [h], Or.inr ⟨by rw [h], Or.inl hlast⟩⟩
    · exact Or.inr ⟨by rw [h], Or.inr ⟨by rw [h], Or.inr ⟨by rw [h], hlast⟩⟩⟩
  split_ifs <;>
    simp only [List.cons_append, List.nil_append, List.cons_lt_cons_iff, UInt8.lt_iff_toNat_lt,
      ← UInt8.toNat_inj, UInt8.toNat_ofNat', Nat.reducePow, h64, h32, h16, h8, h2, h3] <;> omega

/-! ## Texts -/

theorem flatMap_utf8EncodeChar_lt {xs ys : List Char} (h : xs < ys) :
    xs.flatMap String.utf8EncodeChar < ys.flatMap String.utf8EncodeChar := by
  induction h with
  | @nil d ys =>
    obtain ⟨b, bs, hd⟩ := List.exists_cons_of_ne_nil (utf8EncodeChar_ne_nil d)
    rw [List.flatMap_nil, List.flatMap_cons, hd]
    exact List.nil_lt_cons b _
  | @rel c xs d ys hcd =>
    rw [List.flatMap_cons, List.flatMap_cons]
    exact utf8EncodeChar_lt hcd _ _
  | @cons c xs ys _ ih =>
    rw [List.flatMap_cons, List.flatMap_cons]
    exact List.append_left_lt ih

theorem utf8Bytes_lt {s t : String} (h : s < t) : utf8Bytes s < utf8Bytes t := by
  rw [utf8Bytes_eq, utf8Bytes_eq]
  exact flatMap_utf8EncodeChar_lt (String.lt_iff.1 h)

/-- The order of texts is the order of their bytes. -/
theorem le_iff_utf8Bytes_le {s t : String} : s ≤ t ↔ utf8Bytes s ≤ utf8Bytes t := by
  constructor
  · intro h
    rcases h.eq_or_lt with rfl | h
    · exact List.le_refl _
    · exact List.le_of_lt (utf8Bytes_lt h)
  · intro h
    by_contra hst
    exact h (utf8Bytes_lt (not_le.1 hst))

end MetricLayer
