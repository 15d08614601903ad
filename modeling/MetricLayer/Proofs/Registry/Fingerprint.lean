import MetricLayer.Registry.Fingerprint
import MetricLayer.Proofs.Json.Unambiguous
import MetricLayer.Proofs.Schema.RoundTrip
import MetricLayer.Proofs.Text.ByteOrder

/-!
# Fingerprints tell entities apart

The document that a fingerprint is the digest of can be taken apart in one way only: each line is
the text of one entity, whose end is known from the text itself, and the text tells the entity. Two
lists of entities that have one fingerprint are therefore the same list, or their documents are two
messages of one digest (`fingerprint_separates`).
-/

namespace MetricLayer

open Schema

/-! ## Digests -/

theorem flatMap_inj {α β : Type} {f : α → List β} {length : Nat}
    (hlength : ∀ a, (f a).length = length) (hf : ∀ {a b}, f a = f b → a = b) {xs ys : List α}
    (hcount : xs.length = ys.length) (h : xs.flatMap f = ys.flatMap f) : xs = ys := by
  induction xs generalizing ys with
  | nil => exact (List.length_eq_zero_iff.1 hcount.symm).symm
  | cons x xs ih =>
    cases ys with
    | nil => cases hcount
    | cons y ys =>
      rw [List.flatMap_cons, List.flatMap_cons] at h
      obtain ⟨hhead, htail⟩ := List.append_inj h ((hlength x).trans (hlength y).symm)
      rw [hf hhead, ih (Nat.succ.inj hcount) htail]

namespace Sha256

/-- The eight words of a digest. -/
def digest (message : List UInt8) : Registers := Registers.initial.absorbAll (words (pad message))

/-- Two messages that differ and have one digest. -/
def Collide (m n : List UInt8) : Prop := m ≠ n ∧ digest m = digest n

theorem digitChar_inj : ∀ m < 16, ∀ n < 16, Nat.digitChar m = Nat.digitChar n → m = n := by
  decide

/-- A byte as two hexadecimal digits. -/
def byteHex (b : UInt8) : List Char :=
  [Nat.digitChar (b.toNat / 16), Nat.digitChar (b.toNat % 16)]

theorem byteHex_inj {b c : UInt8} (h : byteHex b = byteHex c) : b = c := by
  have hb : b.toNat < 256 := b.toNat_lt
  have hc : c.toNat < 256 := c.toNat_lt
  obtain ⟨hhigh, hrest⟩ := List.cons.inj h
  have hdiv := digitChar_inj _ (by omega) _ (by omega) hhigh
  have hmod := digitChar_inj _ (by omega) _ (by omega) (List.cons.inj hrest).1
  apply UInt8.toNat_inj.1
  omega

theorem length_bigEndian (count n : Nat) : (bigEndian count n).length = count := by
  induction count generalizing n with
  | zero => rfl
  | succ count ih => rw [bigEndian, List.length_append, ih]; rfl

theorem bigEndian_inj {count m n : Nat} (hm : m < 256 ^ count) (hn : n < 256 ^ count)
    (h : bigEndian count m = bigEndian count n) : m = n := by
  induction count generalizing m n with
  | zero => omega
  | succ count ih =>
    rw [Nat.pow_succ] at hm hn
    rw [bigEndian, bigEndian] at h
    obtain ⟨hhigh, hlow⟩ := List.append_inj' h rfl
    have hdiv := ih (Nat.div_lt_of_lt_mul (by omega)) (Nat.div_lt_of_lt_mul (by omega)) hhigh
    have hmod := congrArg UInt8.toNat (List.cons.inj hlow).1
    rw [UInt8.toNat_ofNat', UInt8.toNat_ofNat'] at hmod
    omega

theorem wordHex_inj {x y : UInt32} (h : wordHex x = wordHex y) : x = y := by
  have hcount := (length_bigEndian 4 x.toNat).trans (length_bigEndian 4 y.toNat).symm
  have hlength : ∀ b, (byteHex b).length = 2 := fun _ => rfl
  have hbytes := flatMap_inj hlength byteHex_inj hcount h
  exact UInt32.toNat_inj.1 (bigEndian_inj x.toNat_lt y.toNat_lt hbytes)

theorem length_wordHex (x : UInt32) : (wordHex x).length = 8 := rfl

theorem digest_eq_of_hexDigest {m n : List UInt8} (h : hexDigest m = hexDigest n) :
    digest m = digest n := by
  have hwords : [(digest m).a, (digest m).b, (digest m).c, (digest m).d, (digest m).e,
      (digest m).f, (digest m).g, (digest m).h] =
      [(digest n).a, (digest n).b, (digest n).c, (digest n).d, (digest n).e,
      (digest n).f, (digest n).g, (digest n).h] :=
    flatMap_inj length_wordHex wordHex_inj rfl (String.ofList_injective h)
  simp only [List.cons.injEq, and_true] at hwords
  obtain ⟨ha, hb, hc, hd, he, hf, hg, hh⟩ := hwords
  cases hm : digest m
  cases hn : digest n
  simp_all

end Sha256

/-! ## Documents -/

theorem Schema.Entity.toJson_injective {e f : Entity} (h : e.toJson = f.toJson) : e = f := by
  have hnesting : ∀ limit ∈ (none : Nesting), 2 ≤ limit := by simp
  have hread := e.ofJson?_toJson hnesting
  rw [h, f.ofJson?_toJson hnesting] at hread
  exact (Option.some.inj hread).symm

/-- Whether the numbers in the filters of a list of entities are finite. -/
def FiniteNumbers (es : List Entity) : Prop := ∀ e ∈ es, ∀ x ∈ e.numbers, x.isFinite = true

instance (es : List Entity) : Decidable (FiniteNumbers es) :=
  inferInstanceAs (Decidable (∀ e ∈ es, ∀ x ∈ e.numbers, x.isFinite = true))

theorem fingerprintDocument_cons {e : Entity} (h : ∀ x ∈ e.numbers, x.isFinite = true)
    (es : List Entity) :
    fingerprintDocument (e :: es) = e.toJson.compact ('\n' :: fingerprintDocument es) := by
  rw [fingerprintDocument, List.flatMap_cons, (e.plain_toJson h).compact_append]
  rfl

/-- A document can be taken apart in one way only. -/
theorem fingerprintDocument_inj {es fs : List Entity} (hes : FiniteNumbers es)
    (hfs : FiniteNumbers fs) (h : fingerprintDocument es = fingerprintDocument fs) : es = fs := by
  have hline : ∀ cs, ∀ c ∈ ('\n' :: cs).head?, Numeral.isNumeric c = false := by
    rintro cs c ⟨⟩
    decide
  have hempty : ∀ {e gs}, FiniteNumbers (e :: gs) → fingerprintDocument (e :: gs) ≠ [] := by
    intro e gs hgs
    have he := hgs e List.mem_cons_self
    obtain ⟨c, cs, hcs, -⟩ := (e.plain_toJson he).exists_compact (fun _ => id)
      ('\n' :: fingerprintDocument gs)
    rw [fingerprintDocument_cons he, hcs]
    exact List.cons_ne_nil c cs
  induction es generalizing fs with
  | nil =>
    cases fs with
    | nil => rfl
    | cons f fs => exact absurd h.symm (hempty hfs)
  | cons e es ih =>
    cases fs with
    | nil => exact absurd h (hempty hes)
    | cons f fs =>
      obtain ⟨he, hes⟩ := List.forall_mem_cons.1 hes
      obtain ⟨hf, hfs⟩ := List.forall_mem_cons.1 hfs
      rw [fingerprintDocument_cons he, fingerprintDocument_cons hf] at h
      obtain ⟨hvalue, hrest⟩ :=
        (e.plain_toJson he).compact_inj (f.plain_toJson hf) (hline _) (hline _) h
      rw [Entity.toJson_injective hvalue, ih hes hfs (List.cons.inj hrest).2]

/-- The bytes that a fingerprint is the digest of. -/
def fingerprintBytes (es : List Entity) : List UInt8 :=
  utf8Bytes (String.ofList (fingerprintDocument es))

theorem fingerprint_eq (es : List Entity) :
    fingerprint es = Sha256.hexDigest (fingerprintBytes es) := rfl

/-- They are the bytes of the entities' texts, with a line feed behind each. -/
theorem fingerprintBytes_eq (es : List Entity) :
    fingerprintBytes es = es.flatMap fun e => utf8Bytes e.toText ++ [10] := by
  have hline : ∀ e : Entity, e.toJson.compact ['\n'] = e.toText.toList ++ ['\n'] := by
    intro e
    have hplain : e.toJson.Plain fun _ => True := e.plain_toJson fun _ _ => trivial
    rw [Entity.toText, Json.compactText, String.toList_ofList, hplain.compact_append]
    rfl
  rw [fingerprintBytes, utf8Bytes_eq, String.toList_ofList, fingerprintDocument,
    List.flatMap_assoc]
  refine congrArg (List.flatMap · es) (funext fun e => ?_)
  rw [hline, List.flatMap_append, ← utf8Bytes_eq]
  rfl

/-- The bytes of a document tell the entities, and a fingerprint tells them as well as a digest
tells messages apart. -/
theorem fingerprint_separates {es fs : List Entity} (hes : FiniteNumbers es)
    (hfs : FiniteNumbers fs) :
    (fingerprintBytes es = fingerprintBytes fs → es = fs) ∧
      (fingerprint es = fingerprint fs →
        es = fs ∨ Sha256.Collide (fingerprintBytes es) (fingerprintBytes fs)) := by
  have hbytes : fingerprintBytes es = fingerprintBytes fs → es = fs := fun h =>
    fingerprintDocument_inj hes hfs (String.ofList_injective (utf8Bytes_injective h))
  refine ⟨hbytes, fun h => ?_⟩
  rw [fingerprint_eq, fingerprint_eq] at h
  by_cases hsame : fingerprintBytes es = fingerprintBytes fs
  · exact Or.inl (hbytes hsame)
  · exact Or.inr ⟨hsame, Sha256.digest_eq_of_hexDigest h⟩

/-- The same entities in another order have another document. -/
theorem fingerprint_separates_archive :
    FiniteNumbers [Archive.letters, Archive.desk] ∧ FiniteNumbers [Archive.desk, Archive.letters] ∧
      fingerprintBytes [Archive.letters, Archive.desk] ≠
        fingerprintBytes [Archive.desk, Archive.letters] ∧
      (fingerprint [Archive.letters, Archive.desk] = fingerprint [Archive.desk, Archive.letters] →
        Sha256.Collide (fingerprintBytes [Archive.letters, Archive.desk])
          (fingerprintBytes [Archive.desk, Archive.letters])) := by
  have hes : FiniteNumbers [Archive.letters, Archive.desk] := by decide
  have hfs : FiniteNumbers [Archive.desk, Archive.letters] := by decide
  have hne : [Archive.letters, Archive.desk] ≠ [Archive.desk, Archive.letters] := by decide
  obtain ⟨hbytes, hfingerprint⟩ := fingerprint_separates hes hfs
  exact ⟨hes, hfs, fun h => hne (hbytes h), fun h => (hfingerprint h).resolve_left hne⟩

end MetricLayer
