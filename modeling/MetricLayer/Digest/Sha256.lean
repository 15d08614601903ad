/-!
# SHA-256

The 256-bit digest of a list of bytes. Eight registers go through sixty-four rounds for each block
of sixteen words; the round constants are taken one after another, and of the message schedule only
the sixteen words that later ones depend on are kept.
-/

namespace MetricLayer.Sha256

/-- The eight words that are carried from block to block. -/
structure Registers where
  a : UInt32
  b : UInt32
  c : UInt32
  d : UInt32
  e : UInt32
  f : UInt32
  g : UInt32
  h : UInt32
  deriving DecidableEq

/-- The registers before the first block. -/
def Registers.initial : Registers :=
  ⟨0x6a09e667, 0xbb67ae85, 0x3c6ef372, 0xa54ff53a, 0x510e527f, 0x9b05688c, 0x1f83d9ab, 0x5be0cd19⟩

/-- One constant for each round. -/
def roundConstants : List UInt32 :=
  [0x428a2f98, 0x71374491, 0xb5c0fbcf, 0xe9b5dba5, 0x3956c25b, 0x59f111f1, 0x923f82a4, 0xab1c5ed5,
    0xd807aa98, 0x12835b01, 0x243185be, 0x550c7dc3, 0x72be5d74, 0x80deb1fe, 0x9bdc06a7, 0xc19bf174,
    0xe49b69c1, 0xefbe4786, 0x0fc19dc6, 0x240ca1cc, 0x2de92c6f, 0x4a7484aa, 0x5cb0a9dc, 0x76f988da,
    0x983e5152, 0xa831c66d, 0xb00327c8, 0xbf597fc7, 0xc6e00bf3, 0xd5a79147, 0x06ca6351, 0x14292967,
    0x27b70a85, 0x2e1b2138, 0x4d2c6dfc, 0x53380d13, 0x650a7354, 0x766a0abb, 0x81c2c92e, 0x92722c85,
    0xa2bfe8a1, 0xa81a664b, 0xc24b8b70, 0xc76c51a3, 0xd192e819, 0xd6990624, 0xf40e3585, 0x106aa070,
    0x19a4c116, 0x1e376c08, 0x2748774c, 0x34b0bcb5, 0x391c0cb3, 0x4ed8aa4a, 0x5b9cca4f, 0x682e6ff3,
    0x748f82ee, 0x78a5636f, 0x84c87814, 0x8cc70208, 0x90befffa, 0xa4506ceb, 0xbef9a3f7, 0xc67178f2]

/-- A word rotated to the right. -/
def rotate (x : UInt32) (n : UInt32) : UInt32 := (x >>> n) ||| (x <<< (32 - n))

/-- A block of the message, or the part of the message schedule that is still needed. -/
abbrev Window := Vector UInt32 16

/-- The next sixteen words of the message schedule. -/
def Window.next (w : Window) : Window :=
  let x := w[1]
  let y := w[14]
  let s0 := rotate x 7 ^^^ rotate x 18 ^^^ (x >>> 3)
  let s1 := rotate y 17 ^^^ rotate y 19 ^^^ (y >>> 10)
  let new := w[0] + s0 + w[9] + s1
  Vector.ofFn fun i : Fin 16 => if h : i.val + 1 < 16 then w[i.val + 1] else new

/-- One round on the registers with its constant and its word of the schedule. -/
def Registers.round (r : Registers) (constant word : UInt32) : Registers :=
  let s1 := rotate r.e 6 ^^^ rotate r.e 11 ^^^ rotate r.e 25
  let choice := (r.e &&& r.f) ^^^ (~~~r.e &&& r.g)
  let t1 := r.h + s1 + choice + constant + word
  let s0 := rotate r.a 2 ^^^ rotate r.a 13 ^^^ rotate r.a 22
  let majority := (r.a &&& r.b) ^^^ (r.a &&& r.c) ^^^ (r.b &&& r.c)
  ⟨t1 + (s0 + majority), r.a, r.b, r.c, r.d + t1, r.e, r.f, r.g⟩

/-- The registers after a block. -/
def Registers.absorb (r : Registers) (block : Window) : Registers :=
  let s := (roundConstants.foldl (fun (s : Registers × Window) k =>
    (s.1.round k s.2[0], s.2.next)) (r, block)).1
  ⟨r.a + s.a, r.b + s.b, r.c + s.c, r.d + s.d, r.e + s.e, r.f + s.f, r.g + s.g, r.h + s.h⟩

/-- The registers after all blocks of a list of words. -/
def Registers.absorbAll (r : Registers) (words : List UInt32) : Registers :=
  if _h : words = [] then r
  else
    (r.absorb (Vector.ofFn fun i : Fin 16 => words.getD i.val 0)).absorbAll (words.drop 16)
termination_by words.length
decreasing_by
  have : 0 < words.length := List.length_pos_iff.2 _h
  simp only [List.length_drop]
  omega

/-- A number as bytes, the highest first. -/
def bigEndian : Nat → Nat → List UInt8
  | 0, _ => []
  | count + 1, n => bigEndian count (n / 256) ++ [UInt8.ofNat (n % 256)]

/-- The message with its end mark, zeros up to a whole number of blocks, and its length in bits. -/
def pad (message : List UInt8) : List UInt8 :=
  let zeros := (119 - message.length % 64) % 64
  message ++ 0x80 :: (List.replicate zeros 0 ++ bigEndian 8 (8 * message.length))

/-- Bytes as words, four to a word and the highest first. -/
def words : List UInt8 → List UInt32
  | a :: b :: c :: d :: rest =>
    let word := (a.toUInt32 <<< 24) ||| (b.toUInt32 <<< 16) ||| (c.toUInt32 <<< 8) ||| d.toUInt32
    word :: words rest
  | _ => []

/-- A word as eight lower-case hexadecimal digits. -/
def wordHex (x : UInt32) : List Char :=
  (bigEndian 4 x.toNat).flatMap fun b =>
    [Nat.digitChar (b.toNat / 16), Nat.digitChar (b.toNat % 16)]

/-- The digest of a message as sixty-four lower-case hexadecimal digits. -/
def hexDigest (message : List UInt8) : String :=
  let r := Registers.initial.absorbAll (words (pad message))
  String.ofList ([r.a, r.b, r.c, r.d, r.e, r.f, r.g, r.h].flatMap wordHex)

end MetricLayer.Sha256
