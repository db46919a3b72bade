import BallotMix.Bytes

/-!
# SHA-256

`sha256` hashes a byte string to 32 bytes.  The message is padded to whole blocks of 64 bytes; each
block is spread over a schedule of 64 words, which 64 rounds mix into the eight working words.
Everything else in the library uses of it only that a digest has 32 bytes (`length_sha256`).
-/

namespace BallotMix

namespace Sha256

/-- The eight working words. -/
structure Words where
  a : UInt32
  b : UInt32
  c : UInt32
  d : UInt32
  e : UInt32
  f : UInt32
  g : UInt32
  h : UInt32

def initial : Words where
  a := 0x6a09e667
  b := 0xbb67ae85
  c := 0x3c6ef372
  d := 0xa54ff53a
  e := 0x510e527f
  f := 0x9b05688c
  g := 0x1f83d9ab
  h := 0x5be0cd19

/-- The constants added in the 64 rounds. -/
def roundConstants : List UInt32 := [
  0x428a2f98, 0x71374491, 0xb5c0fbcf, 0xe9b5dba5, 0x3956c25b, 0x59f111f1, 0x923f82a4, 0xab1c5ed5,
  0xd807aa98, 0x12835b01, 0x243185be, 0x550c7dc3, 0x72be5d74, 0x80deb1fe, 0x9bdc06a7, 0xc19bf174,
  0xe49b69c1, 0xefbe4786, 0x0fc19dc6, 0x240ca1cc, 0x2de92c6f, 0x4a7484aa, 0x5cb0a9dc, 0x76f988da,
  0x983e5152, 0xa831c66d, 0xb00327c8, 0xbf597fc7, 0xc6e00bf3, 0xd5a79147, 0x06ca6351, 0x14292967,
  0x27b70a85, 0x2e1b2138, 0x4d2c6dfc, 0x53380d13, 0x650a7354, 0x766a0abb, 0x81c2c92e, 0x92722c85,
  0xa2bfe8a1, 0xa81a664b, 0xc24b8b70, 0xc76c51a3, 0xd192e819, 0xd6990624, 0xf40e3585, 0x106aa070,
  0x19a4c116, 0x1e376c08, 0x2748774c, 0x34b0bcb5, 0x391c0cb3, 0x4ed8aa4a, 0x5b9cca4f, 0x682e6ff3,
  0x748f82ee, 0x78a5636f, 0x84c87814, 0x8cc70208, 0x90befffa, 0xa4506ceb, 0xbef9a3f7, 0xc67178f2]

/-- The bits of `w` turned right by `n` places. -/
def rotate (w n : UInt32) : UInt32 := (w >>> n) ||| (w <<< (32 - n))

/-! ## The schedule -/

/-- The sixteen words of a block of 64 bytes. -/
def blockWords : Nat → Bytes → List UInt32
  | 0, _ => []
  | n + 1, block => UInt32.ofNat (Bytes.toNat (block.take 4)) :: blockWords n (block.drop 4)

/-- The next word of a schedule that is held newest word first. -/
def nextWord (newestFirst : List UInt32) : UInt32 :=
  let x := newestFirst.getD 14 0
  let y := newestFirst.getD 1 0
  newestFirst.getD 15 0 + (rotate x 7 ^^^ rotate x 18 ^^^ (x >>> 3)) +
    newestFirst.getD 6 0 + (rotate y 17 ^^^ rotate y 19 ^^^ (y >>> 10))

/-- A schedule with `n` more words. -/
def extend : Nat → List UInt32 → List UInt32
  | 0, newestFirst => newestFirst
  | n + 1, newestFirst => extend n (nextWord newestFirst :: newestFirst)

def schedule (block : Bytes) : List UInt32 := (extend 48 (blockWords 16 block).reverse).reverse

/-! ## Rounds and blocks -/

def round (v : Words) (constant word : UInt32) : Words :=
  let t₁ := v.h + (rotate v.e 6 ^^^ rotate v.e 11 ^^^ rotate v.e 25) +
    ((v.e &&& v.f) ^^^ (~~~v.e &&& v.g)) + constant + word
  let t₂ := (rotate v.a 2 ^^^ rotate v.a 13 ^^^ rotate v.a 22) +
    ((v.a &&& v.b) ^^^ (v.a &&& v.c) ^^^ (v.b &&& v.c))
  ⟨t₁ + t₂, v.a, v.b, v.c, v.d + t₁, v.e, v.f, v.g⟩

def rounds : List UInt32 → List UInt32 → Words → Words
  | constant :: constants, word :: words, v => rounds constants words (round v constant word)
  | _, _, v => v

/-- Mixes one block into the words. -/
def compress (v : Words) (block : Bytes) : Words :=
  let r := rounds roundConstants (schedule block) v
  ⟨v.a + r.a, v.b + r.b, v.c + r.c, v.d + r.d, v.e + r.e, v.f + r.f, v.g + r.g, v.h + r.h⟩

/-- Mixes `n` blocks of 64 bytes into the words. -/
def compressAll : Nat → Bytes → Words → Words
  | 0, _, v => v
  | n + 1, message, v => compressAll n (message.drop 64) (compress v (message.take 64))

/-- The message, a one bit, zeros up to eight bytes before a block's end, and the length in bits. -/
def pad (message : Bytes) : Bytes :=
  message ++ [0x80] ++ List.replicate ((119 - message.length % 64) % 64) 0 ++
    Bytes.ofUInt64 (UInt64.ofNat (8 * message.length))

def digest (v : Words) : Bytes :=
  [v.a, v.b, v.c, v.d, v.e, v.f, v.g, v.h].flatMap Bytes.ofUInt32

end Sha256

def sha256 (message : Bytes) : Bytes :=
  let padded := Sha256.pad message
  Sha256.digest (Sha256.compressAll (padded.length / 64) padded Sha256.initial)

theorem length_sha256 (message : Bytes) : (sha256 message).length = 32 := by
  simp [sha256, Sha256.digest]

end BallotMix
