/-!
# Byte strings

Byte strings are lists of bytes.  Numbers are written into them most significant byte first:
`Bytes.ofNat width n` gives the `width` low bytes of `n`, and `Bytes.toNat` reads a string back.
Each of the two undoes the other (`toNat_ofNat`, `ofNat_toNat`), so fixed-width fields can be read
without ambiguity.
-/

namespace BallotMix

/-- A byte string. -/
abbrev Bytes := List UInt8

namespace Bytes

/-- The bytes of a text in UTF-8. -/
def ofText (text : String) : Bytes := text.toUTF8.data.toList

/-! ## Fixed-width numbers -/

/-- The `width` low bytes of `n`, least significant first. -/
def littleEndian : Nat → Nat → Bytes
  | 0, _ => []
  | width + 1, n => UInt8.ofNat n :: littleEndian width (n / 256)

/-- The `width` low bytes of `n`, most significant first. -/
def ofNat (width n : Nat) : Bytes := (littleEndian width n).reverse

/-- The number that a byte string writes, most significant byte first. -/
def toNat (bytes : Bytes) : Nat := bytes.foldl (fun n b => n * 256 + b.toNat) 0

@[simp]
theorem length_littleEndian (width n : Nat) : (littleEndian width n).length = width := by
  induction width generalizing n with
  | zero => rfl
  | succ width ih => simp [littleEndian, ih]

@[simp]
theorem length_ofNat (width n : Nat) : (ofNat width n).length = width := by
  simp [ofNat]

@[simp]
theorem toNat_nil : toNat [] = 0 := rfl

theorem toNat_concat (bytes : Bytes) (b : UInt8) :
    toNat (bytes ++ [b]) = toNat bytes * 256 + b.toNat := by
  simp [toNat]

/-- Writing a number at the width it was read from gives the same bytes. -/
theorem ofNat_toNat (bytes : Bytes) : ofNat bytes.length (toNat bytes) = bytes := by
  induction h : bytes.length generalizing bytes with
  | zero => simp [List.length_eq_zero_iff.1 h, ofNat, littleEndian]
  | succ n ih =>
    have hne : bytes ≠ [] := by rintro rfl; simp at h
    have hlen : bytes.dropLast.length = n := by simp [h]
    have hb := (bytes.getLast hne).toNat_lt
    have hrec := ih bytes.dropLast hlen
    have hdiv : (toNat bytes.dropLast * 256 + (bytes.getLast hne).toNat) / 256
        = toNat bytes.dropLast := by omega
    have hmod : UInt8.ofNat (toNat bytes.dropLast * 256 + (bytes.getLast hne).toNat)
        = bytes.getLast hne := by
      apply UInt8.toNat_inj.1
      simp only [UInt8.toNat_ofNat']
      omega
    conv => lhs; rw [← List.dropLast_concat_getLast hne, toNat_concat]
    rw [ofNat, littleEndian, List.reverse_cons, hdiv, hmod]
    conv => rhs; rw [← List.dropLast_concat_getLast hne, ← hrec]
    rfl

def ofUInt32 (w : UInt32) : Bytes := ofNat 4 w.toNat

def ofUInt64 (w : UInt64) : Bytes := ofNat 8 w.toNat

@[simp]
theorem length_ofUInt32 (w : UInt32) : (ofUInt32 w).length = 4 := length_ofNat 4 _

@[simp]
theorem length_ofUInt64 (w : UInt64) : (ofUInt64 w).length = 8 := length_ofNat 8 _

/-- The number of bytes, in a 32-bit word that starts over at `2 ^ 32`. -/
def length32 (bytes : Bytes) : UInt32 := UInt32.ofNat bytes.length

end Bytes

end BallotMix
