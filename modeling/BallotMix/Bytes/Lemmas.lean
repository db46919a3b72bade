import BallotMix.Bytes
import Mathlib

/-!
# Byte strings and their numbers

A byte string of length `n` writes a number below `256 ^ n`, and writing at width `n` keeps the
residue of a number modulo `256 ^ n`.  So words of 32 and of 64 bits are told apart by their bytes.
-/

namespace BallotMix.Bytes

/-- A byte string writes a number below the power of 256 of its length. -/
theorem toNat_lt (bytes : Bytes) : toNat bytes < 256 ^ bytes.length := by
  induction h : bytes.length generalizing bytes with
  | zero => simp [List.length_eq_zero_iff.1 h]
  | succ n ih =>
    have hne : bytes ≠ [] := by rintro rfl; simp at h
    have hlen : bytes.dropLast.length = n := by simp [h]
    have hb := (bytes.getLast hne).toNat_lt
    have := ih bytes.dropLast hlen
    rw [← List.dropLast_concat_getLast hne, toNat_concat, Nat.pow_succ]
    omega

theorem toNat_cons (b : UInt8) (bytes : Bytes) :
    toNat (b :: bytes) = b.toNat * 256 ^ bytes.length + toNat bytes := by
  induction bytes using List.reverseRecOn with
  | nil => simp [toNat]
  | append_singleton bytes c ih =>
    rw [← List.cons_append, toNat_concat, ih, toNat_concat, List.length_append, List.length_singleton,
      Nat.pow_succ, Nat.add_mul, Nat.mul_assoc, Nat.add_assoc]

theorem toNat_reverse_littleEndian (width n : Nat) :
    toNat (littleEndian width n).reverse = n % 256 ^ width := by
  induction width generalizing n with
  | zero => simp [littleEndian, Nat.mod_one]
  | succ width ih =>
    rw [littleEndian, List.reverse_cons, toNat_concat, ih, Nat.pow_succ', Nat.mod_mul]
    simp only [UInt8.toNat_ofNat']
    omega

/-- Reading back a number that fits gives the number. -/
theorem toNat_ofNat (width n : Nat) : toNat (ofNat width n) = n % 256 ^ width :=
  toNat_reverse_littleEndian width n

/-! ## Words -/

/-- Numbers that fit are told apart by what is written. -/
theorem eq_of_ofNat_eq {width n m : Nat} (hn : n < 256 ^ width) (hm : m < 256 ^ width)
    (same : ofNat width n = ofNat width m) : n = m := by
  have digits := congrArg toNat same
  rwa [toNat_ofNat, toNat_ofNat, Nat.mod_eq_of_lt hn, Nat.mod_eq_of_lt hm] at digits

theorem ofUInt32_injective : Function.Injective ofUInt32 := fun w w' same =>
  UInt32.toNat_inj.1 (eq_of_ofNat_eq w.toNat_lt w'.toNat_lt same)

theorem ofUInt64_injective : Function.Injective ofUInt64 := fun w w' same =>
  UInt64.toNat_inj.1 (eq_of_ofNat_eq w.toNat_lt w'.toNat_lt same)

/-- Below `2 ^ 32` the word for the number of bytes determines that number. -/
theorem length_eq_of_length32 {bytes bytes' : Bytes} (short : bytes.length < 2 ^ 32)
    (short' : bytes'.length < 2 ^ 32) (same : bytes.length32 = bytes'.length32) :
    bytes.length = bytes'.length := by
  have number := congrArg UInt32.toNat same
  rw [length32, length32, UInt32.toNat_ofNat', UInt32.toNat_ofNat'] at number
  omega

end BallotMix.Bytes
