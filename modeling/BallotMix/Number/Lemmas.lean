import BallotMix.Bytes.Lemmas
import BallotMix.Number.Modular
import BallotMix.Number.Sqrt
import Mathlib

/-!
# Sizes, powers and roots

What the sizes of a number, its powers modulo another and its integer square root are, in terms of
the powers of the natural numbers.
-/

namespace BallotMix

namespace Number

/-! ## Sizes -/

/-- A number has at most `k` binary digits exactly if it is below `2 ^ k`. -/
theorem bitLength_le_iff (n k : Nat) : bitLength n ≤ k ↔ n < 2 ^ k := by
  unfold bitLength
  split
  · next h =>
    subst h
    exact ⟨fun _ => Nat.two_pow_pos k, fun _ => Nat.zero_le k⟩
  · next h => rw [← Nat.log2_lt h]; omega

theorem lt_two_pow_bitLength (n : Nat) : n < 2 ^ bitLength n :=
  (bitLength_le_iff n _).1 (Nat.le_refl _)

/-- A number fits in `width` bytes exactly if it is below `256 ^ width`. -/
theorem byteLength_le_iff (n width : Nat) : byteLength n ≤ width ↔ n < 256 ^ width := by
  have h : (256 : Nat) ^ width = 2 ^ (8 * width) := by rw [Nat.pow_mul]
  rw [h, ← bitLength_le_iff, byteLength]
  omega

theorem toBytes_eq_ok_iff {x : Int} {width : Nat} {bytes : Bytes} :
    toBytes x width = .ok bytes ↔ x.natAbs < 256 ^ width ∧ bytes = Bytes.ofNat width x.natAbs := by
  unfold toBytes
  rw [← byteLength_le_iff]
  split
  · next fits => simp [fits, eq_comm]
  · next long => simp [long]

theorem toBytes_of_lt {x : Int} {width : Nat} (h : x.natAbs < 256 ^ width) :
    toBytes x width = .ok (Bytes.ofNat width x.natAbs) := toBytes_eq_ok_iff.2 ⟨h, rfl⟩

/-! ## Integer square roots -/

/-- Adding low digits keeps the root below and its successor above, if the digits could. -/
theorem rootDigits_spec (n digits root : Nat) (low : root * root ≤ n)
    (high : n < (root + 2 ^ digits) * (root + 2 ^ digits)) :
    rootDigits n digits root * rootDigits n digits root ≤ n ∧
      n < (rootDigits n digits root + 1) * (rootDigits n digits root + 1) := by
  induction digits generalizing root with
  | zero => exact ⟨low, high⟩
  | succ digits ih =>
    simp only [rootDigits, Nat.one_shiftLeft]
    split
    · next h =>
      refine ih _ h ?_
      rwa [Nat.add_assoc, ← Nat.two_mul, ← Nat.pow_succ']
    · next h => exact ih _ low (Nat.lt_of_not_le h)

/-- The integer square root is the largest number whose square is at most `n`. -/
theorem isqrt_spec (n : Nat) : isqrt n * isqrt n ≤ n ∧ n < (isqrt n + 1) * (isqrt n + 1) := by
  refine rootDigits_spec n _ 0 (by simp) ?_
  have h : n < 2 ^ (n.log2 + 1) := Nat.lt_log2_self
  have hle : 2 ^ (n.log2 + 1) ≤ 2 ^ ((n.log2 / 2 + 1) + (n.log2 / 2 + 1)) :=
    Nat.pow_le_pow_right (by decide) (by omega)
  rw [Nat.zero_add, ← Nat.pow_add]
  exact Nat.lt_of_lt_of_le h hle

end Number

namespace Modular

/-! ## Powers -/

theorem powBits_mod {m bits n : Nat} (h : n < 2 ^ bits) (acc a : Nat) :
    powBits m bits acc a n % m = acc * a ^ n % m := by
  induction bits generalizing acc a n with
  | zero =>
    obtain rfl : n = 0 := by simpa using h
    simp [powBits]
  | succ bits ih =>
    have half : n / 2 < 2 ^ bits := by rw [Nat.pow_succ] at h; omega
    have square : (a * a) ^ (n / 2) = a ^ (2 * (n / 2)) := by rw [Nat.pow_mul, Nat.pow_two]
    rw [powBits, ih half, Nat.mul_mod _ ((a * a % m) ^ (n / 2)), ← Nat.pow_mod, square,
      ← Nat.mul_mod]
    rcases Nat.mod_two_eq_zero_or_one n with even | odd
    · rw [if_neg (by omega), show 2 * (n / 2) = n by omega]
    · rw [if_pos odd, Nat.mod_mul_mod, Nat.mul_assoc, ← Nat.pow_succ',
        show (2 * (n / 2)).succ = n by omega]

/-- Squaring gives the power. -/
theorem powNat_eq {m : Nat} (hm : 0 < m) (a n : Nat) : powNat a n m = a ^ n % m := by
  rw [powNat, ← Nat.mod_eq_of_lt (powBits_lt hm (Number.bitLength n) (Nat.mod_lt 1 hm) a n),
    powBits_mod (Number.lt_two_pow_bitLength n), Nat.mod_mul_mod, Nat.one_mul]

end Modular

end BallotMix
