import BallotMix.Number.Modular
import Mathlib

/-!
# Inverses modulo a number

Euclid's algorithm ends with the greatest common divisor (`euclid_fst`), and with a multiple of the
number that is congruent to it (`euclid_congr`).  So `Modular.inverse` finds the inverse of every
unit (`inverse_of_isUnit`) and fails on all other numbers (`inverse_of_not_isUnit`).
-/

namespace BallotMix.Modular

/-- The last remainder is the greatest common divisor, if there is fuel for all remainders. -/
theorem euclid_fst {fuel : ℕ} {last next : ℕ × ℤ} (enough : next.1 < fuel) :
    (euclid fuel last next).1 = Nat.gcd last.1 next.1 := by
  induction fuel generalizing last next with
  | zero => omega
  | succ fuel ih =>
    rw [euclid]
    split
    · next h => rw [h, Nat.gcd_zero_right]
    · next h =>
      have smaller : last.1 % next.1 < next.1 := Nat.mod_lt _ (Nat.pos_of_ne_zero h)
      rw [ih (by dsimp only; omega)]
      dsimp only
      rw [Nat.gcd_comm next.1, ← Nat.gcd_rec, Nat.gcd_comm]

theorem euclid_fst_residue (x : ℤ) (m : ℕ) :
    (euclid ((x % m).toNat + 1) (m, 0) ((x % m).toNat, 1)).1 = Nat.gcd m (x % m).toNat :=
  euclid_fst (Nat.lt_add_one _)

/-- A remainder stays congruent to its multiple of `x`. -/
theorem euclid_congr {x : ℤ} {m fuel : ℕ} {last next : ℕ × ℤ}
    (hlast : ((last.1 : ℤ) : ZMod m) = last.2 * x) (hnext : ((next.1 : ℤ) : ZMod m) = next.2 * x) :
    (((euclid fuel last next).1 : ℤ) : ZMod m) = (euclid fuel last next).2 * x := by
  induction fuel generalizing last next with
  | zero => exact hlast
  | succ fuel ih =>
    rw [euclid]
    split
    · exact hlast
    · refine ih hnext ?_
      have division : ((last.1 % next.1 : ℕ) : ℤ) = last.1 - (last.1 / next.1 : ℕ) * next.1 := by
        have h := Nat.div_add_mod last.1 next.1
        rw [eq_sub_iff_add_eq, ← Nat.cast_mul, ← Nat.cast_add, Nat.mul_comm, Nat.add_comm, h]
      dsimp only
      rw [division]
      push_cast at hlast hnext ⊢
      rw [hlast, hnext]
      ring

theorem cast_toNat_emod {x : ℤ} {m : ℕ} (hm : 1 < m) : (((x % m).toNat : ℤ) : ZMod m) = x := by
  rw [Int.toNat_of_nonneg (Int.emod_nonneg x (by omega)), ZMod.intCast_mod]

theorem gcd_toNat_emod_eq_one_iff {x : ℤ} {m : ℕ} (hm : 1 < m) :
    Nat.gcd m (x % m).toNat = 1 ↔ IsUnit (x : ZMod m) := by
  rw [← cast_toNat_emod hm, Int.cast_natCast, ZMod.isUnit_iff_coprime, Nat.coprime_comm]

/-- A unit has the inverse that is found. -/
theorem inverse_of_isUnit {x : ℤ} {m : ℕ} (hm : 1 < m) (hx : IsUnit (x : ZMod m)) :
    inverse x m = .ok ((x : ZMod m)⁻¹.val : ℕ) := by
  have hgcd := (gcd_toNat_emod_eq_one_iff hm).2 hx
  have hcongr := @euclid_congr x m ((x % m).toNat + 1) (m, 0) ((x % m).toNat, 1) (by simp)
    (by rw [cast_toNat_emod hm]; simp)
  rw [euclid_fst_residue, hgcd, Nat.cast_one, Int.cast_one] at hcongr
  have hinv : (((euclid ((x % m).toNat + 1) (m, 0) ((x % m).toNat, 1)).2 : ℤ) : ZMod m)
      = (x : ZMod m)⁻¹ :=
    hx.mul_right_cancel (by rw [ZMod.inv_mul_of_unit _ hx, ← hcongr])
  have : NeZero m := ⟨by omega⟩
  unfold inverse
  dsimp only
  rw [if_neg (by rw [euclid_fst_residue, hgcd]; omega), ← hinv, ZMod.val_intCast]

/-- Numbers that are no units have no inverse. -/
theorem inverse_of_not_isUnit {x : ℤ} {m : ℕ} (hx : m ≤ 1 ∨ ¬ IsUnit (x : ZMod m)) :
    inverse x m = .error (.arithmetic .inverse) := by
  unfold inverse
  dsimp only
  rw [if_pos]
  by_cases hm : m ≤ 1
  · exact Or.inl hm
  · right
    rw [euclid_fst_residue]
    exact fun h => hx.resolve_left hm ((gcd_toNat_emod_eq_one_iff (by omega)).1 h)

end BallotMix.Modular
