import BallotMix.Group.Basic
import BallotMix.Number.Lemmas
import BallotMix.Proofs.Computation
import BallotMix.Proofs.Number.Inverse
import BallotMix.Proofs.Number.TrialDivision
import Mathlib

/-!
# Accepted groups

A group is `Accepted` if the checked construction returned it and the two numbers that passed the
test of primality are prime; for a modulus below `Number.divisionBound` this follows from the
construction alone (`accepted_of_lt`).  The modulus is then `2 q + 1`, and the operations on elements
never fail but for the inverse of zero.
-/

namespace BallotMix.Group

/-! ## Acceptance -/

theorem minimumBits_le_iff {n : ℕ} : minimumBits ≤ Number.bitLength n ↔ 2 ^ 31 ≤ n := by
  have short := Number.bitLength_le_iff n 31
  rw [minimumBits]
  omega

theorem ofSafePrime_eq_ok_iff {p g : ℤ} {G : Group} :
    ofSafePrime p g = .ok G ↔
      G = ⟨p.toNat, ((p - 1) / 2).toNat, g⟩ ∧ minimumBits ≤ Number.bitLength p.natAbs ∧
        Number.isPrime p = true ∧ Number.isPrime G.q = true ∧ G.isMember (some g) = true ∧
          g ≠ 1 := by
  unfold ofSafePrime
  dsimp only
  simp only [Result.ite_error_eq_ok_iff, Except.ok.injEq, Bool.not_eq_true', Bool.or_eq_true,
    decide_eq_true_eq, not_or, Bool.not_eq_false, not_lt]
  constructor
  · rintro ⟨long, prime, safe, ⟨member, ne⟩, rfl⟩
    exact ⟨rfl, long, prime, safe, member, ne⟩
  · rintro ⟨rfl, long, prime, safe, member, ne⟩
    exact ⟨long, prime, safe, ⟨member, ne⟩, rfl⟩

/-- The group was built by the checked construction, and its test of primality told the truth about
the modulus and the order. -/
class Accepted (G : Group) : Prop where
  built : ∃ p g, ofSafePrime p g = .ok G
  prime_modulus : G.p.Prime
  prime_order : G.q.Prime

/-- Below the bound of trial division the test of primality needs no trust. -/
theorem accepted_of_lt {p g : ℤ} {G : Group} (h : ofSafePrime p g = .ok G)
    (small : G.p < Number.divisionBound) : G.Accepted := by
  obtain ⟨rfl, -, prime, safe, -⟩ := ofSafePrime_eq_ok_iff.1 h
  have hq : ((p - 1) / 2).toNat ≤ p.toNat := by omega
  exact {
    built := ⟨p, g, h⟩
    prime_modulus := (Number.isPrime_iff_of_lt small).1 prime
    prime_order := (Number.isPrime_iff_of_lt (lt_of_le_of_lt hq small)).1 safe }

/-- Membership, for any modulus that has residues. -/
theorem isMember_some_iff_modEq {G : Group} (hp : 1 < G.p) {x : ℤ} :
    G.isMember (some x) = true ↔ 0 < x ∧ x < G.p ∧ x ^ G.q ≡ 1 [ZMOD G.p] := by
  simp only [isMember, Bool.and_eq_true, decide_eq_true_eq, and_assoc,
    Modular.powNat_eq (Nat.zero_lt_of_lt hp)]
  refine and_congr_right fun positive => and_congr_right fun _ => ?_
  obtain ⟨n, rfl⟩ := Int.eq_ofNat_of_zero_le positive.le
  rw [Int.toNat_natCast, ← Nat.cast_pow, ← Nat.cast_one (R := ℤ), Int.natCast_modEq_iff,
    Nat.ModEq, Nat.mod_eq_of_lt hp]

/-- The group of the least modulus that is long enough. -/
def least : Group := ⟨2147483783, 1073741891, 4⟩

set_option maxRecDepth 100000 in
theorem ofSafePrime_least : ofSafePrime 2147483783 4 = .ok least := by
  have prime : Number.isPrime 2147483783 = true := by decide +kernel
  have safe : Number.isPrime 1073741891 = true := by decide +kernel
  exact ofSafePrime_eq_ok_iff.2 ⟨rfl, by decide, prime, safe, by decide +kernel, by decide⟩

instance : least.Accepted := accepted_of_lt ofSafePrime_least (by decide)

variable (G : Group) [accepted : G.Accepted]

instance : Fact G.p.Prime := ⟨accepted.prime_modulus⟩

instance : Fact G.q.Prime := ⟨accepted.prime_order⟩

theorem isMember_generator : G.isMember (some G.g) = true := by
  obtain ⟨p, g, h⟩ := accepted.built
  obtain ⟨rfl, -, -, -, member, -⟩ := ofSafePrime_eq_ok_iff.1 h
  exact member

theorem generator_ne_one : G.g ≠ 1 := by
  obtain ⟨p, g, h⟩ := accepted.built
  obtain ⟨rfl, -, -, -, -, ne⟩ := ofSafePrime_eq_ok_iff.1 h
  exact ne

theorem two_pow_le_modulus : 2 ^ 31 ≤ G.p := by
  obtain ⟨p, g, h⟩ := accepted.built
  obtain ⟨rfl, long, -⟩ := ofSafePrime_eq_ok_iff.1 h
  have positive : 0 < p.toNat := accepted.prime_modulus.pos
  have := minimumBits_le_iff.1 long
  show 2 ^ 31 ≤ p.toNat
  omega

theorem modulus_eq : G.p = 2 * G.q + 1 := by
  have odd : G.p % 2 = 1 := by
    have := G.two_pow_le_modulus
    exact accepted.prime_modulus.eq_two_or_odd.resolve_left (by omega)
  obtain ⟨p, g, h⟩ := accepted.built
  obtain ⟨rfl, -⟩ := ofSafePrime_eq_ok_iff.1 h
  dsimp only at odd ⊢
  omega

/-! ## Residues -/

/-- Integers between zero and the modulus are told apart by their residues. -/
theorem eq_of_cast_eq {x y : ℤ} (hx : 0 ≤ x ∧ x < G.p) (hy : 0 ≤ y ∧ y < G.p)
    (h : (x : ZMod G.p) = y) : x = y := by
  rw [ZMod.intCast_eq_intCast_iff', Int.emod_eq_of_lt hx.1 hx.2, Int.emod_eq_of_lt hy.1 hy.2] at h
  exact h

theorem mul_eq (x y : ℤ) : G.mul x y = .ok (((x : ZMod G.p) * y).val : ℕ) := by
  rw [mul, Modular.mul, if_neg accepted.prime_modulus.ne_zero, ← Int.cast_mul, ZMod.val_intCast]

theorem pow_eq (x e : ℤ) : G.pow x e = .ok (((x : ZMod G.p) ^ e.natAbs).val : ℕ) := by
  have nonzero := accepted.prime_modulus.ne_zero
  rw [pow, Modular.pow, if_neg (fun h => nonzero h.1), Modular.powNat_eq accepted.prime_modulus.pos]
  congr 2
  rw [← ZMod.val_natCast, Nat.cast_pow]
  congr 2
  rw [← Int.cast_natCast, Modular.cast_toNat_emod accepted.prime_modulus.one_lt]

theorem inv_eq {x : ℤ} (hx : (x : ZMod G.p) ≠ 0) :
    G.inv x = .ok ((x : ZMod G.p)⁻¹.val : ℕ) :=
  Modular.inverse_of_isUnit accepted.prime_modulus.one_lt (isUnit_iff_ne_zero.2 hx)

theorem isMember_some_iff {x : ℤ} :
    G.isMember (some x) = true ↔ 0 < x ∧ x < G.p ∧ (x : ZMod G.p) ^ G.q = 1 := by
  rw [isMember_some_iff_modEq accepted.prime_modulus.one_lt, ← ZMod.intCast_eq_intCast_iff,
    Int.cast_pow, Int.cast_one]

end BallotMix.Group
