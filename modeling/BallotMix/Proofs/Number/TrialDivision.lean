import BallotMix.Number.Prime
import Mathlib

/-!
# Trial division

Trying the odd numbers up to the square root finds a divisor of every odd composite number, so below
`divisionBound` the test of primality is exact (`isPrime_iff_of_lt`).
-/

namespace BallotMix.Number

/-- The search passes exactly if no candidate up to the square root divides, if there is fuel to get
there. -/
theorem noDivisorFrom_iff {n fuel d : ℕ} (enough : n < (d + 2 * fuel) * (d + 2 * fuel)) :
    noDivisorFrom n fuel d = true ↔ ∀ k, (d + 2 * k) * (d + 2 * k) ≤ n → ¬ d + 2 * k ∣ n := by
  induction fuel generalizing d with
  | zero =>
    refine iff_of_true rfl fun k hk => ?_
    have : d * d ≤ (d + 2 * k) * (d + 2 * k) := Nat.mul_le_mul (by omega) (by omega)
    rw [Nat.mul_zero, Nat.add_zero] at enough
    omega
  | succ fuel ih =>
    rw [noDivisorFrom]
    split
    · next high =>
      refine iff_of_true rfl fun k hk => ?_
      have : d * d ≤ (d + 2 * k) * (d + 2 * k) := Nat.mul_le_mul (by omega) (by omega)
      omega
    · next low =>
      split
      · next divides =>
        refine iff_of_false (by simp) fun h => h 0 (by simpa using low) ?_
        simpa using Nat.dvd_of_mod_eq_zero divides
      · next rest =>
        rw [ih (by rwa [show d + 2 + 2 * fuel = d + 2 * (fuel + 1) by ring])]
        constructor
        · intro h k hk
          cases k with
          | zero => simpa [Nat.dvd_iff_mod_eq_zero] using rest
          | succ k =>
            rw [show d + 2 * (k + 1) = d + 2 + 2 * k by ring] at hk ⊢
            exact h k hk
        · intro h k hk
          rw [show d + 2 + 2 * k = d + 2 * (k + 1) by ring] at hk ⊢
          exact h (k + 1) hk

/-- An odd number has no divisor among the candidates exactly if it is prime. -/
theorem prime_iff_of_odd {n : ℕ} (hn : 1 < n) (odd : n % 2 = 1) :
    n.Prime ↔ ∀ k, (3 + 2 * k) * (3 + 2 * k) ≤ n → ¬ 3 + 2 * k ∣ n := by
  constructor
  · intro hp k hk hdvd
    rcases (Nat.dvd_prime hp).1 hdvd with h | h
    · omega
    · rw [h] at hk
      have := Nat.mul_le_mul_right n hn
      omega
  · intro h
    by_contra hp
    have hdvd := Nat.minFac_dvd n
    have hsq := Nat.minFac_sq_le_self (by omega) hp
    have hodd : n.minFac % 2 = 1 := by
      rcases Nat.mod_two_eq_zero_or_one n.minFac with h0 | h1
      · have := Nat.dvd_trans (Nat.dvd_of_mod_eq_zero h0) hdvd
        omega
      · exact h1
    have hne : n.minFac ≠ 1 := Nat.minFac_eq_one_iff.not.2 (by omega)
    have hform : 3 + 2 * ((n.minFac - 3) / 2) = n.minFac := by omega
    refine h ((n.minFac - 3) / 2) ?_ ?_
    · rwa [hform, ← Nat.pow_two]
    · rwa [hform]

theorem isPrimeByDivision_iff (n : ℕ) : isPrimeByDivision n = true ↔ n.Prime := by
  unfold isPrimeByDivision
  by_cases two : n = 2
  · simp [two, Nat.prime_two]
  · by_cases candidate : 1 < n ∧ n % 2 = 1
    · have search := noDivisorFrom_iff (show n < (3 + 2 * n) * (3 + 2 * n) by nlinarith)
      rw [prime_iff_of_odd candidate.1 candidate.2, ← search]
      simp [two, candidate]
    · refine iff_of_false (by simpa [two] using fun h h' => absurd ⟨h, h'⟩ candidate) fun hp => ?_
      exact candidate ⟨hp.one_lt, hp.eq_two_or_odd.resolve_left two⟩

/-- Below the bound of trial division the test of primality is exact. -/
theorem isPrime_iff_of_lt {x : ℤ} (h : x.toNat < divisionBound) :
    isPrime x = true ↔ x.toNat.Prime := by
  unfold isPrime
  dsimp only
  rw [if_pos h, isPrimeByDivision_iff]

end BallotMix.Number
