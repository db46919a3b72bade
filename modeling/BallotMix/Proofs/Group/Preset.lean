import BallotMix.Group.Preset
import BallotMix.Proofs.Group.Accepted
import Mathlib

/-!
# Parameter sets

A parameter set that loads was built by the checked construction (`built_of_preset`), so that it is
accepted if its two numbers are prime.  Those of the set `sm` are above the bound of trial division.
Lucas's test proves them prime, from the prime factors of the number before each.
-/

namespace BallotMix

/-! ## Lucas's test -/

namespace Number

/-- The factors multiply to `n - 1`, and the order of `a` modulo `n` is that number if they are
prime. -/
def PassesLucas (n a : ℕ) (factors : List ℕ) : Prop :=
  factors.prod = n - 1 ∧ Modular.powNat a (n - 1) n = 1 ∧
    ∀ r ∈ factors, Modular.powNat a ((n - 1) / r) n ≠ 1

instance (n a : ℕ) (factors : List ℕ) : Decidable (PassesLucas n a factors) :=
  inferInstanceAs (Decidable (_ ∧ _ ∧ _))

theorem prime_of_passesLucas {n a : ℕ} {factors : List ℕ} (hn : 1 < n)
    (primes : ∀ r ∈ factors, r.Prime) (h : PassesLucas n a factors) : n.Prime := by
  obtain ⟨product, full, parts⟩ := h
  have power (e : ℕ) : (a : ZMod n) ^ e = 1 ↔ Modular.powNat a e n = 1 := by
    rw [Modular.powNat_eq (by omega), ← Nat.cast_pow, ← Nat.cast_one,
      ZMod.natCast_eq_natCast_iff', Nat.mod_eq_of_lt hn]
  refine lucas_primality n (a : ZMod n) ((power _).2 full) fun r hr divides => ?_
  rw [← product] at divides
  obtain ⟨factor, listed, divides⟩ := (Prime.dvd_prod_iff hr.prime).1 divides
  obtain rfl := (Nat.prime_dvd_prime_iff_eq hr (primes factor listed)).1 divides
  exact fun one => parts r listed ((power _).1 one)

end Number

/-! ## Loading -/

namespace Group

theorem built_of_preset {name : String} {G : Group} (h : preset name = .ok G) :
    ∃ p g, ofSafePrime p g = .ok G := by
  unfold preset at h
  dsimp only at h
  split at h
  · cases h
  · obtain ⟨p, -, built⟩ := Result.bind_eq_ok_iff.1 h
    exact ⟨p, presetGenerator, built⟩

/-- The group of the parameter set `sm`. -/
def small : Group := ⟨202178360940839, 101089180470419, 4⟩

set_option maxRecDepth 100000 in
theorem preset_small : preset "sm" = .ok small := by decide +kernel

theorem prime_small_order : Nat.Prime 101089180470419 := by
  have primes : ∀ r ∈ [2, 7, 37, 414259, 471089], Nat.Prime r := by norm_num
  exact Number.prime_of_passesLucas (a := 2) (by norm_num) primes (by decide +kernel)

theorem prime_small_modulus : Nat.Prime 202178360940839 := by
  have primes : ∀ r ∈ [2, 101089180470419], Nat.Prime r := by
    simpa using ⟨Nat.prime_two, prime_small_order⟩
  exact Number.prime_of_passesLucas (a := 17) (by norm_num) primes (by decide +kernel)

instance : small.Accepted := ⟨built_of_preset preset_small, prime_small_modulus, prime_small_order⟩

end Group

end BallotMix
