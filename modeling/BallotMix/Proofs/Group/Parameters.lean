import BallotMix.Proofs.Group.Generators
import Mathlib

/-!
# What the check of parameters guarantees

Where the test of primality tells the truth about the two numbers it is asked about, a group is
built exactly from a safe prime that is long enough and a generator of its squares
(`ofSafePrime_exact`).  In such a group the members are the squares other than zero, by Euler's
criterion, and the powers of the generator, each at exactly one exponent below the order.
-/

namespace BallotMix.Group

/-! ## The tests that are made -/

/-- The generator of a safe prime passes the test of membership and is not one. -/
theorem passes_generator_iff {p g : ℤ} (hp : 1 < p) :
    isMember ⟨p.toNat, ((p - 1) / 2).toNat, g⟩ (some g) = true ∧ g ≠ 1 ↔
      1 < g ∧ g < p ∧ g ^ ((p - 1) / 2).toNat ≡ 1 [ZMOD p] := by
  have modulus : ((p.toNat : ℕ) : ℤ) = p := Int.toNat_of_nonneg (by omega)
  have member := isMember_some_iff_modEq (G := ⟨p.toNat, ((p - 1) / 2).toNat, g⟩) (x := g)
    (by dsimp only; omega)
  rw [member, modulus]
  constructor
  · rintro ⟨⟨positive, small, power⟩, ne⟩
    exact ⟨by omega, small, power⟩
  · rintro ⟨large, small, power⟩
    exact ⟨⟨by omega, small, power⟩, by omega⟩

theorem exists_ofSafePrime_iff {p g : ℤ} (modulus : Number.isPrime p = true ↔ p.toNat.Prime)
    (order : Number.isPrime ((p - 1) / 2) = true ↔ ((p - 1) / 2).toNat.Prime) :
    (∃ G, ofSafePrime p g = .ok G) ↔
      2 ^ 31 ≤ p ∧ p.toNat.Prime ∧ ((p - 1) / 2).toNat.Prime ∧ 1 < g ∧ g < p ∧
        g ^ ((p - 1) / 2).toNat ≡ 1 [ZMOD p] := by
  -- The test is made on the order as a natural number, which is the half only above one.
  have halved (hp : 1 < p) : ((((p - 1) / 2).toNat : ℕ) : ℤ) = (p - 1) / 2 :=
    Int.toNat_of_nonneg (by omega)
  simp only [ofSafePrime_eq_ok_iff, minimumBits_le_iff]
  constructor
  · rintro ⟨G, rfl, long, prime, safe, generates⟩
    have hp : 1 < p := by
      have := (modulus.1 prime).one_lt
      omega
    rw [halved hp] at safe
    exact ⟨by omega, modulus.1 prime, order.1 safe, (passes_generator_iff hp).1 generates⟩
  · rintro ⟨long, prime, safe, generates⟩
    have hp : 1 < p := by omega
    refine ⟨_, rfl, by omega, modulus.2 prime, ?_, (passes_generator_iff hp).2 generates⟩
    rw [halved hp]
    exact order.2 safe

/-- A group that is built is accepted where the test of primality was right. -/
theorem accepted_of_exact {p g : ℤ} {G : Group} (built : ofSafePrime p g = .ok G)
    (modulus : Number.isPrime p = true ↔ p.toNat.Prime)
    (order : Number.isPrime ((p - 1) / 2) = true ↔ ((p - 1) / 2).toNat.Prime) : G.Accepted := by
  obtain ⟨rfl, -⟩ := ofSafePrime_eq_ok_iff.1 built
  obtain ⟨-, prime, safe, -⟩ := (exists_ofSafePrime_iff modulus order).1 ⟨_, built⟩
  exact { built := ⟨p, g, built⟩, prime_modulus := prime, prime_order := safe }

/-! ## What the members are -/

variable (G : Group) [accepted : G.Accepted]

theorem isMember_iff_isSquare {y : ℤ} :
    G.isMember (some y) = true ↔ 0 < y ∧ y < G.p ∧ IsSquare (y : ZMod G.p) := by
  have half : G.p / 2 = G.q := by
    rw [G.modulus_eq]
    omega
  rw [isMember_some_iff]
  refine and_congr_right fun positive => and_congr_right fun small => ?_
  have nonzero : (y : ZMod G.p) ≠ 0 := fun zero => by
    rw [← Int.cast_zero] at zero
    exact positive.ne' (G.eq_of_cast_eq ⟨positive.le, small⟩ (by omega) zero)
  rw [ZMod.euler_criterion G.p nonzero, half]

/-- A residue is a square if it is one of an integer. -/
theorem isSquare_cast_iff {y : ℤ} :
    IsSquare (y : ZMod G.p) ↔ ∃ z : ℤ, y ≡ z ^ 2 [ZMOD G.p] := by
  constructor
  · rintro ⟨r, hr⟩
    obtain ⟨z, rfl⟩ := ZMod.intCast_surjective r
    exact ⟨z, (ZMod.intCast_eq_intCast_iff _ _ _).1 (by rw [hr, Int.cast_pow, pow_two])⟩
  · rintro ⟨z, hz⟩
    exact ⟨z, by rw [(ZMod.intCast_eq_intCast_iff _ _ _).2 hz, Int.cast_pow, pow_two]⟩

theorem element_natCast (k : ℕ) : G.element k = G.g ^ k % G.p :=
  (G.emod_eq_element (by rw [Int.cast_pow, residue_natCast])).symm

/-- A member is the power of the generator to one exponent below the order. -/
theorem isMember_iff_existsUnique {y : ℤ} :
    G.isMember (some y) = true ↔ ∃! k : ℕ, k < G.q ∧ y = G.g ^ k % G.p := by
  constructor
  · intro member
    obtain ⟨a, rfl⟩ := G.exists_element member
    refine ⟨a.val, ⟨ZMod.val_lt a, ?_⟩, fun k ⟨small, hk⟩ => ?_⟩
    · rw [← element_natCast, ZMod.natCast_zmod_val]
    · rw [← element_natCast, element_inj] at hk
      rw [hk, ZMod.val_cast_of_lt small]
  · rintro ⟨k, ⟨-, rfl⟩, -⟩
    rw [← element_natCast]
    exact G.isMember_element k

/-! ## The guarantee -/

/-- Where the test of primality is exact, the check passes exactly the safe primes of at least 32
binary digits with a generator, and the group it returns has the nonzero squares as its members,
each a power of the generator to exactly one exponent below the order. -/
theorem ofSafePrime_exact {p g : ℤ} (modulus : Number.isPrime p = true ↔ p.toNat.Prime)
    (order : Number.isPrime ((p - 1) / 2) = true ↔ ((p - 1) / 2).toNat.Prime) :
    ((∃ G, ofSafePrime p g = .ok G) ↔
      2 ^ 31 ≤ p ∧ p.toNat.Prime ∧ ((p - 1) / 2).toNat.Prime ∧ 1 < g ∧ g < p ∧
        g ^ ((p - 1) / 2).toNat ≡ 1 [ZMOD p]) ∧
    ∀ G, ofSafePrime p g = .ok G →
      ((G.p : ℤ) = p ∧ (G.q : ℤ) = (p - 1) / 2 ∧ G.g = g) ∧ ∀ y : ℤ,
        (G.isMember (some y) = true ↔ 0 < y ∧ y < p ∧ ∃ z : ℤ, y ≡ z ^ 2 [ZMOD p]) ∧
        (G.isMember (some y) = true ↔ ∃! k : ℕ, k < G.q ∧ y = g ^ k % p) := by
  refine ⟨exists_ofSafePrime_iff modulus order, fun G built => ?_⟩
  have accepted := accepted_of_exact built modulus order
  obtain ⟨hG, -⟩ := ofSafePrime_eq_ok_iff.1 built
  have hp : (G.p : ℤ) = p := by
    have := accepted.prime_modulus.pos
    rw [hG] at this ⊢
    exact Int.toNat_of_nonneg (by dsimp only at this; omega)
  have hq : (G.q : ℤ) = (p - 1) / 2 := by
    have := G.modulus_eq
    omega
  have hg : G.g = g := by rw [hG]
  refine ⟨⟨hp, hq, hg⟩, fun y => ⟨?_, ?_⟩⟩
  · rw [isMember_iff_isSquare, isSquare_cast_iff, hp]
  · rw [isMember_iff_existsUnique, hp, hg]

/-- With the least modulus, two is found to be a square and the power of four to exactly one
exponent below the order, and minus four is refused as a generator. -/
theorem ofSafePrime_exact_least :
    (Number.isPrime 2147483783 = true ↔ (2147483783 : ℤ).toNat.Prime) ∧
      (Number.isPrime ((2147483783 - 1) / 2) = true ↔
        (((2147483783 : ℤ) - 1) / 2).toNat.Prime) ∧
      (¬ ∃ G, ofSafePrime 2147483783 (-4) = .ok G) ∧
      (∃ z : ℤ, 2 ≡ z ^ 2 [ZMOD 2147483783]) ∧
      ∃! k : ℕ, k < 1073741891 ∧ (2 : ℤ) = 4 ^ k % 2147483783 := by
  have modulus : Number.isPrime 2147483783 = true ↔ (2147483783 : ℤ).toNat.Prime :=
    Number.isPrime_iff_of_lt (by decide)
  have order : Number.isPrime ((2147483783 - 1) / 2) = true ↔
      (((2147483783 : ℤ) - 1) / 2).toNat.Prime := Number.isPrime_iff_of_lt (by decide)
  have refused := (ofSafePrime_exact (g := -4) modulus order).1.not.2 fun passed => by
    have := passed.2.2.2.1
    omega
  have member : least.isMember (some 2) = true := by decide +kernel
  have guaranteed := (ofSafePrime_exact modulus order).2 least ofSafePrime_least
  exact ⟨modulus, order, refused, ((guaranteed.2 2).1.1 member).2.2, (guaranteed.2 2).2.1 member⟩

end BallotMix.Group
