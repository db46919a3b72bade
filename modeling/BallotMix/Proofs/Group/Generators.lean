import BallotMix.Group.Generators
import BallotMix.Proofs.Group.Exponents
import Mathlib

/-!
# Derived generators are members

A candidate is the square of a number read from the hash (`seedSquare`), and every square other than
zero lies in the group.  The search for element `i` stops at the first counter at which the square is
neither zero nor one (`derivedGenerator_eq_ok_iff`).  So what it stops at is a member other than one
(`derivedGenerator_returns`), whatever the hash.
-/

namespace BallotMix.Group

variable (G : Group)

/-- The square modulo `p` of the number that a seed is stretched to. -/
def seedSquare (seed : Bytes) : ℕ :=
  Bytes.toNat (expand (sha256 seed) (G.elementBytes + 16)) ^ 2 % G.p

/-- The counters at which the square for an index is neither zero nor one. -/
def usable (domain : Bytes) (index : UInt32) : Set ℕ :=
  {k | 1 < G.seedSquare (generatorSeed domain index (UInt32.ofNat k))}

variable [accepted : G.Accepted]

/-- The squares other than zero are members. -/
theorem isMember_sq {x : ZMod G.p} (hx : x ≠ 0) : G.isMember (some ((x ^ 2).val : ℤ)) = true := by
  have small := ZMod.val_lt (x ^ 2)
  have positive : 0 < (x ^ 2).val := (ZMod.val_pos).2 (pow_ne_zero 2 hx)
  have torsion : (x ^ 2) ^ G.q = 1 := by
    have order : G.p - 1 = 2 * G.q := by rw [G.modulus_eq, Nat.add_sub_cancel]
    rw [← pow_mul, ← order, ZMod.pow_card_sub_one_eq_one hx]
  refine G.isMember_some_iff.2 ⟨by omega, by omega, ?_⟩
  rwa [Int.cast_natCast, ZMod.natCast_zmod_val]

theorem exists_element_seedSquare {seed : Bytes} (above : 1 < G.seedSquare seed) :
    ∃ a ≠ 0, (G.seedSquare seed : ℤ) = G.element a := by
  have square : G.seedSquare seed =
      ((Bytes.toNat (expand (sha256 seed) (G.elementBytes + 16)) : ZMod G.p) ^ 2).val := by
    rw [← Nat.cast_pow, ZMod.val_natCast, seedSquare]
  have nonzero : (Bytes.toNat (expand (sha256 seed) (G.elementBytes + 16)) : ZMod G.p) ≠ 0 :=
    fun zero => by
      rw [square, zero, zero_pow two_ne_zero, ZMod.val_zero] at above
      omega
  obtain ⟨a, ha⟩ := G.exists_element (square ▸ G.isMember_sq nonzero)
  refine ⟨a, fun zero => ?_, ha⟩
  rw [zero, element_zero] at ha
  omega

theorem generatorCandidate_eq (seed : Bytes) :
    G.generatorCandidate seed = .ok (G.seedSquare seed : ℤ) := by
  have nonzero := accepted.prime_modulus.ne_zero
  rw [generatorCandidate, Modular.reduce, if_neg nonzero, Result.ok_bind, Modular.square,
    if_neg nonzero, ← Int.mul_emod, seedSquare, ← pow_two, Int.natCast_emod, Int.natCast_pow]

/-! ## The search -/

/-- The search stops at the first of its counters that is usable, and fails if none is. -/
theorem generatorFrom_eq_ok_iff {domain : Bytes} {index : UInt32} {tries n : ℕ} {h : ℤ} :
    G.generatorFrom domain index tries (UInt32.ofNat n) = .ok h ↔
      ∃ k, IsLeast (Set.Ico n (n + tries) ∩ G.usable domain index) k ∧
        h = G.seedSquare (generatorSeed domain index (UInt32.ofNat k)) := by
  induction tries generalizing n with
  | zero => simp [generatorFrom, IsLeast]
  | succ tries ih =>
    have next : UInt32.ofNat n + 1 = UInt32.ofNat (n + 1) := by simp
    rw [generatorFrom, generatorCandidate_eq, Result.ok_bind, next]
    by_cases good : n ∈ G.usable domain index
    · have first : IsLeast (Set.Ico n (n + (tries + 1)) ∩ G.usable domain index) n :=
        ⟨⟨⟨le_rfl, by omega⟩, good⟩, fun k hk => hk.1.1⟩
      have passed : 1 < G.seedSquare (generatorSeed domain index (UInt32.ofNat n)) := good
      rw [if_neg (by omega), Result.pure_eq_ok, Except.ok.injEq]
      constructor
      · rintro rfl
        exact ⟨n, first, rfl⟩
      · rintro ⟨k, least, rfl⟩
        rw [least.unique first]
    · have refused : ¬ 1 < G.seedSquare (generatorSeed domain index (UInt32.ofNat n)) := good
      have rest : Set.Ico n (n + (tries + 1)) ∩ G.usable domain index =
          Set.Ico (n + 1) (n + 1 + tries) ∩ G.usable domain index := by
        ext k
        simp only [Set.mem_inter_iff, Set.mem_Ico]
        refine and_congr_left fun hk => ?_
        have ne : n ≠ k := by
          rintro rfl
          exact good hk
        omega
      rw [if_pos (by omega), ih, rest]

/-- An element is the square at the least usable counter for its index. -/
theorem derivedGenerator_eq_ok_iff {domain : Bytes} {i : ℕ} {h : ℤ} :
    G.derivedGenerator domain i = .ok h ↔
      ∃ k, IsLeast (Set.Iio (2 ^ 32) ∩ G.usable domain (UInt32.ofNat i)) k ∧
        h = G.seedSquare (generatorSeed domain (UInt32.ofNat i) (UInt32.ofNat k)) := by
  have all : Set.Ico 0 (0 + UInt32.size) = Set.Iio (2 ^ 32) := by
    ext k
    simp [UInt32.size]
  rw [← all]
  exact G.generatorFrom_eq_ok_iff

/-- A derived generator is a member other than one. -/
theorem derivedGenerator_returns {domain : Bytes} {index : ℕ} {h : ℤ}
    (found : G.derivedGenerator domain index = .ok h) : ∃ a ≠ 0, h = G.element a := by
  obtain ⟨k, least, rfl⟩ := G.derivedGenerator_eq_ok_iff.1 found
  exact G.exists_element_seedSquare least.1.2

end BallotMix.Group
