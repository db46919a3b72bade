import BallotMix.Proofs.ElGamal.Encoding
import BallotMix.Proofs.Group.Preset
import Mathlib

/-!
# Decoding by roots

A member has two roots, and exactly one of them lies in `[1, q]` (`existsUnique_lowRoot`).
Whichever of the two is found, the residue decoding goes on with the low one
(`decodeResidueBy_element`).  So decoding takes back every encoding, and every member is encoded
again from what it is decoded to, unless its low root is too large for the successor of a value
(`residues_exact`).
-/

namespace BallotMix.Group

/-- The roots of a number in `[1, q]`. -/
def LowRoot (G : Group) (y : ℤ) (b : ℕ) : Prop := 0 < b ∧ b ≤ G.q ∧ (b : ℤ) ^ 2 ≡ y [ZMOD G.p]

/-- The residue decoding with a given way to find roots. -/
def decodeResidueBy (G : Group) (sqrt : ℤ → ℕ → Result ℤ) (element : Option ℤ) :
    Result UInt64 := do
  let element ← G.ensureMember "encoded plaintext" element
  let root ← sqrt element G.p
  let root ← if G.q < root then Modular.sub G.p root G.p else pure root
  Number.toWord (root - 1)

/-- Of every member, one of the two roots is found. -/
def FindsRoots (G : Group) (sqrt : ℤ → ℕ → Result ℤ) : Prop :=
  ∀ y, G.isMember (some y) = true →
    ∃ r, sqrt y G.p = .ok r ∧ 0 ≤ r ∧ r < G.p ∧ r ^ 2 ≡ y [ZMOD G.p]

/-- The other root than the one that is found. -/
def otherRoot (sqrt : ℤ → ℕ → Result ℤ) (x : ℤ) (m : ℕ) : Result ℤ := do
  let root ← sqrt x m
  pure (m - root)

/-- A decoding takes back the residue encoding, and is taken back by it where the low root is the
successor of a value. -/
structure InvertsResidues (G : Group) (decode : Option ℤ → Result UInt64) : Prop where
  decode_encode : ∀ value : UInt64, value.toNat + 1 ≤ G.q → ∃ y, G.encodeResidue value = .ok y ∧
    G.isMember (some y) = true ∧ decode (some y) = .ok value
  existsUnique : ∀ y, G.isMember (some y) = true → ∃! b, G.LowRoot y b
  encode_decode : ∀ y b, G.isMember (some y) = true → G.LowRoot y b → b ≤ 2 ^ 64 →
    ∃ value : UInt64, value.toNat + 1 = b ∧ decode (some y) = .ok value ∧
      G.encodeResidue value = .ok y
  tooLarge : ∀ y b, G.isMember (some y) = true → G.LowRoot y b → 2 ^ 64 < b →
    decode (some y) = .error (.range .word)

variable (G : Group) [accepted : G.Accepted]

theorem sq_modEq_element_iff {a : ZMod G.q} {x : ℤ} :
    x ^ 2 ≡ G.element a [ZMOD G.p] ↔ (x : ZMod G.p) ^ 2 = G.residue a := by
  rw [← ZMod.intCast_eq_intCast_iff, Int.cast_pow, cast_element]

/-! ## Finding roots -/

theorem modulus_mod_four : G.p % 4 = 3 := by
  have long := G.two_pow_le_order
  have odd := accepted.prime_order.eq_two_or_odd.resolve_left (by omega)
  have safe := G.modulus_eq
  omega

theorem sq_rootThreeModFour (a : ZMod G.q) :
    (Modular.rootThreeModFour (G.residue a).val G.p : ZMod G.p) ^ 2 = G.residue a := by
  have four := G.modulus_mod_four
  have safe := G.modulus_eq
  have torsion : G.residue a ^ G.q = 1 := by
    rw [← residue_mul_natCast, ZMod.natCast_self, mul_zero, residue_zero]
  rw [Modular.rootThreeModFour, Modular.powNat_eq accepted.prime_modulus.pos, ZMod.natCast_mod,
    Nat.cast_pow, ZMod.natCast_zmod_val, ← pow_mul, show (G.p / 4 + 1) * 2 = G.q + 1 by omega,
    pow_succ, torsion, one_mul]

/-- The rule for the modulus finds a root of every member. -/
theorem findsRoots_sqrt : G.FindsRoots Modular.sqrt := by
  intro y member
  obtain ⟨a, rfl⟩ := G.exists_element member
  have four := G.modulus_mod_four
  have large := accepted.prime_modulus.one_lt
  obtain ⟨positive, small⟩ := G.element_bounds a
  unfold Modular.sqrt
  rw [if_neg (by omega), if_neg (by omega)]
  by_cases unit : G.element a = 0 ∨ G.element a = 1
  · have one : G.element a = 1 := unit.resolve_left positive.ne'
    refine ⟨1, by rw [if_pos unit, one], by omega, by omega, ?_⟩
    rw [one, one_pow]
  · have reduced : (G.element a % (G.p : ℤ)).toNat = (G.residue a).val := by
      rw [Int.emod_eq_of_lt positive.le small, element, Int.toNat_natCast]
    have square := G.sq_rootThreeModFour a
    let root := Modular.rootThreeModFour (G.residue a).val G.p
    have candidate : Modular.rootCandidate (G.residue a).val G.p = some root := if_pos four
    have checked : root * root % G.p = (G.residue a).val := by
      rw [← ZMod.val_natCast, Nat.cast_mul, ← pow_two, square]
    have bounded : root < G.p :=
      Modular.powBits_lt accepted.prime_modulus.pos _ (Nat.mod_lt 1 (by omega)) _ _
    refine ⟨root, ?_, by omega, by omega, ?_⟩
    · rw [if_neg unit, reduced]
      dsimp only
      rw [candidate]
      dsimp only
      rw [if_pos checked]
    · rw [sq_modEq_element_iff, Int.cast_natCast]
      exact square

/-- With one root of every member the other is found. -/
theorem findsRoots_otherRoot {sqrt : ℤ → ℕ → Result ℤ} (finds : G.FindsRoots sqrt) :
    G.FindsRoots (otherRoot sqrt) := by
  intro y member
  obtain ⟨r, found, nonneg, small, square⟩ := finds y member
  obtain ⟨a, rfl⟩ := G.exists_element member
  rw [sq_modEq_element_iff] at square
  have positive : 0 < r := by
    refine lt_of_le_of_ne nonneg fun zero => G.residue_ne_zero a ?_
    rw [← square, ← zero, Int.cast_zero, zero_pow two_ne_zero]
  refine ⟨G.p - r, by rw [otherRoot, found]; rfl, by omega, by omega, ?_⟩
  rw [sq_modEq_element_iff, ← square, Int.cast_sub, Int.cast_natCast, ZMod.natCast_self, zero_sub,
    neg_sq]

/-! ## Low roots -/

variable {G}

theorem lowRoot_element_iff {a : ZMod G.q} {b : ℕ} :
    G.LowRoot (G.element a) b ↔ 0 < b ∧ b ≤ G.q ∧ (b : ZMod G.p) ^ 2 = G.residue a := by
  rw [LowRoot, sq_modEq_element_iff, Int.cast_natCast]

/-- The square of a number in `[1, q]` is a member. -/
theorem exists_lowRoot_element {b : ℕ} (positive : 0 < b) (le : b ≤ G.q) :
    ∃ a, G.LowRoot (G.element a) b := by
  have safe := G.modulus_eq
  have nonzero : (b : ZMod G.p) ≠ 0 := by
    rw [Ne, ZMod.natCast_eq_zero_iff]
    exact Nat.not_dvd_of_pos_of_lt positive (by omega)
  have torsion : ((b : ZMod G.p) ^ 2) ^ G.q = 1 := by
    rw [← pow_mul, show 2 * G.q = G.p - 1 by omega]
    exact ZMod.pow_card_sub_one_eq_one nonzero
  obtain ⟨i, -, hi⟩ := G.isPrimitiveRoot_generator.eq_pow_of_pow_eq_one torsion
  exact ⟨i, lowRoot_element_iff.2 ⟨positive, le, by rw [residue_natCast, hi]⟩⟩

/-- A number in `[1, q]` is given by its square: its negative is above `q`. -/
theorem LowRoot.unique {y : ℤ} {b b' : ℕ} (h : G.LowRoot y b) (h' : G.LowRoot y b') : b = b' := by
  obtain ⟨positive, le, root⟩ := h
  obtain ⟨positive', le', root'⟩ := h'
  have safe := G.modulus_eq
  have squares : (b : ZMod G.p) ^ 2 = (b' : ZMod G.p) ^ 2 := by
    have same := (ZMod.intCast_eq_intCast_iff _ _ _).2 (root.trans root'.symm)
    simpa only [Int.cast_pow, Int.cast_natCast] using same
  rcases sq_eq_sq_iff_eq_or_eq_neg.1 squares with same | opposite
  · rw [ZMod.natCast_eq_natCast_iff', Nat.mod_eq_of_lt (by omega), Nat.mod_eq_of_lt (by omega)]
      at same
    exact same
  · have zero : ((b + b' : ℕ) : ZMod G.p) = 0 := by
      rw [Nat.cast_add, opposite, neg_add_cancel]
    rw [ZMod.natCast_eq_zero_iff] at zero
    exact absurd zero (Nat.not_dvd_of_pos_of_lt (by omega) (by omega))

variable (G)

/-- A root that is above the order is exchanged for its negative, which is the low root. -/
theorem exists_lowRoot_of_root {a : ZMod G.q} {r : ℤ} (nonneg : 0 ≤ r) (small : r < G.p)
    (square : r ^ 2 ≡ G.element a [ZMOD G.p]) :
    ∃ b : ℕ, G.LowRoot (G.element a) b ∧
      if G.q < r then Modular.sub G.p r G.p = .ok (b : ℤ) else r = b := by
  obtain ⟨n, rfl⟩ := Int.eq_ofNat_of_zero_le nonneg
  rw [sq_modEq_element_iff, Int.cast_natCast] at square
  have safe := G.modulus_eq
  by_cases high : (G.q : ℤ) < n
  · refine ⟨G.p - n, lowRoot_element_iff.2 ⟨by omega, by omega, ?_⟩, ?_⟩
    · rw [Nat.cast_sub (by omega), ZMod.natCast_self, zero_sub, neg_sq, square]
    · rw [if_pos high, Modular.sub, if_neg accepted.prime_modulus.ne_zero,
        Int.emod_eq_of_lt (by omega) (by omega), Nat.cast_sub (by omega)]
  · have positive : 0 < n := by
      refine Nat.pos_of_ne_zero fun zero => G.residue_ne_zero a ?_
      rw [← square, zero, Nat.cast_zero, zero_pow two_ne_zero]
    refine ⟨n, lowRoot_element_iff.2 ⟨positive, by omega, square⟩, ?_⟩
    rw [if_neg high]

theorem existsUnique_lowRoot {y : ℤ} (member : G.isMember (some y) = true) :
    ∃! b, G.LowRoot y b := by
  obtain ⟨r, -, nonneg, small, square⟩ := G.findsRoots_sqrt y member
  obtain ⟨a, rfl⟩ := G.exists_element member
  obtain ⟨b, low, -⟩ := G.exists_lowRoot_of_root nonneg small square
  exact ⟨b, low, fun b' low' => low'.unique low⟩

/-! ## Encoding and decoding -/

theorem encodeResidue_eq {value : UInt64} {a : ZMod G.q}
    (low : G.LowRoot (G.element a) (value.toNat + 1)) :
    G.encodeResidue value = .ok (G.element a) := by
  obtain ⟨-, le, root⟩ := lowRoot_element_iff.1 low
  have square : (((value.toNat : ℤ) + 1) * ((value.toNat : ℤ) + 1)) % G.p = G.element a := by
    refine G.emod_eq_element ?_
    rw [← root]
    push_cast
    ring
  rw [encodeResidue, if_neg (by omega), Modular.square, if_neg accepted.prime_modulus.ne_zero]
  push_cast
  rw [square]

/-- Whichever root is found, the residue decoding gives the predecessor of the low root. -/
theorem decodeResidueBy_element {sqrt : ℤ → ℕ → Result ℤ} (finds : G.FindsRoots sqrt)
    {a : ZMod G.q} {b : ℕ} (low : G.LowRoot (G.element a) b) :
    G.decodeResidueBy sqrt (some (G.element a)) = Number.toWord ((b : ℤ) - 1) := by
  obtain ⟨r, found, nonneg, small, square⟩ := finds _ (G.isMember_element a)
  obtain ⟨b', low', chosen⟩ := G.exists_lowRoot_of_root nonneg small square
  obtain rfl : b = b' := low.unique low'
  unfold decodeResidueBy
  rw [ensureMember_element, Result.ok_bind, found, Result.ok_bind]
  by_cases high : G.q < r
  · rw [if_pos high] at chosen ⊢
    rw [chosen, Result.ok_bind]
  · rw [if_neg high] at chosen ⊢
    rw [Result.pure_eq_ok, Result.ok_bind, chosen]

theorem toWord_pred {b : ℕ} (positive : 0 < b) :
    Number.toWord ((b : ℤ) - 1) =
      if b ≤ 2 ^ 64 then .ok (UInt64.ofNat (b - 1)) else .error (.range .word) := by
  have magnitude : ((b : ℤ) - 1).natAbs = b - 1 := by omega
  have fits : Number.bitLength (b - 1) ≤ 64 ↔ b ≤ 2 ^ 64 := by
    rw [Number.bitLength_le_iff]
    omega
  simp only [Number.toWord, magnitude, fits]

theorem exists_encode_decodeBy {sqrt : ℤ → ℕ → Result ℤ} (finds : G.FindsRoots sqrt)
    {value : UInt64} (small : value.toNat < G.q) :
    ∃ a, G.encodeResidue value = .ok (G.element a) ∧
      G.decodeResidueBy sqrt (some (G.element a)) = .ok value := by
  obtain ⟨a, low⟩ := exists_lowRoot_element (Nat.succ_pos value.toNat) small
  refine ⟨a, G.encodeResidue_eq low, ?_⟩
  rw [G.decodeResidueBy_element finds low, toWord_pred (Nat.succ_pos _),
    if_pos (show value.toNat + 1 ≤ 2 ^ 64 from value.toNat_lt)]
  exact congrArg Except.ok UInt64.ofNat_toNat

theorem exists_encodeResidue {value : UInt64} (small : value.toNat < G.q) :
    ∃ a, G.encodeResidue value = .ok (G.element a) ∧
      G.decodeResidue (some (G.element a)) = .ok value :=
  G.exists_encode_decodeBy G.findsRoots_sqrt small

theorem invertsResidues_decodeResidueBy {sqrt : ℤ → ℕ → Result ℤ} (finds : G.FindsRoots sqrt) :
    G.InvertsResidues (G.decodeResidueBy sqrt) where
  decode_encode := by
    intro value small
    obtain ⟨a, encoded, decoded⟩ := G.exists_encode_decodeBy finds small
    exact ⟨G.element a, encoded, G.isMember_element a, decoded⟩
  existsUnique := fun _ => G.existsUnique_lowRoot
  encode_decode := by
    intro y b member low room
    obtain ⟨a, rfl⟩ := G.exists_element member
    have positive := low.1
    have value : (UInt64.ofNat (b - 1)).toNat + 1 = b := by
      rw [UInt64.toNat_ofNat', Nat.mod_eq_of_lt (by omega)]
      omega
    refine ⟨UInt64.ofNat (b - 1), value, ?_, G.encodeResidue_eq (by rwa [value])⟩
    rw [G.decodeResidueBy_element finds low, toWord_pred positive, if_pos room]
  tooLarge := by
    intro y b member low high
    obtain ⟨a, rfl⟩ := G.exists_element member
    rw [G.decodeResidueBy_element finds low, toWord_pred low.1, if_neg (not_le.2 high)]

/-- A value is refused exactly if its successor is above the order.  All others are encoded as
members and decoded again.  A member has one root in `[1, q]`: if this root is at most `2 ^ 64`, the
member is decoded to the value that it encodes, and otherwise it is reported that the value does not
fit.  All this does not depend on which of its two roots is found. -/
theorem residues_exact :
    (∀ value : UInt64,
      G.encodeResidue value = .error (.range .residueValue) ↔ G.q < value.toNat + 1) ∧
    G.InvertsResidues G.decodeResidue ∧
    ∀ sqrt, G.FindsRoots sqrt → G.InvertsResidues (G.decodeResidueBy sqrt) := by
  refine ⟨fun value => ?_, G.invertsResidues_decodeResidueBy G.findsRoots_sqrt,
    fun sqrt => G.invertsResidues_decodeResidueBy⟩
  constructor
  · intro refused
    by_contra small
    obtain ⟨a, encoded, -⟩ := G.exists_encodeResidue (not_lt.1 small)
    rw [encoded] at refused
    cases refused
  · intro large
    rw [encodeResidue, if_pos large]

/-! ## A group with roots that are too large -/

/-- The group of a modulus of 66 binary digits, whose order is a little above `2 ^ 64`. -/
def wide : Group := ⟨36893488147419154523, 18446744073709577261, 4⟩

set_option maxRecDepth 100000 in
theorem ofSafePrime_wide : ofSafePrime 36893488147419154523 4 = .ok wide := by decide +kernel

theorem prime_wide_order : Nat.Prime 18446744073709577261 := by
  have primes : ∀ r ∈ [2, 2, 5, 67, 67, 97, 2287, 6287, 147319], Nat.Prime r := by norm_num
  exact Number.prime_of_passesLucas (a := 2) (by norm_num) primes (by decide +kernel)

theorem prime_wide_modulus : Nat.Prime 36893488147419154523 := by
  have primes : ∀ r ∈ [2, 18446744073709577261], Nat.Prime r := by
    simpa using ⟨Nat.prime_two, prime_wide_order⟩
  exact Number.prime_of_passesLucas (a := 2) (by norm_num) primes (by decide +kernel)

instance : wide.Accepted := ⟨⟨_, _, ofSafePrime_wide⟩, prime_wide_modulus, prime_wide_order⟩

/-- The largest value, there and back by either root; the member of the next root, whose value would
be `2 ^ 64`; and a value that the least group refuses. -/
theorem residues_exact_wide :
    wide.encodeResidue 18446744073709551615 = .ok 9223372037512480301 ∧
      wide.decodeResidue (some 9223372037512480301) = .ok 18446744073709551615 ∧
      wide.FindsRoots (otherRoot Modular.sqrt) ∧
      wide.decodeResidueBy (otherRoot Modular.sqrt) (some 9223372037512480301)
        = .ok 18446744073709551615 ∧
      wide.isMember (some 9223372037512429011) = true ∧
      wide.LowRoot 9223372037512429011 18446744073709551617 ∧
      wide.decodeResidue (some 9223372037512429011) = .error (.range .word) ∧
      least.encodeResidue 1073741891 = .error (.range .residueValue) := by
  have encoded : wide.encodeResidue 18446744073709551615 = .ok 9223372037512480301 := by
    decide +kernel
  have finds := wide.findsRoots_otherRoot wide.findsRoots_sqrt
  have member : wide.isMember (some 9223372037512429011) = true := by decide +kernel
  have low : wide.LowRoot 9223372037512429011 18446744073709551617 := by
    refine ⟨by decide, by decide, ?_⟩
    show (18446744073709551617 : ℤ) ^ 2 % 36893488147419154523 = _ % 36893488147419154523
    norm_num
  obtain ⟨-, inverts, invertsBy⟩ := wide.residues_exact
  obtain ⟨y, hy, -, decoded⟩ := inverts.decode_encode 18446744073709551615 (by decide)
  obtain ⟨y', hy', -, decoded'⟩ := (invertsBy _ finds).decode_encode 18446744073709551615
    (by decide)
  obtain rfl := Except.ok.inj (hy.symm.trans encoded)
  obtain rfl := Except.ok.inj (hy'.symm.trans encoded)
  exact ⟨encoded, decoded, finds, decoded', member, low,
    inverts.tooLarge _ _ member low (by decide),
    (least.residues_exact.1 1073741891).2 (by decide)⟩

end BallotMix.Group
