import BallotMix.ElGamal.Encoding
import BallotMix.Proofs.ElGamal.Exponents
import Mathlib

/-!
# Decoding by exponents

The search of the exponential decoding finds the exponent of a member if it is at most the bound
(`decodeExponential_element`): the table gives the exponents below the step, and each round of the
search takes a step away from an exponent that is not among them.  This exponent is the least
logarithm of the member (`decodeExponential_exact`).
-/

namespace BallotMix.Group

/-- The exponents to which the generator gives a number modulo the modulus. -/
def Logarithms (G : Group) (y : ℤ) : Set ℕ := {n | G.g ^ n ≡ y [ZMOD G.p]}

variable (G : Group) [accepted : G.Accepted]

theorem two_pow_le_order : 2 ^ 30 ≤ G.q := by
  have long := G.two_pow_le_modulus
  have safe := G.modulus_eq
  omega

theorem val_natCast_of_lt {n : ℕ} (h : n < G.q) : ((n : ℕ) : ZMod G.q).val = n := by
  rw [ZMod.val_natCast, Nat.mod_eq_of_lt h]

/-! ## Exponential encoding -/

theorem encodeExponential_eq (value : UInt64) :
    G.encodeExponential value = .ok (G.element (value.toNat : ZMod G.q)) := by
  rw [encodeExponential, genPow_eq, Int.natAbs_natCast]

/-- The table gives the exponents below `n` of the members that have one, and nothing for others. -/
def Tabulates (table : Std.HashMap ℤ ℕ) (n : ℕ) : Prop :=
  ∀ a : ZMod G.q, table[G.element a]? = if a.val < n then some a.val else none

variable {G}

theorem Tabulates.empty : G.Tabulates ∅ 0 := by
  intro a
  rw [Std.HashMap.getElem?_empty, if_neg (Nat.not_lt_zero _)]

/-- A power whose exponent is the order or more is in the table with a smaller one. -/
theorem Tabulates.insert {table : Std.HashMap ℤ ℕ} {n : ℕ} (h : G.Tabulates table n) :
    G.Tabulates (table.insertIfNew (G.element (n : ZMod G.q)) n) (n + 1) := by
  intro a
  have present : G.element a ∈ table ↔ a.val < n := by
    rw [Std.HashMap.mem_iff_isSome_getElem?, h a]
    by_cases low : a.val < n
    · simp [low]
    · simp [low]
  rw [Std.HashMap.getElem?_insertIfNew, h a]
  by_cases low : a.val < n
  · rw [if_neg, if_pos low, if_pos (by omega)]
    rintro ⟨same, fresh⟩
    rw [beq_iff_eq] at same
    rw [same] at fresh
    exact fresh (present.2 low)
  · by_cases same : (n : ZMod G.q) = a
    · subst same
      have le : ((n : ZMod G.q)).val ≤ n := by
        rw [ZMod.val_natCast]
        exact Nat.mod_le n G.q
      have exact : ((n : ZMod G.q)).val = n := by omega
      rw [if_pos ⟨beq_self_eq_true _, fun old => low (present.1 old)⟩, if_pos (by omega), exact]
    · have above : ¬ a.val < n + 1 := by
        intro below
        have last : a.val = n := by omega
        exact same (by rw [← last, ZMod.natCast_zmod_val])
      rw [if_neg, if_neg low, if_neg above]
      rintro ⟨equal, -⟩
      exact same (G.element_injective (beq_iff_eq.1 equal))

theorem exists_tabulate {table : Std.HashMap ℤ ℕ} {j : ℕ} (count : ℕ)
    (h : G.Tabulates table j) : ∃ table', G.tabulate count j (G.element (j : ZMod G.q)) table
      = .ok table' ∧ G.Tabulates table' (j + count) := by
  induction count generalizing j table with
  | zero => exact ⟨table, rfl, h⟩
  | succ count ih =>
    obtain ⟨table', run, complete⟩ := ih h.insert
    refine ⟨table', ?_, by rwa [Nat.add_assoc, Nat.add_comm 1] at complete⟩
    have next : G.mul (G.element (j : ZMod G.q)) G.g
        = .ok (G.element ((j + 1 : ℕ) : ZMod G.q)) := by
      rw [generator_eq_element, mul_element, Nat.cast_add, Nat.cast_one]
    rw [tabulate, next]
    exact run

/-- After `passed` has been taken from the exponent `a`, the search goes on to `a` if the rounds
that are left reach it. -/
theorem meetTable_element {table : Std.HashMap ℤ ℕ} {step : ℕ} (h : G.Tabulates table step)
    (a : ZMod G.q) (rounds passed : ℕ) (le : passed ≤ a.val) :
    G.meetTable table step (G.element (-(step : ZMod G.q))) rounds passed
        (G.element (a - (passed : ZMod G.q)))
      = .ok (if a.val < passed + rounds * step then some a.val else none) := by
  induction rounds generalizing passed with
  | zero =>
    rw [meetTable, if_neg (by omega)]
    rfl
  | succ rounds ih =>
    have small := ZMod.val_lt a
    have rest : (a - (passed : ZMod G.q)).val = a.val - passed := by
      rw [ZMod.val_sub (by rw [G.val_natCast_of_lt (by omega)]; exact le),
        G.val_natCast_of_lt (by omega)]
    have total : (rounds + 1) * step = rounds * step + step := Nat.succ_mul rounds step
    rw [meetTable, h, rest]
    by_cases low : a.val - passed < step
    · rw [if_pos low, if_pos (by omega)]
      show Except.ok (some (passed + (a.val - passed))) = _
      rw [Nat.add_sub_cancel' le]
    · rw [if_neg low]
      have next : G.mul (G.element (a - (passed : ZMod G.q))) (G.element (-(step : ZMod G.q)))
          = .ok (G.element (a - ((passed + step : ℕ) : ZMod G.q))) := by
        rw [mul_element, Nat.cast_add]
        congr 2
        ring
      show G.mul _ _ >>= _ = _
      rw [next, Result.ok_bind, ih (passed + step) (by omega), Nat.add_assoc passed step,
        Nat.add_comm step, ← total]

variable (G)

/-- The exponential decoding gives the exponent of a member if it is at most the bound. -/
theorem decodeExponential_element (a : ZMod G.q) {bound : UInt64}
    (searchable : bound ≤ largestSearchBound) :
    G.decodeExponential (some (G.element a)) bound =
      if a.val ≤ bound.toNat then .ok (UInt64.ofNat a.val)
      else .error (.range (.plaintext bound)) := by
  let step := Number.isqrt bound.toNat + 1
  obtain ⟨table, run, complete⟩ := exists_tabulate (G := G) step Tabulates.empty
  rw [Nat.cast_zero, element_zero] at run
  rw [Nat.zero_add] at complete
  have met := meetTable_element complete a (step + 1) 0 (Nat.zero_le _)
  rw [Nat.cast_zero, sub_zero, Nat.zero_add] at met
  have factor : G.inv (G.element (step : ZMod G.q)) = .ok (G.element (-(step : ZMod G.q))) :=
    G.inv_element _
  have enough : bound.toNat < (step + 1) * step := by
    have square := (Number.isqrt_spec bound.toNat).2
    have more : (step + 1) * step = step * step + step := Nat.succ_mul step step
    change bound.toNat < step * step at square
    omega
  unfold decodeExponential
  rw [if_neg (UInt64.not_lt.2 searchable)]
  simp only [ensureMember_element, Result.ok_bind]
  rw [run, Result.ok_bind, genPow_eq, Int.natAbs_natCast, Result.ok_bind, factor, Result.ok_bind,
    met, Result.ok_bind]
  by_cases low : a.val ≤ bound.toNat
  · rw [if_pos (by omega), if_pos low]
    dsimp only
    rw [if_pos low]
    rfl
  · rw [if_neg low]
    by_cases reached : a.val < (step + 1) * step
    · rw [if_pos reached]
      dsimp only
      rw [if_neg low]
      rfl
    · rw [if_neg reached]
      rfl

theorem decodeExponential_encode {value bound : UInt64} (low : value ≤ bound)
    (searchable : bound ≤ largestSearchBound) (small : value.toNat < G.q) :
    G.decodeExponential (some (G.element (value.toNat : ZMod G.q))) bound = .ok value := by
  rw [G.decodeExponential_element _ searchable, G.val_natCast_of_lt small,
    if_pos (UInt64.le_iff_toNat_le.1 low), UInt64.ofNat_toNat]

/-! ## The logarithm -/

/-- Below the order lies the least logarithm of a member. -/
theorem isLeast_logarithms (a : ZMod G.q) : IsLeast (G.Logarithms (G.element a)) a.val := by
  have logarithm_iff (n : ℕ) : n ∈ G.Logarithms (G.element a) ↔ (n : ZMod G.q) = a := by
    show G.g ^ n ≡ G.element a [ZMOD G.p] ↔ _
    rw [← ZMod.intCast_eq_intCast_iff, Int.cast_pow, ← residue_natCast, cast_element,
      G.residue_injective.eq_iff]
  constructor
  · exact (logarithm_iff a.val).2 (ZMod.natCast_zmod_val a)
  · intro n hn
    rw [← (logarithm_iff n).1 hn, ZMod.val_natCast]
    exact Nat.mod_le n G.q

/-- Within a bound that is searched, decoding gives the least logarithm of a member, and it reports
that the plaintext is outside the bound if the least logarithm is above it.  What is encoded below the
order and within the bound is decoded again. -/
theorem decodeExponential_exact {bound : UInt64} (searchable : bound ≤ largestSearchBound) :
    (∀ y : ℤ, G.isMember (some y) = true → ∃ m, IsLeast (G.Logarithms y) m ∧
      (m ≤ bound.toNat → ∃ value : UInt64, value.toNat = m ∧
        G.decodeExponential (some y) bound = .ok value) ∧
      (bound.toNat < m → G.decodeExponential (some y) bound = .error (.range (.plaintext bound)))) ∧
    ∀ value : UInt64, value ≤ bound → value.toNat < G.q →
      (do G.decodeExponential (some (← G.encodeExponential value)) bound) = .ok value := by
  constructor
  · intro y member
    obtain ⟨a, rfl⟩ := G.exists_element member
    have decoded := G.decodeExponential_element a searchable
    refine ⟨a.val, G.isLeast_logarithms a, fun low => ?_, fun high => ?_⟩
    · have small := bound.toNat_lt
      refine ⟨UInt64.ofNat a.val, ?_, by rw [decoded, if_pos low]⟩
      rw [UInt64.toNat_ofNat', Nat.mod_eq_of_lt (by omega)]
    · rw [decoded, if_neg (not_le.2 high)]
  · intro value low small
    rw [encodeExponential_eq, Result.ok_bind, G.decodeExponential_encode low searchable small]

/-- In the least group, whose order is below the largest bound: the fifth power of the generator, with
that bound and with one that is too low, and the largest exponent. -/
theorem decodeExponential_exact_least :
    least.isMember (some 1024) = true ∧
      least.decodeExponential (some 1024) largestSearchBound = .ok 5 ∧
      least.decodeExponential (some 1024) 4 = .error (.range (.plaintext 4)) ∧
      (do least.decodeExponential (some (← least.encodeExponential 1073741890)) largestSearchBound)
        = .ok 1073741890 := by
  have member : least.isMember (some 1024) = true := by decide +kernel
  have five : IsLeast (least.Logarithms 1024) 5 := by
    constructor
    · show 4 ^ 5 ≡ 1024 [ZMOD 2147483783]
      decide
    · intro n hn
      change 4 ^ n ≡ 1024 [ZMOD 2147483783] at hn
      by_contra low
      interval_cases n <;> exact absurd hn (by decide)
  have searchable : (4 : UInt64) ≤ largestSearchBound := by decide
  obtain ⟨found, encoded⟩ := least.decodeExponential_exact (UInt64.le_refl largestSearchBound)
  obtain ⟨m, minimal, within, -⟩ := found 1024 member
  obtain rfl := minimal.unique five
  obtain ⟨value, hvalue, decoded⟩ := within (by decide)
  obtain rfl : value = 5 := UInt64.toNat_inj.1 hvalue
  obtain ⟨m, minimal, -, beyond⟩ := (least.decodeExponential_exact searchable).1 1024 member
  obtain rfl := minimal.unique five
  exact ⟨member, decoded, beyond (by decide), encoded 1073741890 (by decide) (by decide)⟩

end BallotMix.Group
