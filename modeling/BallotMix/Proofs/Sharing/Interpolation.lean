import BallotMix.Proofs.Sharing.Polynomial
import BallotMix.Sharing.Combination
import Mathlib

/-!
# Interpolation at zero

At places that are distinct modulo the order the coefficients of the code are the values at zero of
the Lagrange basis (`lagrangeCoefficient_eq`).  So powers of one member to the values of a polynomial
of small degree combine to its power to the value at zero (`openWith_eq`), however many of them
there are.  A place that is congruent to another has no coefficient, and then nothing is interpolated
(`openWith_eq_error`).
-/

namespace BallotMix.Sharing

open Polynomial

/-- The exponent of a place. -/
def place (q : ℕ) (i : UInt64) : ZMod q := (i.toNat : ZMod q)

theorem val_place {q : ℕ} {i : UInt64} (low : i.toNat < q) : (place q i).val = i.toNat :=
  ZMod.val_cast_of_lt low

/-- Below the order places are told apart. -/
theorem eq_of_place_eq {q : ℕ} {i j : UInt64} (low : i.toNat < q) (low' : j.toNat < q)
    (same : place q i = place q j) : i = j := by
  rw [← UInt64.toNat_inj, ← val_place low, ← val_place low', same]

/-- The coefficient of a place among others: the product of `j / (j - i)`. -/
def lagrangeLog (q : ℕ) (indices : List UInt64) (i : UInt64) : ZMod q :=
  let others := (indices.filter fun j => j ≠ i).map (place q)
  others.prod * ((others.map fun j => j - place q i).prod)⁻¹

section

variable {q : ℕ} [Fact q.Prime] {indices : List UInt64}

/-- The coefficient is the value at zero of a Lagrange basis polynomial. -/
theorem lagrangeLog_eq_eval (nodup : indices.Nodup) (i : UInt64) :
    lagrangeLog q indices i = (Lagrange.basis indices.toFinset (place q) i).eval 0 := by
  have erase : (indices.filter fun j => j ≠ i).toFinset = indices.toFinset.erase i := by
    ext j
    simp [and_comm]
  have others : (indices.filter fun j => j ≠ i).Nodup := nodup.filter _
  rw [Lagrange.basis, eval_prod, ← erase, List.prod_toFinset _ others, lagrangeLog,
    List.prod_inv, List.map_map, List.map_map, ← List.prod_map_mul]
  congr 2
  funext j
  simp only [Function.comp_apply, Lagrange.basisDivisor, eval_mul, eval_C, eval_sub, eval_X,
    zero_sub]
  rw [← neg_sub (place q j) (place q i), inv_neg]
  ring

/-- A polynomial of small degree is interpolated at zero. -/
theorem sum_lagrangeLog (nodup : indices.Nodup) (inj : Set.InjOn (place q) {i | i ∈ indices})
    {f : (ZMod q)[X]} (small : f.degree < indices.length) :
    (indices.map fun i => f.eval (place q i) * lagrangeLog q indices i).sum = f.eval 0 := by
  have finite : Set.InjOn (place q) indices.toFinset := by rwa [List.coe_toFinset]
  have card : indices.toFinset.card = indices.length := List.toFinset_card_of_nodup nodup
  have interpolated := Lagrange.eq_interpolate finite (by rwa [card])
  conv_rhs => rw [interpolated]
  rw [Lagrange.interpolate_apply, eval_finsetSum, ← List.sum_toFinset _ nodup]
  refine Finset.sum_congr rfl fun i _ => ?_
  rw [eval_mul, eval_C, lagrangeLog_eq_eval nodup]

end

variable (G : Group) [accepted : G.Accepted] {indices : List UInt64}

/-! ## Coefficients -/

theorem canInterpolate_eq_true_iff {i : UInt64} :
    canInterpolate indices i = true ↔ indices.Nodup ∧ 0 ∉ indices ∧ i ∈ indices := by
  simp [canInterpolate, and_assoc]

theorem foldlM_differences (i : UInt64) (others : List UInt64) :
    (others.map fun j => (j.toNat : ℤ)).foldlM
        (fun product j => do G.scalarMul product (← G.scalarSub j i.toNat)) 1
      = .ok (G.scalar ((others.map (place G.q)).map fun j => j - place G.q i).prod) := by
  have step : ∀ b : ZMod G.q, ∀ j ∈ others,
      (do G.scalarMul (G.scalar b) (← G.scalarSub j.toNat i.toNat))
        = .ok (G.scalar (b * (place G.q j - place G.q i))) := by
    intro b j _
    rw [G.scalarSub_eq, Result.ok_bind, G.scalarMul_eq, G.cast_scalar, G.cast_scalar]
    simp [place]
  rw [← G.scalar_one, List.foldlM_map, Result.foldlM_prod step, one_mul, List.map_map]
  rfl

/-- The differences between a place and others are units exactly if none of the others is congruent to
it. -/
theorem isUnit_differences_iff (i : UInt64) (others : List UInt64) :
    IsUnit ((G.scalar ((others.map (place G.q)).map fun j => j - place G.q i).prod : ℤ) : ZMod G.q)
      ↔ ∀ j ∈ others, place G.q j ≠ place G.q i := by
  rw [G.cast_scalar, isUnit_iff_ne_zero, Ne, List.prod_eq_zero_iff]
  simp [sub_eq_zero]

/-- At distinct places other than zero a coefficient is computed up to the inverse of the
differences. -/
theorem lagrangeCoefficient_eq_bind {i : UInt64} (nodup : indices.Nodup) (nonzero : 0 ∉ indices)
    (hi : i ∈ indices) :
    lagrangeCoefficient G indices i = (do
      let others := (indices.filter fun j => j ≠ i).map (place G.q)
      let inverse ← Modular.inverse (G.scalar (others.map fun j => j - place G.q i).prod) G.q
      G.scalarMul (G.scalar others.prod) inverse) := by
  have numerator : ((indices.filter fun j => j ≠ i).map fun j => (j.toNat : ℤ)).foldlM
      G.scalarMul 1 = .ok (G.scalar ((indices.filter fun j => j ≠ i).map (place G.q)).prod) := by
    have product := G.scalarProd_eq ((indices.filter fun j => j ≠ i).map fun j => (j.toNat : ℤ))
    rw [List.map_map] at product
    simp only [Function.comp_def, Int.cast_natCast] at product
    exact product
  have denominator := foldlM_differences G i (indices.filter fun j => j ≠ i)
  rw [lagrangeCoefficient, canInterpolate_eq_true_iff.2 ⟨nodup, nonzero, hi⟩]
  simp only [Bool.not_true, Bool.false_eq_true, if_false, numerator, Result.ok_bind, denominator]

/-- A place to which no other is congruent has its coefficient. -/
theorem lagrangeCoefficient_eq {i : UInt64} (nodup : indices.Nodup) (nonzero : 0 ∉ indices)
    (hi : i ∈ indices) (apart : ∀ j ∈ indices, place G.q j = place G.q i → j = i) :
    lagrangeCoefficient G indices i = .ok (G.scalar (lagrangeLog G.q indices i)) := by
  have unit := (isUnit_differences_iff G i (indices.filter fun j => j ≠ i)).2 fun j hj same => by
    simp only [List.mem_filter, decide_eq_true_eq] at hj
    exact hj.2 (apart j hj.1 same)
  rw [lagrangeCoefficient_eq_bind G nodup nonzero hi]
  dsimp only
  rw [Modular.inverse_of_isUnit accepted.prime_order.one_lt unit, Result.ok_bind, G.scalarMul_eq,
    Int.cast_natCast, ZMod.natCast_zmod_val, G.cast_scalar, G.cast_scalar, lagrangeLog]

/-- Two places that are congruent have no coefficients. -/
theorem lagrangeCoefficient_eq_error {i j : UInt64} (nodup : indices.Nodup) (nonzero : 0 ∉ indices)
    (hi : i ∈ indices) (hj : j ∈ indices) (ne : j ≠ i) (same : place G.q j = place G.q i) :
    lagrangeCoefficient G indices i = .error (.arithmetic .inverse) := by
  have notUnit : ¬ _ := mt (isUnit_differences_iff G i (indices.filter fun j => j ≠ i)).1
    fun apart => apart j (by simp [hj, ne]) same
  rw [lagrangeCoefficient_eq_bind G nodup nonzero hi]
  dsimp only
  rw [Modular.inverse_of_not_isUnit (Or.inr notUnit), Result.error_bind]

/-! ## Opening -/

/-- Powers at places that differ modulo the order are interpolated. -/
theorem interpolateInExponent_eq (nodup : indices.Nodup) (nonzero : 0 ∉ indices)
    (inj : Set.InjOn (place G.q) {i | i ∈ indices}) (vs : List (ZMod G.q)) :
    interpolateInExponent G indices (vs.map G.element) = .ok (G.element
      ((indices.zip vs).map fun e => e.2 * lagrangeLog G.q indices e.1).sum) := by
  have step : ∀ b, ∀ e ∈ indices.zip vs, (do
      let coefficient ← lagrangeCoefficient G indices e.1
      G.mul (G.element b) (← G.pow (G.element e.2) coefficient))
        = .ok (G.element (b + e.2 * lagrangeLog G.q indices e.1)) := by
    intro b e he
    have hi : e.1 ∈ indices := (List.of_mem_zip he).1
    rw [lagrangeCoefficient_eq G nodup nonzero hi fun j hj same => inj hj hi same, Result.ok_bind,
      G.pow_element_scalar, Result.ok_bind, G.mul_element]
  rw [interpolateInExponent, List.zip_map_right, ← G.element_zero, List.foldlM_map]
  exact (Result.foldlM_sum step 0).trans (by rw [zero_add])

/-- Among places of which two are congruent nothing is interpolated. -/
theorem interpolateInExponent_eq_error (nodup : indices.Nodup) (nonzero : 0 ∉ indices) {i j : UInt64}
    (hi : i ∈ indices) (hj : j ∈ indices) (ne : j ≠ i) (same : place G.q j = place G.q i)
    {values : List ℤ} (size : values.length = indices.length) :
    interpolateInExponent G indices values = .error (.arithmetic .inverse) := by
  have ends (b : ℤ) : ∀ e ∈ indices.zip values,
      (∃ b', (do
        let coefficient ← lagrangeCoefficient G indices e.1
        G.mul b (← G.pow e.2 coefficient)) = .ok b') ∨
      (do
        let coefficient ← lagrangeCoefficient G indices e.1
        G.mul b (← G.pow e.2 coefficient)) = .error (.arithmetic .inverse) := by
    intro e he
    have hk : e.1 ∈ indices := (List.of_mem_zip he).1
    by_cases apart : ∀ j ∈ indices, place G.q j = place G.q e.1 → j = e.1
    · left
      rw [lagrangeCoefficient_eq G nodup nonzero hk apart, Result.ok_bind, G.pow_eq, Result.ok_bind,
        G.mul_eq]
      exact ⟨_, rfl⟩
    · right
      push Not at apart
      obtain ⟨j, hj, same, ne⟩ := apart
      rw [lagrangeCoefficient_eq_error G nodup nonzero hk hj ne same, Result.error_bind]
  rw [← List.map_fst_zip size.ge] at hi
  obtain ⟨e, he, rfl⟩ := List.mem_map.1 hi
  refine Result.foldlM_eq_error ends he (fun b => ?_) 1
  rw [lagrangeCoefficient_eq_error G nodup nonzero (List.of_mem_zip he).1 hj ne same,
    Result.error_bind]

/-- Powers at places that differ modulo the order open a ciphertext. -/
theorem openWith_elements (nodup : indices.Nodup) (nonzero : 0 ∉ indices)
    (inj : Set.InjOn (place G.q) {i | i ∈ indices}) (vs : List (ZMod G.q))
    (c : ZMod G.q × ZMod G.q) :
    openWith G (G.pairOf c) indices ((vs.map G.element).map some) = .ok (G.element
      (c.2 - ((indices.zip vs).map fun e => e.2 * lagrangeLog G.q indices e.1).sum)) := by
  rw [openWith, Result.mapM_present_eq_ok_iff.2 rfl, Result.ok_bind,
    interpolateInExponent_eq G nodup nonzero inj, Result.ok_bind, Group.pairOf, G.div_element]

/-- Enough values of the polynomial in the exponent open a ciphertext as its value at zero does. -/
theorem openWith_eq (nodup : indices.Nodup) (nonzero : 0 ∉ indices)
    (inj : Set.InjOn (place G.q) {i | i ∈ indices}) {as : List (ZMod G.q)}
    (enough : as.length ≤ indices.length) (c : ZMod G.q × ZMod G.q) :
    openWith G (G.pairOf c) indices (indices.map fun i => some (G.element (c.1 * valueAt as i)))
      = .ok (G.element (Group.plainLog ((polyOf as).eval 0) c)) := by
  have opened := openWith_elements G nodup nonzero inj (indices.map fun i => c.1 * valueAt as i) c
  have small : (polyOf as).degree < indices.length :=
    (degree_polyOf_lt as).trans_le (by exact_mod_cast enough)
  have interpolated := sum_lagrangeLog nodup inj small
  have entries : indices.zip (indices.map fun i => c.1 * valueAt as i)
      = indices.map fun i => (i, c.1 * valueAt as i) := by
    simpa using List.zip_map' (f := id) (g := fun i => c.1 * valueAt as i) (l := indices)
  have total : ((indices.zip (indices.map fun i => c.1 * valueAt as i)).map fun e =>
      e.2 * lagrangeLog G.q indices e.1).sum = c.1 * (polyOf as).eval 0 := by
    rw [entries, List.map_map]
    simp only [Function.comp_def, mul_assoc, List.sum_map_mul_left]
    exact congrArg (c.1 * ·) interpolated
  rw [total, List.map_map, List.map_map] at opened
  exact opened

/-- Places of which two are congruent open no ciphertext. -/
theorem openWith_eq_error (nodup : indices.Nodup) (nonzero : 0 ∉ indices)
    (clash : ¬ Set.InjOn (place G.q) {i | i ∈ indices}) {vs : List (ZMod G.q)}
    (size : vs.length = indices.length) (c : Pair) :
    openWith G c indices ((vs.map G.element).map some) = .error (.arithmetic .inverse) := by
  unfold Set.InjOn at clash
  push Not at clash
  obtain ⟨i, hi, j, hj, same, ne⟩ := clash
  rw [openWith, Result.mapM_present_eq_ok_iff.2 rfl, Result.ok_bind,
    interpolateInExponent_eq_error G nodup nonzero hi hj ne.symm same.symm
      (by rw [List.length_map, size]), Result.error_bind]

end BallotMix.Sharing
