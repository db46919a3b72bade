import BallotMix.Proofs.Sharing.Interpolation
import Mathlib

/-!
# Reconstruction

For every list of places and every place the coefficient has one of three outcomes: the places are
refused, the inverse of the differences does not exist, or there is a coefficient.  Which one it is
depends on two kinds of equality, of places as numbers and of places modulo the order.  Where all
places have coefficients these carry every polynomial of small degree to its value at zero, and so
the shares of a dealing, taken in any order, carry its secret (`interpolation_at_zero`).
-/

namespace BallotMix.Sharing

open Polynomial

/-- No two places are congruent modulo the order. -/
def Incongruent (q : ℕ) (indices : List UInt64) : Prop :=
  indices.Pairwise fun i j => ¬ i.toNat ≡ j.toNat [MOD q]

instance (q : ℕ) (indices : List UInt64) : Decidable (Incongruent q indices) :=
  inferInstanceAs (Decidable (indices.Pairwise _))

section

variable {q : ℕ} {indices : List UInt64}

theorem place_eq_iff {i j : UInt64} : place q i = place q j ↔ i.toNat ≡ j.toNat [MOD q] :=
  ZMod.natCast_eq_natCast_iff _ _ _

theorem Incongruent.nodup_map (apart : Incongruent q indices) : (indices.map (place q)).Nodup := by
  apply List.pairwise_map.2
  apply List.Pairwise.imp _ apart
  exact fun ne same => ne (place_eq_iff.1 same)

theorem Incongruent.nodup (apart : Incongruent q indices) : indices.Nodup :=
  apart.nodup_map.of_map _

theorem Incongruent.injOn (apart : Incongruent q indices) :
    Set.InjOn (place q) {i | i ∈ indices} :=
  fun _ hi _ hj same => List.inj_on_of_nodup_map apart.nodup_map hi hj same

end

variable (G : Group) [accepted : G.Accepted] {indices : List UInt64}

/-! ## Outcomes -/

omit accepted in
theorem lagrangeCoefficient_of_unfit {i : UInt64}
    (unfit : ¬ (indices.Nodup ∧ 0 ∉ indices ∧ i ∈ indices)) :
    lagrangeCoefficient G indices i = .error (.argument .interpolationIndices) := by
  have refused : canInterpolate indices i = false := by
    rw [← Bool.not_eq_true, canInterpolate_eq_true_iff]
    exact unfit
  unfold lagrangeCoefficient
  rw [refused]
  rfl

/-- Among usable places a coefficient exists unless another place is congruent. -/
theorem lagrangeCoefficient_of_fit {i : UInt64} (nodup : indices.Nodup) (nonzero : 0 ∉ indices)
    (hi : i ∈ indices) :
    lagrangeCoefficient G indices i =
      if ∃ j ∈ indices, j ≠ i ∧ j.toNat ≡ i.toNat [MOD G.q] then .error (.arithmetic .inverse)
      else .ok (G.scalar (lagrangeLog G.q indices i)) := by
  simp only [← place_eq_iff]
  by_cases clash : ∃ j ∈ indices, j ≠ i ∧ place G.q j = place G.q i
  · obtain ⟨j, hj, ne, same⟩ := id clash
    rw [if_pos clash]
    exact lagrangeCoefficient_eq_error G nodup nonzero hi hj ne same
  · rw [if_neg clash]
    apply lagrangeCoefficient_eq G nodup nonzero hi
    intro j hj same
    by_contra ne
    exact clash ⟨j, hj, ne, same⟩

/-- The coefficient is refused exactly at places that repeat, contain zero or lack the one asked
for. -/
theorem lagrangeCoefficient_refused_iff (i : UInt64) :
    (∃ fault, lagrangeCoefficient G indices i = .error (.argument fault)) ↔
      ¬ indices.Nodup ∨ 0 ∈ indices ∨ i ∉ indices := by
  by_cases fit : indices.Nodup ∧ 0 ∉ indices ∧ i ∈ indices
  · obtain ⟨nodup, nonzero, hi⟩ := fit
    apply iff_of_false
    · rintro ⟨fault, h⟩
      rw [lagrangeCoefficient_of_fit G nodup nonzero hi] at h
      split at h <;> cases h
    · simp [nodup, nonzero, hi]
  · apply iff_of_true ⟨_, lagrangeCoefficient_of_unfit G fit⟩
    simpa only [not_and_or, not_not] using fit

/-! ## Values at zero -/

/-- Where no places are congruent all have coefficients, which carry the values of a polynomial to
that at zero. -/
theorem exists_coefficients (nonzero : 0 ∉ indices) (apart : Incongruent G.q indices) :
    ∃ coefficients : List ℤ,
      indices.mapM (lagrangeCoefficient G indices) = .ok coefficients ∧
      ∀ f : (ZMod G.q)[X], f.degree < indices.length →
        (List.zipWith (fun (l : ℤ) (i : UInt64) => (l : ZMod G.q) * f.eval (i.toNat : ZMod G.q))
          coefficients indices).sum = f.eval 0 := by
  have found : ∀ i ∈ indices, lagrangeCoefficient G indices i
      = .ok (G.scalar (lagrangeLog G.q indices i)) := fun i hi =>
    lagrangeCoefficient_eq G apart.nodup nonzero hi fun j hj same => apart.injOn hj hi same
  refine ⟨_, Result.mapM_eq_ok found, fun f small => ?_⟩
  rw [← sum_lagrangeLog apart.nodup apart.injOn small, List.zipWith_map_left, List.zipWith_self]
  apply congrArg List.sum
  apply List.map_congr_left
  intro i _
  rw [G.cast_scalar, mul_comm]
  rfl

/-- Enough shares of a polynomial at places that differ modulo the order carry its value at zero. -/
theorem reconstruct_eq {as : List (ZMod G.q)} (nodup : indices.Nodup) (nonzero : 0 ∉ indices)
    (inj : Set.InjOn (place G.q) {i | i ∈ indices}) (enough : as.length ≤ indices.length) :
    reconstruct G (indices.map (shareOf G as)) = .ok (G.scalar ((polyOf as).eval 0)) := by
  have step : ∀ b : ZMod G.q, ∀ i ∈ indices, (do
      let coefficient ← lagrangeCoefficient G indices i
      G.scalarAdd (G.scalar b) (← G.scalarMul (← present (shareOf G as i).secret) coefficient))
        = .ok (G.scalar (b + (polyOf as).eval (place G.q i) * lagrangeLog G.q indices i)) := by
    intro b i hi
    rw [lagrangeCoefficient_eq G nodup nonzero hi fun j hj same => inj hj hi same]
    simp only [shareOf, present, Result.ok_bind, G.scalarMul_eq, G.scalarAdd_eq, G.cast_scalar]
    rfl
  have small : (polyOf as).degree < indices.length :=
    (degree_polyOf_lt as).trans_le (by exact_mod_cast enough)
  have places : (indices.map (shareOf G as)).map (fun s => s.index) = indices := by
    simp [Function.comp_def, shareOf]
  unfold reconstruct
  rw [places, List.foldlM_map, ← G.scalar_zero]
  refine (Result.foldlM_sum step 0).trans ?_
  rw [sum_lagrangeLog nodup inj small, zero_add]

/-- Enough distinct shares of a dealing carry the secret, in any order. -/
theorem reconstruct_dealt {as : List (ZMod G.q)} {n : UInt64} (low : n.toNat < G.q)
    {chosen : List KeyShare} (nodup : chosen.Nodup) (dealt : ∀ k ∈ chosen, k ∈ sharesOf G as n)
    (enough : as.length ≤ chosen.length) :
    reconstruct G chosen = .ok (G.scalar ((polyOf as).eval 0)) := by
  have own : (chosen.map KeyShare.index).map (shareOf G as) = chosen := by
    rw [List.map_map]
    conv_rhs => rw [← List.map_id chosen]
    apply List.map_congr_left
    intro k hk
    exact (eq_shareOf_of_mem (dealt k hk)).1.symm
  have usable : ∀ i ∈ chosen.map KeyShare.index, i ≠ 0 ∧ i.toNat < G.q := by
    intro i hi
    obtain ⟨k, hk, rfl⟩ := List.mem_map.1 hi
    obtain ⟨-, nonzero, le⟩ := eq_shareOf_of_mem (dealt k hk)
    exact ⟨nonzero, by omega⟩
  rw [← own]
  apply reconstruct_eq G (nodup_index nodup dealt)
  · exact fun zero => (usable 0 zero).1 rfl
  · exact fun i hi j hj same => eq_of_place_eq (usable i hi).2 (usable j hj).2 same
  · rwa [List.length_map]

/-! ## The whole -/

/-- The shares carry the secret whichever of them are chosen, if they are enough. -/
def Dealing.Carries (G : Group) (dealing : Dealing) (t : ℕ) (secret : ℤ) : Prop :=
  ∀ chosen : List KeyShare, chosen.Nodup → (∀ k ∈ chosen, k ∈ dealing.shares) →
    t ≤ chosen.length → reconstruct G chosen = .ok secret

/-- A coefficient is refused exactly if the places repeat, contain zero or lack the one asked for.
Otherwise it has no inverse exactly if another place is congruent, and else there is one.  Where no
two places are congruent, the coefficients carry the values of every polynomial of small degree to
that at zero.  So the shares that are dealt of a secret, given or fresh, carry it. -/
theorem interpolation_at_zero :
    (∀ (indices : List UInt64) (i : UInt64),
      ((∃ fault, lagrangeCoefficient G indices i = .error (.argument fault)) ↔
        ¬ indices.Nodup ∨ 0 ∈ indices ∨ i ∉ indices) ∧
      (indices.Nodup → 0 ∉ indices → i ∈ indices →
        (lagrangeCoefficient G indices i = .error (.arithmetic .inverse) ↔
          ∃ j ∈ indices, j ≠ i ∧ j.toNat ≡ i.toNat [MOD G.q]) ∧
        ((∃ l, lagrangeCoefficient G indices i = .ok l) ↔
          ¬ ∃ j ∈ indices, j ≠ i ∧ j.toNat ≡ i.toNat [MOD G.q]))) ∧
    (∀ indices : List UInt64, 0 ∉ indices → Incongruent G.q indices →
      ∃ coefficients : List ℤ,
        indices.mapM (lagrangeCoefficient G indices) = .ok coefficients ∧
        ∀ f : (ZMod G.q)[X], f.degree < indices.length →
          (List.zipWith (fun (l : ℤ) (i : UInt64) =>
            (l : ZMod G.q) * f.eval (i.toNat : ZMod G.q)) coefficients indices).sum = f.eval 0) ∧
    ∀ (σ : Type) [Source σ] (t n : UInt64), n.toNat < G.q → ∀ (dealing : Dealing) (s s' : σ),
      (∀ secret, (dealSecret G ⟨some secret⟩ t n).Returns s dealing s' →
        dealing.Carries G t.toNat secret) ∧
      ((deal G t n).Returns s dealing s' →
        ∃ secret h : ℤ, (0 < secret ∧ secret < G.q) ∧ G.genPow secret = .ok h ∧
          dealing.electionKey = ⟨some h⟩ ∧ dealing.Carries G t.toNat secret) := by
  have carries (σ : Type) [Source σ] {t n : UInt64} (low : n.toNat < G.q) {dealing : Dealing}
      {s s' : σ} {secret : ℤ} (dealt : (dealSecret G ⟨some secret⟩ t n).Returns s dealing s') :
      dealing.Carries G t.toNat secret := by
    obtain ⟨positive, -, a, as, -, rfl, length, -, rfl⟩ := dealSecret_returns dealt
    have counted : t.toNat ≠ 0 := fun zero => positive (UInt64.toNat_inj.1 zero)
    intro chosen nodup mem enough
    have found := reconstruct_dealt G low nodup mem (by rw [List.length_cons]; omega)
    rwa [eval_zero_polyOf_cons] at found
  refine ⟨fun indices i => ⟨lagrangeCoefficient_refused_iff G i, fun nodup nonzero hi => ?_⟩,
    fun indices nonzero apart => exists_coefficients G nonzero apart,
    fun σ _ t n low dealing s s' => ⟨fun secret dealt => carries σ low dealt, fun dealt => ?_⟩⟩
  · rw [lagrangeCoefficient_of_fit G nodup nonzero hi]
    by_cases clash : ∃ j ∈ indices, j ≠ i ∧ j.toNat ≡ i.toNat [MOD G.q]
    · simp [clash]
    · simp [clash]
  · obtain ⟨x, s₁, -, dealt⟩ := Draw.returns_bind_iff.1 dealt
    obtain ⟨-, -, a, as, ha, rfl, -, -, rfl⟩ := dealSecret_returns dealt
    exact ⟨_, _, ⟨G.scalar_pos ha, (G.scalar_bounds a).2⟩, G.genPow_scalar a, rfl, carries σ low dealt⟩

/-- Places with a zero, a place with one congruent to it and another beside them, the coefficients of
the third and the first place with a polynomial that has the value five at zero, and these two shares
of five in that order. -/
theorem interpolation_at_zero_least :
    let third : KeyShare := ⟨3, some 50529035, some 1531916451⟩
    let first : KeyShare := ⟨1, some 16843015, some 369353194⟩
    let dealing : Dealing := ⟨⟨some 1024⟩, ⟨[some 1024, some 390430993]⟩,
      [first, ⟨2, some 33686025, some 953346936⟩, third]⟩
    (∃ fault, lagrangeCoefficient Group.least [2, 0] 2 = .error (.argument fault)) ∧
    lagrangeCoefficient Group.least [1, 1073741892, 2] 1 = .error (.arithmetic .inverse) ∧
    (∃ l, lagrangeCoefficient Group.least [1, 1073741892, 2] 2 = .ok l) ∧
    Incongruent Group.least.q [3, 1] ∧
    [3, 1].mapM (lagrangeCoefficient Group.least [3, 1]) = .ok [536870945, 536870947] ∧
    (X + C 5 : (ZMod Group.least.q)[X]).degree < 2 ∧
    (536870945 * (3 + 5) + 536870947 * (1 + 5) : ZMod Group.least.q) = 5 ∧
    (dealSecret Group.least ⟨some 5⟩ 2 3).Returns (⟨List.replicate 4 1⟩ : Tape) dealing ⟨[]⟩ ∧
    reconstruct Group.least [third, first] = .ok 5 := by
  intro third first dealing
  obtain ⟨outcomes, values, dealings⟩ := interpolation_at_zero Group.least
  have zero := (outcomes [2, 0] 2).1.2 (by decide)
  have clash := ((outcomes [1, 1073741892, 2] 1).2 (by decide) (by decide) (by decide)).1.2
    ⟨1073741892, by decide, by decide, by decide⟩
  have beside := ((outcomes [1, 1073741892, 2] 2).2 (by decide) (by decide) (by decide)).2.2
    (by decide)
  have apart : Incongruent Group.least.q [3, 1] := by decide
  have found : [3, 1].mapM (lagrangeCoefficient Group.least [3, 1])
      = .ok [536870945, 536870947] := by decide +kernel
  have small : (X + C 5 : (ZMod Group.least.q)[X]).degree < 2 := by
    rw [degree_X_add_C]
    decide
  obtain ⟨coefficients, found', sums⟩ := values [3, 1] (by decide) apart
  obtain rfl : coefficients = [536870945, 536870947] := Except.ok.inj (found'.symm.trans found)
  have five := sums (X + C 5) small
  have dealt : (dealSecret Group.least ⟨some 5⟩ 2 3).Returns (⟨List.replicate 4 1⟩ : Tape)
      dealing ⟨[]⟩ := by
    show (_ : Result Dealing × Tape) = _
    decide +kernel
  refine ⟨zero, clash, beside, apart, found, small, by simpa using five, dealt, ?_⟩
  exact (dealings Tape 2 3 (by decide) dealing _ _).1 5 dealt [third, first] (by decide)
    (by simp [dealing]) (by decide)

end BallotMix.Sharing
