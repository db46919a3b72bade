import BallotMix.Proofs.Group.Exponents
import Mathlib

/-!
# What draws return

A uniform draw returns a number below its bound, whatever the source, and a random exponent is a
scalar other than zero.  Every list of such scalars is drawn from some tape
(`yields_randomExponents`).
-/

namespace BallotMix

variable {σ : Type} [Source σ]

open Draw

theorem firstBelow_lt {bound tries value : ℕ} {s s' : σ}
    (h : (firstBelow bound tries).Returns s value s') : value < bound := by
  induction tries generalizing s with
  | zero => exact absurd h not_returns_throw
  | succ tries ih =>
    rw [firstBelow, returns_bind_iff] at h
    obtain ⟨chunk, t, -, h⟩ := h
    dsimp only at h
    split at h
    · next low =>
      obtain ⟨rfl, -⟩ := returns_pure_iff.1 h
      exact low
    · exact ih h

theorem uniform_bounds {bound value : ℤ} {s s' : σ} (h : (uniform bound).Returns s value s') :
    0 ≤ value ∧ value < bound := by
  rw [uniform, returns_ite_throw_iff] at h
  obtain ⟨positive, h⟩ := h
  simp only [returns_bind_iff, returns_pure_iff] at h
  obtain ⟨_, _, -, n, _, hn, rfl, -⟩ := h
  have := firstBelow_lt hn
  omega

theorem uniformIndex_lt {bound value : UInt64} {s s' : σ}
    (h : (uniformIndex bound).Returns s value s') : value < bound := by
  simp only [uniformIndex, returns_bind_iff, returns_pure_iff] at h
  obtain ⟨v, _, hv, rfl, -⟩ := h
  have := uniform_bounds hv
  have := bound.toNat_lt
  rw [UInt64.lt_iff_toNat_lt, UInt64.toNat_ofNat']
  omega

namespace Group

variable (G : Group) [accepted : G.Accepted]

theorem randomExponent_returns {r : ℤ} {s s' : σ} (h : G.randomExponent.Returns s r s') :
    ∃ a ≠ 0, r = G.scalar a := by
  simp only [randomExponent, returns_bind_iff, returns_pure_iff] at h
  obtain ⟨v, _, hv, rfl, -⟩ := h
  have bounds := uniform_bounds hv
  have cast : G.scalar ((v + 1 : ℤ) : ZMod G.q) = v + 1 := G.scalar_cast_of_bounds (by omega)
  refine ⟨((v + 1 : ℤ) : ZMod G.q), fun zero => ?_, cast.symm⟩
  rw [zero, scalar_zero] at cast
  omega

theorem randomExponents_returns {n : ℕ} {rs : List ℤ} {s s' : σ}
    (h : (G.randomExponents n).Returns s rs s') :
    ∃ as : List (ZMod G.q), as.length = n ∧ (∀ a ∈ as, a ≠ 0) ∧ rs = as.map G.scalar := by
  induction n generalizing rs s s' with
  | zero =>
    rw [randomExponents, returns_pure_iff] at h
    exact ⟨[], rfl, by simp, h.1.symm⟩
  | succ n ih =>
    simp only [randomExponents, returns_bind_iff, returns_pure_iff] at h
    obtain ⟨r, t, hr, rs, t', hrs, rfl, -⟩ := h
    obtain ⟨a, ha, rfl⟩ := G.randomExponent_returns hr
    obtain ⟨as, rfl, has, rfl⟩ := ih hrs
    refine ⟨a :: as, rfl, fun b hb => ?_, rfl⟩
    rcases List.mem_cons.1 hb with rfl | hb
    · exact ha
    · exact has b hb

end Group

/-! ## Tapes -/

theorem Tape.fill_returns (chunk rest : Bytes) :
    (Source.fill chunk.length : Draw Tape Bytes).Returns ⟨chunk ++ rest⟩ chunk ⟨rest⟩ := by
  show Tape.fill chunk.length ⟨chunk ++ rest⟩ = (.ok chunk, ⟨rest⟩)
  simp [Tape.fill]

/-- Writing a number below the bound and reading it with a mask gives the number. -/
theorem maskedValue_ofNat {bound value : ℕ} (h : value < bound) :
    maskedValue (Number.bitLength bound) (Bytes.ofNat (Number.byteLength bound) value) = value := by
  have fits : bound < 256 ^ Number.byteLength bound :=
    (Number.byteLength_le_iff bound _).1 le_rfl
  have digits := Number.lt_two_pow_bitLength bound
  rw [maskedValue, Bytes.toNat_ofNat, Nat.mod_eq_of_lt (h.trans fits), Nat.one_shiftLeft,
    Nat.mod_eq_of_lt (h.trans digits)]

/-- A number below the bound that stands on the tape is drawn. -/
theorem uniform_returns_of_tape {bound value : ℕ} (h : value < bound) (rest : Bytes) :
    (uniform (bound : ℤ)).Returns
      (⟨Bytes.ofNat (Number.byteLength bound) value ++ rest⟩ : Tape) (value : ℤ) ⟨rest⟩ := by
  have filled := Tape.fill_returns (Bytes.ofNat (Number.byteLength bound) value) rest
  rw [Bytes.length_ofNat] at filled
  rw [uniform, returns_ite_throw_iff]
  refine ⟨by omega, ?_⟩
  simp only [returns_bind_iff]
  refine ⟨_, _, rfl, (value : ℕ), ⟨rest⟩, ?_, returns_pure_iff.2 ⟨rfl, rfl⟩⟩
  show (firstBelow bound (_ + 1)).Returns _ _ _
  rw [firstBelow, returns_bind_iff]
  refine ⟨_, _, filled, ?_⟩
  dsimp only
  rw [maskedValue_ofNat h, if_pos h]
  exact returns_pure_iff.2 ⟨rfl, rfl⟩

namespace Group

variable (G : Group) [accepted : G.Accepted]

/-- Every scalar but zero is on the front of some tape. -/
theorem exists_randomExponent_returns {a : ZMod G.q} (ha : a ≠ 0) (rest : Bytes) :
    ∃ bytes, (G.randomExponent).Returns (⟨bytes ++ rest⟩ : Tape) (G.scalar a) ⟨rest⟩ := by
  have positive : 0 < a.val := ZMod.val_pos.2 ha
  have small := ZMod.val_lt a
  have drawn := uniform_returns_of_tape (show a.val - 1 < G.q - 1 by omega) rest
  rw [Nat.cast_pred accepted.prime_order.pos, Nat.cast_pred positive] at drawn
  exact ⟨_, returns_bind_iff.2
    ⟨_, _, drawn, returns_pure_iff.2 ⟨sub_add_cancel (a.val : ℤ) 1, rfl⟩⟩⟩

/-- Every list of scalars other than zero is on the front of some tape. -/
theorem exists_randomExponents_returns {as : List (ZMod G.q)} (nonzero : ∀ a ∈ as, a ≠ 0)
    (rest : Bytes) : ∃ bytes, (G.randomExponents as.length).Returns (⟨bytes⟩ : Tape)
      (as.map G.scalar) ⟨rest⟩ := by
  induction as with
  | nil => exact ⟨rest, returns_pure_iff.2 ⟨rfl, rfl⟩⟩
  | cons a as ih =>
    obtain ⟨own, others⟩ := List.forall_mem_cons.1 nonzero
    obtain ⟨bytes, hbytes⟩ := ih others
    obtain ⟨front, hfront⟩ := G.exists_randomExponent_returns own bytes
    refine ⟨front ++ bytes, ?_⟩
    simp only [List.length_cons, randomExponents, returns_bind_iff]
    exact ⟨_, _, hfront, _, _, hbytes, returns_pure_iff.2 ⟨rfl, rfl⟩⟩

/-- Every list of scalars other than zero can be drawn. -/
theorem yields_randomExponents {as : List (ZMod G.q)} (nonzero : ∀ a ∈ as, a ≠ 0) :
    Yields (fun _ [Source _] => G.randomExponents as.length) (as.map G.scalar) := by
  obtain ⟨bytes, drawn⟩ := G.exists_randomExponents_returns nonzero []
  exact ⟨Tape, inferInstance, _, _, drawn⟩

end Group

end BallotMix
