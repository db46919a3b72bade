import BallotMix.Proofs.ElGamal.Exponents
import BallotMix.Proofs.Entropy.Draws
import BallotMix.Sharing.Basic
import Mathlib

/-!
# Shared polynomials

The coefficients of a dealer are those of a polynomial over the exponents (`polyOf`).  A share is its
value at the place of the share, and the public half computed from the commitments is the generator
to that value (`publicShare_eq`).
-/

namespace BallotMix.Sharing

open Polynomial

/-- The polynomial with the given coefficients, lowest first. -/
noncomputable def polyOf {q : ℕ} (as : List (ZMod q)) : (ZMod q)[X] :=
  as.foldr (fun a f => f * X + C a) 0

section

variable {q : ℕ}

@[simp]
theorem polyOf_nil : polyOf ([] : List (ZMod q)) = 0 := rfl

@[simp]
theorem polyOf_cons (a : ZMod q) (as : List (ZMod q)) : polyOf (a :: as) = polyOf as * X + C a :=
  rfl

theorem eval_zero_polyOf_cons (a : ZMod q) (as : List (ZMod q)) :
    (polyOf (a :: as)).eval 0 = a := by
  simp

theorem degree_polyOf_lt (as : List (ZMod q)) : (polyOf as).degree < as.length := by
  rw [degree_lt_iff_coeff_zero]
  induction as with
  | nil => simp
  | cons a as ih =>
    intro m hm
    obtain ⟨k, rfl⟩ : ∃ k, m = k + 1 := ⟨m - 1, by rw [List.length_cons] at hm; omega⟩
    rw [polyOf_cons, coeff_add, coeff_mul_X, coeff_C_succ, add_zero]
    exact ih k (by rw [List.length_cons] at hm; omega)

theorem coeff_polyOf (as : List (ZMod q)) (j : ℕ) : (polyOf as).coeff j = as.getD j 0 := by
  induction as generalizing j with
  | nil => simp
  | cons a as ih =>
    rw [polyOf_cons, coeff_add]
    cases j with
    | zero => simp
    | succ j => rw [coeff_mul_X, coeff_C_succ, add_zero, ih, List.getD_cons_succ]

/-- A polynomial of degree below `m` is that of its first `m` coefficients. -/
theorem polyOf_map_coeff {m : ℕ} {f : (ZMod q)[X]} (small : f.degree < m) :
    polyOf ((List.range m).map f.coeff) = f := by
  ext j
  rw [coeff_polyOf, List.getD_eq_getElem?_getD, List.getElem?_map]
  rcases lt_or_ge j m with low | high
  · rw [List.getElem?_range low, Option.map_some, Option.getD_some]
  · rw [(degree_lt_iff_coeff_zero f m).1 small j high]
    simp [high]

end

variable (G : Group) [accepted : G.Accepted]

/-- The value at the place of a share. -/
noncomputable def valueAt {q : ℕ} (as : List (ZMod q)) (i : UInt64) : ZMod q :=
  (polyOf as).eval (i.toNat : ZMod q)

theorem evalPoly_eq (as : List (ZMod G.q)) (i : UInt64) :
    evalPoly G (as.map G.scalar) i.toNat = .ok (G.scalar (valueAt as i)) := by
  unfold evalPoly valueAt
  induction as with
  | nil => simp
  | cons a as ih =>
    rw [List.map_cons, List.foldrM_cons, ih, Result.ok_bind, polyOf_cons]
    simp

/-! ## Dealing -/

/-- The share at a place. -/
noncomputable def shareOf (as : List (ZMod G.q)) (i : UInt64) : KeyShare :=
  ⟨i, some (G.scalar (valueAt as i)), some (G.element (valueAt as i))⟩

/-- The shares of the places from one to `n`. -/
noncomputable def sharesOf (as : List (ZMod G.q)) (n : UInt64) : List KeyShare :=
  (List.range n.toNat).map fun i => shareOf G as (UInt64.ofNat (i + 1))

/-- The commitments to coefficients. -/
def commitmentsOf (as : List (ZMod G.q)) : Commitments := ⟨(as.map G.element).map some⟩

/-- Commitments that are members are commitments to coefficients. -/
theorem exists_commitmentsOf {commitments : Commitments}
    (members : ∀ c ∈ commitments.coefficients, G.isMember c = true) :
    ∃ as, commitments = commitmentsOf G as := by
  obtain ⟨as, has⟩ := G.exists_members members
  exact ⟨as, congrArg Commitments.mk has⟩

theorem threshold_commitmentsOf (as : List (ZMod G.q)) :
    (commitmentsOf G as).threshold = as.length := by
  simp [commitmentsOf, Commitments.threshold]

theorem shareAt_eq (as : List (ZMod G.q)) (i : UInt64) :
    shareAt G (as.map G.scalar) i = .ok (shareOf G as i) := by
  rw [shareAt, evalPoly_eq, Result.ok_bind, G.genPow_scalar]
  rfl

theorem dealPoly_eq (a : ZMod G.q) (as : List (ZMod G.q)) (n : UInt64) :
    dealPoly G ((a :: as).map G.scalar) n.toNat
      = .ok ⟨⟨some (G.element a)⟩, commitmentsOf G (a :: as), sharesOf G (a :: as) n⟩ := by
  have committed : ((a :: as).map G.scalar).mapM G.genPow = .ok ((a :: as).map G.element) := by
    rw [List.mapM_map]
    exact Result.mapM_eq_ok fun b _ => G.genPow_scalar b
  rw [dealPoly, committed, Result.ok_bind,
    Result.mapM_eq_ok fun i _ => shareAt_eq G (a :: as) (UInt64.ofNat (i + 1))]
  rfl

variable {G} {σ : Type} [Source σ]

omit accepted in
/-- A dealer returns if the secret is in range and the other coefficients can be drawn. -/
theorem dealSecret_returns_iff {secret : SecretKey} {t n : UInt64} {dealing : Dealing} {s s' : σ} :
    (dealSecret G secret t n).Returns s dealing s' ↔
      (t ≠ 0 ∧ t ≤ n) ∧ ∃ x others, G.ensureExponent .sharedSecretRange secret.x = .ok x ∧
        (G.randomExponents (t.toNat - 1)).Returns s others s' ∧
        dealPoly G (x :: others) n.toNat = .ok dealing := by
  simp only [dealSecret, ExceptT.bind_throw, Draw.returns_ite_throw_iff, Draw.returns_bind_iff,
    Draw.returns_liftM_iff, not_or, UInt64.not_lt]
  refine and_congr_right fun _ => ?_
  constructor
  · rintro ⟨x, _, ⟨hx, rfl⟩, others, _, drawn, made, rfl⟩
    exact ⟨x, others, hx, drawn, made⟩
  · rintro ⟨x, others, hx, drawn, made⟩
    exact ⟨x, s, ⟨hx, rfl⟩, others, s', drawn, made, rfl⟩

/-- What a dealer who returns has dealt. -/
theorem dealSecret_returns {x : ℤ} {t n : UInt64} {dealing : Dealing} {s s' : σ}
    (h : (dealSecret G ⟨some x⟩ t n).Returns s dealing s') :
    t ≠ 0 ∧ t ≤ n ∧ ∃ (a : ZMod G.q) (as : List (ZMod G.q)), a ≠ 0 ∧ x = G.scalar a ∧
      as.length = t.toNat - 1 ∧
      (G.randomExponents (t.toNat - 1)).Returns s (as.map G.scalar) s' ∧
      dealing = ⟨⟨some (G.element a)⟩, commitmentsOf G (a :: as), sharesOf G (a :: as) n⟩ := by
  obtain ⟨⟨positive, enough⟩, _, others, hx, drawn, made⟩ := dealSecret_returns_iff.1 h
  obtain ⟨a, ha, same, rfl⟩ := G.ensureExponent_eq_ok_iff.1 hx
  obtain ⟨as, length, -, rfl⟩ := G.randomExponents_returns drawn
  rw [← List.map_cons, dealPoly_eq, Except.ok.injEq] at made
  exact ⟨positive, enough, a, as, ha, Option.some.inj same, length, drawn, made.symm⟩

theorem toNat_ofNat_succ {n : UInt64} {i : ℕ} (h : i < n.toNat) :
    (UInt64.ofNat (i + 1)).toNat = i + 1 := by
  have := n.toNat_lt
  rw [UInt64.toNat_ofNat']
  exact Nat.mod_eq_of_lt (by omega)

/-- Dealt shares are those of their places, which are not zero. -/
theorem eq_shareOf_of_mem {as : List (ZMod G.q)} {n : UInt64} {k : KeyShare}
    (h : k ∈ sharesOf G as n) :
    k = shareOf G as k.index ∧ k.index ≠ 0 ∧ k.index.toNat ≤ n.toNat := by
  obtain ⟨i, hi, rfl⟩ := List.mem_map.1 h
  have low := List.mem_range.1 hi
  have index := toNat_ofNat_succ low
  refine ⟨rfl, fun zero => ?_, ?_⟩
  · change UInt64.ofNat (i + 1) = 0 at zero
    rw [zero] at index
    cases index
  · show (UInt64.ofNat (i + 1)).toNat ≤ n.toNat
    omega

/-- Distinct dealt shares have distinct places. -/
theorem nodup_index {as : List (ZMod G.q)} {n : UInt64} {holders : List KeyShare}
    (nodup : holders.Nodup) (dealt : ∀ k ∈ holders, k ∈ sharesOf G as n) :
    (holders.map KeyShare.index).Nodup := by
  refine nodup.map_on fun k hk k' hk' same => ?_
  rw [(eq_shareOf_of_mem (dealt k hk)).1, (eq_shareOf_of_mem (dealt k' hk')).1, same]

/-! ## Public halves -/

variable (G)

theorem publicShareFrom_eq (i : UInt64) (b w : ZMod G.q) (as : List (ZMod G.q)) :
    publicShareFrom G i.toNat (G.element b) (G.scalar w) ((as.map G.element).map some)
      = .ok (G.element (b + w * valueAt as i)) := by
  induction as generalizing b w with
  | nil => simp [publicShareFrom, valueAt]
  | cons a as ih =>
    simp only [List.map_cons, publicShareFrom, G.ensureMember_element, Result.ok_bind,
      G.pow_element_scalar, G.mul_element, G.scalarMul_eq, G.cast_scalar, Int.cast_natCast, ih]
    simp only [valueAt, polyOf_cons, eval_add, eval_mul, eval_X, eval_C]
    congr 2
    ring

/-- The public half of a share is the generator to its secret. -/
theorem publicShare_eq (as : List (ZMod G.q)) (i : UInt64) :
    publicShare G (commitmentsOf G as) i = .ok (G.element (valueAt as i)) := by
  have run := publicShareFrom_eq G i 0 1 as
  rwa [G.element_zero, G.scalar_one, zero_add, one_mul] at run

/-! ## Checking shares -/

variable {G}

omit accepted in
/-- A share at place zero or with a secret out of range is refused before anything is computed. -/
theorem verifyShare_of_unfit {commitments : Commitments} {share : KeyShare}
    (unfit : share.index = 0 ∨ G.isScalar share.secret = false) :
    verifyShare G commitments share = .ok false := by
  simp only [verifyShare, Bool.or_eq_true, decide_eq_true_eq, Bool.not_eq_true', if_pos unfit]
  rfl

/-- What the verifier decides about a share after its checks. -/
theorem verifyShare_eq {share : KeyShare} (nonzero : share.index ≠ 0) (as : List (ZMod G.q))
    {a : ZMod G.q} (secret : share.secret = some (G.scalar a)) :
    verifyShare G (commitmentsOf G as) share
      = .ok (decide (a = valueAt as share.index) &&
          decide (share.publicShare = some (G.element (valueAt as share.index)))) := by
  have members : (commitmentsOf G as).coefficients.all G.isMember = true := by
    simp [commitmentsOf]
  simp [verifyShare, nonzero, secret, members, publicShare_eq]

end BallotMix.Sharing
