import BallotMix.Proofs.Sharing.Polynomial
import Mathlib

/-!
# Which shares are accepted

Feldman's check of a share multiplies the commitments to running powers of the place, while the
dealer evaluates the polynomial from its top coefficient down.  Both give the value of the
polynomial, one of them in the exponent.  So under the commitments to a polynomial exactly one share
is accepted at each place but zero, and everything a dealer returns is accepted
(`verifyShare_exact`).
-/

namespace BallotMix.Sharing

open Polynomial

/-- The first `t` coefficients of a polynomial, lowest first, as a dealer holds them. -/
noncomputable def coefficientsOf (G : Group) (f : (ZMod G.q)[X]) (t : ℕ) : List ℤ :=
  ((List.range t).map f.coeff).map G.scalar

/-- The place is not zero, the secret represents the value of the polynomial there, and the public
half is the generator to the secret. -/
def IsShareOf (G : Group) (f : (ZMod G.q)[X]) (share : KeyShare) : Prop :=
  share.index ≠ 0 ∧ ∃ x h, share.secret = some x ∧ share.publicShare = some h ∧
    0 ≤ x ∧ x < G.q ∧ (x : ZMod G.q) = f.eval (share.index.toNat : ZMod G.q) ∧ G.genPow x = .ok h

/-- What the parties rely on in a dealing of `n` shares of `x`, of which `t` are needed. -/
structure Dealing.Sound (G : Group) (x : ℤ) (t n : UInt64) (dealing : Dealing) : Prop where
  threshold : dealing.commitments.threshold = t.toNat
  places : dealing.shares.map (fun share => share.index.toNat) = List.range' 1 n.toNat
  verified : ∀ share ∈ dealing.shares, verifyShare G dealing.commitments share = .ok true
  key : ∃ h, G.genPow x = .ok h ∧ dealing.electionKey = ⟨some h⟩ ∧
    dealing.commitments.coefficients.head? = some (some h)

variable {G : Group} [accepted : G.Accepted]

/-! ## Acceptance -/

/-- The verifier always answers, and it accepts the shares of the polynomial. -/
theorem verifyShare_iff (as : List (ZMod G.q)) (share : KeyShare) :
    ∃ b, verifyShare G (commitmentsOf G as) share = .ok b ∧
      (b = true ↔ IsShareOf G (polyOf as) share) := by
  by_cases unfit : share.index = 0 ∨ G.isScalar share.secret = false
  · refine ⟨false, verifyShare_of_unfit unfit, iff_of_false Bool.false_ne_true ?_⟩
    rintro ⟨nonzero, x, _, secret, -, low, high, -⟩
    rcases unfit with zero | range
    · exact nonzero zero
    · simp [secret, Group.isScalar, low, high] at range
  rw [not_or, Bool.not_eq_false] at unfit
  obtain ⟨nonzero, scalar⟩ := unfit
  obtain ⟨a, secret⟩ := G.isScalar_iff.1 scalar
  refine ⟨_, verifyShare_eq nonzero as secret, ?_⟩
  rw [Bool.and_eq_true, decide_eq_true_eq, decide_eq_true_eq]
  constructor
  · rintro ⟨rfl, half⟩
    have bounds := G.scalar_bounds (valueAt as share.index)
    exact ⟨nonzero, _, _, secret, half, bounds.1, bounds.2, G.cast_scalar _, G.genPow_scalar _⟩
  · rintro ⟨-, x, h, secret', half, -, -, value, power⟩
    obtain rfl : G.scalar a = x := Option.some.inj (secret.symm.trans secret')
    rw [G.cast_scalar] at value
    rw [G.genPow_scalar, Except.ok.injEq] at power
    exact ⟨value, by rw [half, ← power, value, valueAt]⟩

theorem isShareOf_shareOf {as : List (ZMod G.q)} {i : UInt64} (nonzero : i ≠ 0) :
    IsShareOf G (polyOf as) (shareOf G as i) :=
  have bounds := G.scalar_bounds (valueAt as i)
  ⟨nonzero, _, _, rfl, rfl, bounds.1, bounds.2, G.cast_scalar _, G.genPow_scalar _⟩

/-! ## Dealings -/

theorem places_sharesOf (as : List (ZMod G.q)) (n : UInt64) :
    (sharesOf G as n).map (fun share => share.index.toNat) = List.range' 1 n.toNat := by
  rw [sharesOf, List.map_map, List.range'_eq_map_range]
  refine List.map_congr_left fun i hi => ?_
  rw [Nat.add_comm]
  exact toNat_ofNat_succ (List.mem_range.1 hi)

/-- A dealer returns whenever the coefficients can be drawn, and what is returned is sound. -/
theorem dealSecret_sound {σ : Type} [Source σ] {x : ℤ} (hx : 0 < x ∧ x < G.q) {t n : UInt64}
    (positive : t ≠ 0) (enough : t ≤ n) (s : σ) :
    ((∃ dealing s', (dealSecret G ⟨some x⟩ t n).Returns s dealing s') ↔
      ∃ others s', (G.randomExponents (t.toNat - 1)).Returns s others s') ∧
    ∀ dealing s', (dealSecret G ⟨some x⟩ t n).Returns s dealing s' → dealing.Sound G x t n := by
  refine ⟨⟨?_, ?_⟩, ?_⟩
  · rintro ⟨dealing, s', dealt⟩
    obtain ⟨-, _, others, -, drawn, -⟩ := dealSecret_returns_iff.1 dealt
    exact ⟨others, s', drawn⟩
  · rintro ⟨others, s', drawn⟩
    obtain ⟨a, ha, rfl⟩ := G.exists_nonzero_scalar hx
    obtain ⟨as, -, -, rfl⟩ := G.randomExponents_returns drawn
    exact ⟨_, s', dealSecret_returns_iff.2
      ⟨⟨positive, enough⟩, _, _, G.ensureExponent_scalar ha _, drawn, dealPoly_eq G a as n⟩⟩
  · intro dealing s' dealt
    obtain ⟨-, -, a, as, -, rfl, length, -, rfl⟩ := dealSecret_returns dealt
    have counted : t.toNat ≠ 0 := fun zero => positive (UInt64.toNat_inj.1 zero)
    refine ⟨?_, places_sharesOf (a :: as) n, fun share hshare => ?_, ?_⟩
    · rw [threshold_commitmentsOf, List.length_cons, length]
      omega
    · obtain ⟨same, nonzero, -⟩ := eq_shareOf_of_mem hshare
      obtain ⟨b, decided, accepts⟩ := verifyShare_iff (a :: as) share
      rw [decided, accepts.2 (same ▸ isShareOf_shareOf nonzero)]
    · exact ⟨G.element a, G.genPow_scalar a, rfl, rfl⟩

/-! ## The guarantee -/

/-- For every polynomial of degree below `t` the public halves computed from its commitments are the
generator to its values, and a share is accepted exactly if it is the polynomial's.  A dealer
returns whenever the other coefficients can be drawn; then all shares are accepted, their places are
those from one to `n`, and the key is the generator to the secret and the first commitment. -/
theorem verifyShare_exact :
    (∀ (t : ℕ) (f : (ZMod G.q)[X]), f.degree < t →
      ∃ commitments, (coefficientsOf G f t).mapM G.genPow = .ok commitments ∧
        (∀ i : UInt64, ∃ v h, evalPoly G (coefficientsOf G f t) i.toNat = .ok v ∧
          v = G.scalar (f.eval (i.toNat : ZMod G.q)) ∧ G.genPow v = .ok h ∧
          publicShare G ⟨commitments.map some⟩ i = .ok h) ∧
        ∀ share, ∃ b, verifyShare G ⟨commitments.map some⟩ share = .ok b ∧
          (b = true ↔ IsShareOf G f share)) ∧
    ∀ (σ : Type) [Source σ] (t n : UInt64) (s : σ), t ≠ 0 → t ≤ n →
      (∀ x : ℤ, 0 < x ∧ x < G.q →
        ((∃ dealing s', (dealSecret G ⟨some x⟩ t n).Returns s dealing s') ↔
          ∃ others s', (G.randomExponents (t.toNat - 1)).Returns s others s') ∧
        ∀ dealing s', (dealSecret G ⟨some x⟩ t n).Returns s dealing s' → dealing.Sound G x t n) ∧
      ∀ dealing s', (deal G t n).Returns s dealing s' →
        ∃ x : ℤ, (0 < x ∧ x < G.q) ∧ dealing.Sound G x t n := by
  refine ⟨fun t f low => ?_, fun σ _ t n s positive enough => ⟨fun x hx => ?_, ?_⟩⟩
  · have whole : polyOf ((List.range t).map f.coeff) = f := polyOf_map_coeff low
    have committed : (coefficientsOf G f t).mapM G.genPow
        = .ok (((List.range t).map f.coeff).map G.element) := by
      rw [coefficientsOf, List.mapM_map]
      exact Result.mapM_eq_ok fun a _ => G.genPow_scalar a
    refine ⟨_, committed, fun i => ?_, fun share => ?_⟩
    · have shared := publicShare_eq G ((List.range t).map f.coeff) i
      have evaluated := evalPoly_eq G ((List.range t).map f.coeff) i
      rw [valueAt, whole] at shared evaluated
      exact ⟨_, _, evaluated, rfl, G.genPow_scalar _, shared⟩
    · have decided := verifyShare_iff ((List.range t).map f.coeff) share
      rwa [whole] at decided
  · exact dealSecret_sound hx positive enough s
  · intro dealing s' dealt
    obtain ⟨x, s₁, drawn, dealt⟩ := Draw.returns_bind_iff.1 dealt
    obtain ⟨a, ha, rfl⟩ := G.randomExponent_returns drawn
    have range := G.ensureExponent_scalar ha
    have hx : 0 < G.scalar a ∧ G.scalar a < G.q := ⟨G.scalar_pos ha, (G.scalar_bounds a).2⟩
    exact ⟨_, hx, (dealSecret_sound hx positive enough s₁).2 dealing s' dealt⟩

/-- Two shares of one polynomial, the second at a place beyond the order, a share whose secret is out
of range, and a dealing of three shares. -/
theorem verifyShare_exact_least :
    let f : (ZMod Group.least.q)[X] := C 16843010 * X + C 5
    f.degree < (2 : ℕ) ∧ coefficientsOf Group.least f 2 = [5, 16843010] ∧
      IsShareOf Group.least f ⟨1, some 16843015, some 369353194⟩ ∧
      IsShareOf Group.least f ⟨1073741892, some 16843015, some 369353194⟩ ∧
      ¬ IsShareOf Group.least f ⟨1, some 1090584906, some 369353194⟩ ∧
      Dealing.Sound Group.least 5 2 3 ⟨⟨some 1024⟩, ⟨[some 1024, some 390430993]⟩,
        [⟨1, some 16843015, some 369353194⟩, ⟨2, some 33686025, some 953346936⟩,
          ⟨3, some 50529035, some 1531916451⟩]⟩ := by
  intro f
  have low : f.degree < (2 : ℕ) := degree_linear_lt
  have coefficients : coefficientsOf Group.least f 2 = [5, 16843010] := by
    have constant : f.coeff 0 = 5 := by simp [f]
    have linear : f.coeff 1 = 16843010 := by simp [f]
    show [Group.least.scalar (f.coeff 0), Group.least.scalar (f.coeff 1)] = _
    rw [constant, linear]
    decide +kernel
  obtain ⟨polynomials, dealings⟩ := verifyShare_exact (G := Group.least)
  obtain ⟨commitments, committed, -, decides⟩ := polynomials 2 f low
  rw [coefficients] at committed
  have computed : [5, 16843010].mapM Group.least.genPow = .ok [1024, 390430993] := by decide +kernel
  obtain rfl : [1024, 390430993] = commitments := Except.ok.inj (computed.symm.trans committed)
  have accepts {share : KeyShare} {b : Bool} (h : verifyShare Group.least
      ⟨[some 1024, some 390430993]⟩ share = .ok b) : b = true ↔ IsShareOf Group.least f share := by
    obtain ⟨b', decided, accepts⟩ := decides share
    obtain rfl : b = b' := Except.ok.inj (h.symm.trans decided)
    exact accepts
  have dealt : (dealSecret Group.least ⟨some 5⟩ 2 3).Returns (⟨List.replicate 4 1⟩ : Tape)
      ⟨⟨some 1024⟩, ⟨[some 1024, some 390430993]⟩,
        [⟨1, some 16843015, some 369353194⟩, ⟨2, some 33686025, some 953346936⟩,
          ⟨3, some 50529035, some 1531916451⟩]⟩ ⟨[]⟩ := by
    show (_ : Result Dealing × Tape) = _
    decide +kernel
  have sound := (dealings Tape 2 3 ⟨List.replicate 4 1⟩ (by decide) (by decide)).1 5 (by decide)
  refine ⟨low, coefficients, (accepts ?_).1 rfl, (accepts ?_).1 rfl, ?_, sound.2 _ _ dealt⟩
  · decide +kernel
  · decide +kernel
  · exact fun share => Bool.false_ne_true ((accepts (by decide +kernel)).2 share)

end BallotMix.Sharing
