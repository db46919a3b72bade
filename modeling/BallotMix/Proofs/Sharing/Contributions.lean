import BallotMix.Proofs.LogEquality
import BallotMix.Proofs.Sharing.Polynomial
import BallotMix.Sharing.Decryption
import Mathlib

/-!
# Contributions to a decryption

The holder of a dealt share who makes a contribution makes the first component to the power of the
share, with a proof that the verifier accepts under the public half of the share
(`partialDecrypt_returns`, `partialDecryptBatch_returns`).  The verifiers give an answer for any
contribution whatever.
-/

namespace BallotMix.Sharing

variable (G : Group) [accepted : G.Accepted]

/-! ## One ciphertext -/

theorem exists_verifyPartial (publicShare : Option ℤ) (ct : Ciphertext) (share : DecryptionShare)
    (domain : Bytes) : ∃ b, verifyPartial G publicShare ct share domain = .ok b := by
  unfold verifyPartial
  split
  · exact ⟨false, rfl⟩
  · exact LogEquality.exists_verify G _ _ _ _

omit accepted in
/-- A contribution that is accepted has an accepted proof. -/
theorem verify_of_verifyPartial {publicShare : Option ℤ} {ct : Ciphertext} {share : DecryptionShare}
    {domain : Bytes} (h : verifyPartial G publicShare ct share domain = .ok true) :
    LogEquality.verify G (decryptionContext domain share.index) [some G.g, ct.c1]
      [publicShare, share.value] share.proof = .ok true :=
  (Result.ite_false_eq_true_iff.1 h).2

omit accepted in
/-- A contribution that is accepted has a member as its value. -/
theorem isMember_of_verifyPartial {publicShare : Option ℤ} {ct : Ciphertext} {share : DecryptionShare}
    {domain : Bytes} (h : verifyPartial G publicShare ct share domain = .ok true) :
    G.isMember share.value = true :=
  LogEquality.isMember_of_verify G (verify_of_verifyPartial G h) _ (by simp)

theorem verifyPartial_some (h v : ℤ) (c : ZMod G.q × ZMod G.q) (i : UInt64)
    (proof : LogEquality.Proof) (domain : Bytes) :
    verifyPartial G (some h) (G.cipherOf c) ⟨i, some v, proof⟩ domain
      = LogEquality.verify G (decryptionContext domain i) [some G.g, some (G.element c.1)]
          [some h, some v] proof := by
  simp [verifyPartial, Group.cipherOf_eq]

variable {G}

theorem partialDecrypt_returns {σ : Type} [Source σ] {as : List (ZMod G.q)} {i : UInt64}
    {c : ZMod G.q × ZMod G.q} {domain : Bytes} {share : DecryptionShare} {s s' : σ}
    (h : (partialDecrypt G (shareOf G as i) (G.cipherOf c) domain).Returns s share s') :
    share.index = i ∧ share.value = some (G.element (c.1 * valueAt as i)) ∧
      verifyPartial G (some (G.element (valueAt as i))) (G.cipherOf c) share domain = .ok true := by
  simp only [partialDecrypt, shareOf, G.ensureCiphertext_cipherOf, present_some,
    Draw.returns_bind_iff, Draw.returns_liftM_iff, Draw.returns_pure_iff, Except.ok.injEq,
    Group.pairOf] at h
  obtain ⟨_, _, ⟨rfl, rfl⟩, _, _, ⟨rfl, rfl⟩, value, _, ⟨hvalue, rfl⟩, _, _, ⟨rfl, rfl⟩, proof, _,
    made, rfl, rfl⟩ := h
  rw [G.pow_element_scalar, Except.ok.injEq] at hvalue
  subst hvalue
  refine ⟨rfl, rfl, ?_⟩
  have bases : [G.g, G.element c.1] = [1, c.1].map G.element := by
    rw [G.generator_eq_element]
    rfl
  have images : [G.element (valueAt as i), G.element (c.1 * valueAt as i)]
      = ([1, c.1].map (· * valueAt as i)).map G.element := by
    simp
  rw [bases, images] at made
  have verified := LogEquality.prove_returns G made
  rw [← bases, ← images] at verified
  rw [verifyPartial_some]
  exact verified

/-! ## Batches -/

variable (G) in
theorem exists_verifyPartialBatch (publicShare : Option ℤ) (cts : List Ciphertext)
    (share : BatchShare) (domain : Bytes) :
    ∃ b, verifyPartialBatch G publicShare cts share domain = .ok b := by
  unfold verifyPartialBatch
  split
  · exact ⟨false, rfl⟩
  split
  · exact ⟨false, rfl⟩
  · exact LogEquality.exists_verify G _ _ _ _

omit accepted in
/-- A batch contribution that is accepted has a value for every ciphertext and an accepted proof. -/
theorem verify_of_verifyPartialBatch {publicShare : Option ℤ} {cts : List Ciphertext}
    {share : BatchShare} {domain : Bytes}
    (h : verifyPartialBatch G publicShare cts share domain = .ok true) :
    share.values.length = cts.length ∧
      LogEquality.verify G (decryptionContext domain share.index)
        (some G.g :: cts.map fun ct => ct.c1) (publicShare :: share.values) share.proof
          = .ok true := by
  simp only [verifyPartialBatch, Result.pure_eq_ok, Result.ite_false_eq_true_iff, Bool.or_eq_true,
    decide_eq_true_eq, not_or, not_not] at h
  obtain ⟨⟨-, size⟩, -, verified⟩ := h
  exact ⟨size, verified⟩

omit accepted in
/-- A batch contribution that is accepted has a member for every ciphertext. -/
theorem isMember_of_verifyPartialBatch {publicShare : Option ℤ} {cts : List Ciphertext}
    {share : BatchShare} {domain : Bytes}
    (h : verifyPartialBatch G publicShare cts share domain = .ok true) :
    share.values.length = cts.length ∧ ∀ v ∈ share.values, G.isMember v = true := by
  obtain ⟨size, verified⟩ := verify_of_verifyPartialBatch h
  exact ⟨size, fun v hv =>
    LogEquality.isMember_of_verify G verified v (List.mem_cons_of_mem _ hv)⟩

/-- The exponents of a batch contribution: the first components times the value at the place. -/
noncomputable def powersOf {q : ℕ} (as : List (ZMod q)) (cs : List (ZMod q × ZMod q)) (i : UInt64) :
    List (ZMod q) :=
  cs.map fun c => c.1 * valueAt as i

variable (G) in
theorem contributions_eq (x : ZMod G.q) (cs : List (ZMod G.q × ZMod G.q)) :
    contributions G (some (G.scalar x)) (cs.map G.cipherOf)
      = .ok (cs.map fun c => (G.element c.1, G.element (c.1 * x))) := by
  rw [contributions, List.mapM_map]
  refine Result.mapM_eq_ok fun c _ => ?_
  rw [Function.comp_apply, G.ensureCiphertext_cipherOf, Result.ok_bind]
  show G.pow (G.element c.1) (G.scalar x) >>= _ = _
  rw [G.pow_element_scalar]
  rfl

variable (G) in
theorem verifyPartialBatch_some (h : ℤ) (values : List ℤ) (cs : List (ZMod G.q × ZMod G.q))
    (size : values.length = cs.length) (i : UInt64) (proof : LogEquality.Proof) (domain : Bytes) :
    verifyPartialBatch G (some h) (cs.map G.cipherOf) ⟨i, values.map some, proof⟩ domain
      = LogEquality.verify G (decryptionContext domain i)
          (((1 :: cs.map Prod.fst).map G.element).map some) ((h :: values).map some) proof := by
  have bases : some G.g :: (cs.map G.cipherOf).map (fun ct => ct.c1)
      = ((1 :: cs.map Prod.fst).map G.element).map some := by
    rw [G.generator_eq_element]
    simp [Group.cipherOf_eq]
  unfold verifyPartialBatch
  rw [if_neg (by simp [size]), if_neg (by simp [Group.cipherOf_eq]), bases]
  rfl

theorem partialDecryptBatch_returns {σ : Type} [Source σ] {as : List (ZMod G.q)} {i : UInt64}
    {cs : List (ZMod G.q × ZMod G.q)} {domain : Bytes} {share : BatchShare} {s s' : σ}
    (h : (partialDecryptBatch G (shareOf G as i) (cs.map G.cipherOf) domain).Returns s share s') :
    share.index = i ∧ share.values = ((powersOf as cs i).map G.element).map some ∧
      verifyPartialBatch G (some (G.element (valueAt as i))) (cs.map G.cipherOf) share domain
        = .ok true := by
  simp only [partialDecryptBatch, shareOf, present_some, Draw.returns_bind_iff,
    Draw.returns_liftM_iff, Draw.returns_pure_iff, Except.ok.injEq] at h
  obtain ⟨_, _, ⟨rfl, rfl⟩, powers, _, ⟨hpowers, rfl⟩, _, _, ⟨rfl, rfl⟩, proof, _, made, rfl,
    rfl⟩ := h
  rw [contributions_eq, Except.ok.injEq] at hpowers
  subst hpowers
  have values : (cs.map fun c => (G.element c.1, G.element (c.1 * valueAt as i))).map Prod.snd
      = (powersOf as cs i).map G.element := by
    simp [powersOf]
  have bases : G.g :: (cs.map fun c => (G.element c.1, G.element (c.1 * valueAt as i))).map Prod.fst
      = (1 :: cs.map Prod.fst).map G.element := by
    rw [G.generator_eq_element]
    simp
  have images : G.element (valueAt as i) :: (powersOf as cs i).map G.element
      = ((1 :: cs.map Prod.fst).map (· * valueAt as i)).map G.element := by
    simp [powersOf]
  rw [values, bases, images] at made
  have verified := LogEquality.prove_returns G made
  rw [← images] at verified
  refine ⟨rfl, by rw [values], ?_⟩
  rw [values, verifyPartialBatch_some G _ _ _ (by simp [powersOf])]
  exact verified

end BallotMix.Sharing
