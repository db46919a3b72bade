import BallotMix.Proofs.LogEquality.Soundness
import BallotMix.Sharing.Decryption
import Mathlib

/-!
# Reused nonces

A holder proves with a share in three ways, and each time the response is `w + c x` for the nonce `w`,
the challenge `c` and the share `x` (`ProvedWith.exists_answer`).  So two proofs made with one nonce
give the share away, whatever each was made for (`ProvedWith.extract_eq`), and any two accepted proofs
with a commitment in common give an exponent (`extract_recovers`).
-/

namespace BallotMix.Sharing

open LogEquality (extract HasAt)

/-- A holder made the proof with the share, drawing from a source whose next random exponent is the
nonce. -/
inductive ProvedWith (G : Group) (share : KeyShare) (nonce : ℤ) : LogEquality.Proof → Prop
  /-- To show knowledge of the share. -/
  | keyShare {σ : Type} [Source σ] {holder domain : Bytes} {proof : LogEquality.Proof} {s t s' : σ}
      (next : G.randomExponent.Returns s nonce t)
      (run : (proveKeyShare G share holder domain).Returns s proof s') :
      ProvedWith G share nonce proof
  /-- In a contribution to the decryption of a ciphertext. -/
  | contribution {σ : Type} [Source σ] {ct : Ciphertext} {domain : Bytes} {made : DecryptionShare}
      {s t s' : σ} (next : G.randomExponent.Returns s nonce t)
      (run : (partialDecrypt G share ct domain).Returns s made s') :
      ProvedWith G share nonce made.proof
  /-- In a contribution to the decryption of a batch. -/
  | batch {σ : Type} [Source σ] {cts : List Ciphertext} {domain : Bytes} {made : BatchShare}
      {s t s' : σ} (next : G.randomExponent.Returns s nonce t)
      (run : (partialDecryptBatch G share cts domain).Returns s made s') :
      ProvedWith G share nonce made.proof

variable {G : Group} {share : KeyShare} {nonce secret : ℤ} {proof proof' : LogEquality.Proof}

/-- All ways to prove end in one, which is given the share as its witness. -/
theorem ProvedWith.exists_run (h : ProvedWith G share nonce proof)
    (known : share.secret = some secret) :
    ∃ context bases images,
      LogEquality.proveWith G context bases images secret nonce = .ok proof := by
  have drawn {σ : Type} [Source σ] {context : Transcript} {bases images : List ℤ}
      {proof : LogEquality.Proof} {s t s' : σ} (next : G.randomExponent.Returns s nonce t)
      (run : (LogEquality.prove G context bases images secret).Returns s proof s') :
      LogEquality.proveWith G context bases images secret nonce = .ok proof := by
    obtain ⟨-, nonce', own, made⟩ := (LogEquality.prove_returns_iff G).1 run
    rwa [(next.unique own).1]
  cases h with
  | keyShare next run =>
    simp only [proveKeyShare, known, present_some, Draw.returns_bind_iff, Draw.returns_liftM_iff,
      Except.ok.injEq] at run
    obtain ⟨_, _, ⟨-, rfl⟩, _, _, ⟨rfl, rfl⟩, run⟩ := run
    exact ⟨_, _, _, drawn next run⟩
  | contribution next run =>
    simp only [partialDecrypt, known, present_some, Draw.returns_bind_iff, Draw.returns_liftM_iff,
      Draw.returns_pure_iff, Except.ok.injEq] at run
    obtain ⟨_, _, ⟨-, rfl⟩, _, _, ⟨rfl, rfl⟩, _, _, ⟨-, rfl⟩, _, _, ⟨-, rfl⟩, _, _, run, rfl, -⟩ := run
    exact ⟨_, _, _, drawn next run⟩
  | batch next run =>
    simp only [partialDecryptBatch, known, present_some, Draw.returns_bind_iff,
      Draw.returns_liftM_iff, Draw.returns_pure_iff, Except.ok.injEq] at run
    obtain ⟨_, _, ⟨-, rfl⟩, _, _, ⟨-, rfl⟩, _, _, ⟨rfl, rfl⟩, _, _, run, rfl, -⟩ := run
    exact ⟨_, _, _, drawn next run⟩

variable [accepted : G.Accepted]

theorem ProvedWith.exists_answer {w : ZMod G.q} (h : ProvedWith G share (G.scalar w) proof)
    (known : share.secret = some secret) :
    ∃ as c, proof = ⟨as, some (G.scalar c), some (G.scalar (w + c * secret))⟩ := by
  obtain ⟨_, _, _, made⟩ := h.exists_run known
  exact LogEquality.exists_answer G made

/-- The nonce of a proof is a scalar. -/
theorem ProvedWith.exists_nonce (h : ProvedWith G share nonce proof) : ∃ w, nonce = G.scalar w := by
  cases h with
  | keyShare next _ | contribution next _ | batch next _ =>
    obtain ⟨w, -, rfl⟩ := G.randomExponent_returns next
    exact ⟨w, rfl⟩

/-- Two proofs made with one share and one nonce give the residue of the secret. -/
theorem ProvedWith.extract_eq (h : ProvedWith G share nonce proof)
    (h' : ProvedWith G share nonce proof') (known : share.secret = some secret)
    (differ : proof.challenge ≠ proof'.challenge) :
    extract G proof proof' = .ok (G.scalar secret) := by
  obtain ⟨w, rfl⟩ := h.exists_nonce
  obtain ⟨as, c, rfl⟩ := h.exists_answer known
  obtain ⟨as', c', rfl⟩ := h'.exists_answer known
  have challenges : c ≠ c' := fun same => differ (by rw [same])
  have quotient : (w + c * secret - (w + c' * secret)) * (c - c')⁻¹ = (secret : ZMod G.q) := by
    rw [mul_inv_eq_iff_eq_mul₀ (sub_ne_zero.2 challenges)]
    ring
  rw [LogEquality.extract_eq challenges, quotient]

/-- Two accepted proofs with different challenges give one number that is the logarithm of every image
that stands beside its base and its commitment in both; and if both were made with one share and one
nonce, the number is the secret of the share. -/
theorem extract_recovers :
    (∀ {context context' : Transcript} {bases bases' images images' : List (Option ℤ)}
        {proof proof' : LogEquality.Proof},
      LogEquality.verify G context bases images proof = .ok true →
      LogEquality.verify G context' bases' images' proof' = .ok true →
      proof.challenge ≠ proof'.challenge →
      ∃ x, extract G proof proof' = .ok x ∧ ∀ i j b y a, HasAt bases images proof i b y a →
        HasAt bases' images' proof' j b y a → G.pow b x = .ok y) ∧
    (∀ {share : KeyShare} {nonce secret : ℤ} {proof proof' : LogEquality.Proof},
      share.secret = some secret → 0 ≤ secret ∧ secret < G.q →
      ProvedWith G share nonce proof → ProvedWith G share nonce proof' →
      proof.challenge ≠ proof'.challenge → extract G proof proof' = .ok secret) := by
  constructor
  · intro context context' bases bases' images images' proof proof' h h' differ
    exact LogEquality.exists_extract h h' differ
  · intro share nonce secret proof proof' known range h h' differ
    rw [h.extract_eq h' known differ, G.scalar_cast_of_bounds range]

/-- The share five, used with one nonce to decrypt and to show that it is known. -/
theorem extract_recovers_least :
    let decryption : LogEquality.Proof :=
      ⟨[some 390430993, some 655242468], some 312733457, some 506768404⟩
    let knowledge : LogEquality.Proof := ⟨[some 390430993], some 656453448, some 77884577⟩
    LogEquality.verify Group.least (decryptionContext [] 1) [some 4, some 16]
        [some 1024, some 1048576] decryption = .ok true ∧
      LogEquality.verify Group.least (keyShareContext [] []) [some 4] [some 1024] knowledge
        = .ok true ∧
      extract Group.least decryption knowledge = .ok 5 ∧ Group.least.pow 4 5 = .ok 1024 := by
  intro decryption knowledge
  have verified : LogEquality.verify Group.least (decryptionContext [] 1) [some 4, some 16]
      [some 1024, some 1048576] decryption = .ok true := by decide +kernel
  have verified' : LogEquality.verify Group.least (keyShareContext [] []) [some 4] [some 1024]
      knowledge = .ok true := by decide +kernel
  have next : (Group.least.randomExponent).Returns (⟨[1, 1, 1, 1]⟩ : Tape) 16843010 ⟨[]⟩ := by
    unfold Draw.Returns
    decide +kernel
  have run : (partialDecrypt Group.least ⟨1, some 5, some 1024⟩ ⟨some 16, some 64⟩ []).Returns
      (⟨[1, 1, 1, 1]⟩ : Tape) ⟨1, some 1048576, decryption⟩ ⟨[]⟩ := by
    unfold Draw.Returns
    decide +kernel
  have run' : (proveKeyShare Group.least ⟨1, some 5, some 1024⟩ [] []).Returns
      (⟨[1, 1, 1, 1]⟩ : Tape) knowledge ⟨[]⟩ := by
    unfold Draw.Returns
    decide +kernel
  have secret : extract Group.least decryption knowledge = .ok 5 :=
    extract_recovers.2 rfl (by decide) (.contribution next run) (.keyShare next run') (by decide)
  obtain ⟨x, hx, powers⟩ := extract_recovers.1 verified verified' (by decide)
  obtain rfl : x = 5 := Except.ok.inj (hx.symm.trans secret)
  exact ⟨verified, verified', secret, powers 0 0 4 1024 390430993 ⟨rfl, rfl, rfl⟩ ⟨rfl, rfl, rfl⟩⟩

end BallotMix.Sharing
