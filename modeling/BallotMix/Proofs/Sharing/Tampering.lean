import BallotMix.Proofs.LogEquality.Soundness
import BallotMix.Proofs.Sharing.Contributions
import Mathlib

/-!
# Tampering with contributions

The bases of a contribution start with the generator, which is not one.  So no part of its proof can
be changed alone (`verifyPartial_of_altered`), and under a challenge other than zero no value can
(`verifyPartial_of_value_ne`); for batches likewise.  Nothing is assumed about the hash: where the
commitments stay, the recomputed challenge is the old one, and where they change, challenge and
response stay.
-/

namespace BallotMix.Sharing

open LogEquality (Altered)

variable {G : Group} [accepted : G.Accepted] {publicShare : Option ℤ} {domain : Bytes}

variable (G) in
/-- A statement to the base of the generator has a base other than one. -/
theorem exists_base_ne_one (bases : List (Option ℤ)) : ∃ b ∈ some G.g :: bases, b ≠ some 1 :=
  ⟨some G.g, List.mem_cons_self, fun one => G.generator_ne_one (Option.some.inj one)⟩

/-! ## One ciphertext -/

section Contribution

variable {ct : Ciphertext} {share : DecryptionShare}

theorem verifyPartial_of_altered (h : verifyPartial G publicShare ct share domain = .ok true)
    {proof : LogEquality.Proof} (altered : Altered share.proof proof) :
    verifyPartial G publicShare ct { share with proof := proof } domain = .ok false := by
  have verified := verify_of_verifyPartial G h
  apply Result.eq_ok_false (exists_verifyPartial G _ _ _ _)
  intro h'
  have verified' := verify_of_verifyPartial G h'
  exact altered.verify_ne verified (exists_base_ne_one G _) verified'

theorem verifyPartial_of_value_ne (h : verifyPartial G publicShare ct share domain = .ok true)
    (nonzero : share.proof.challenge ≠ some 0) {value : Option ℤ} (ne : value ≠ share.value) :
    verifyPartial G publicShare ct { share with value := value } domain = .ok false := by
  have verified := verify_of_verifyPartial G h
  apply Result.eq_ok_false (exists_verifyPartial G _ _ _ _)
  intro h'
  have verified' := verify_of_verifyPartial G h'
  have images : [publicShare, value] = [publicShare, share.value] :=
    LogEquality.images_eq_of_verify verified' verified nonzero
  apply ne
  simpa using images

end Contribution

/-! ## Batches -/

section Batch

variable {cts : List Ciphertext} {share : BatchShare}

theorem verifyPartialBatch_of_altered
    (h : verifyPartialBatch G publicShare cts share domain = .ok true)
    {proof : LogEquality.Proof} (altered : Altered share.proof proof) :
    verifyPartialBatch G publicShare cts { share with proof := proof } domain = .ok false := by
  obtain ⟨-, verified⟩ := verify_of_verifyPartialBatch h
  apply Result.eq_ok_false (exists_verifyPartialBatch G _ _ _ _)
  intro h'
  obtain ⟨-, verified'⟩ := verify_of_verifyPartialBatch h'
  exact altered.verify_ne verified (exists_base_ne_one G _) verified'

theorem verifyPartialBatch_of_values_ne
    (h : verifyPartialBatch G publicShare cts share domain = .ok true)
    (nonzero : share.proof.challenge ≠ some 0) {values : List (Option ℤ)}
    (ne : values ≠ share.values) :
    verifyPartialBatch G publicShare cts { share with values := values } domain = .ok false := by
  obtain ⟨-, verified⟩ := verify_of_verifyPartialBatch h
  apply Result.eq_ok_false (exists_verifyPartialBatch G _ _ _ _)
  intro h'
  obtain ⟨-, verified'⟩ := verify_of_verifyPartialBatch h'
  have images : publicShare :: values = publicShare :: share.values :=
    LogEquality.images_eq_of_verify verified' verified nonzero
  exact ne (List.cons.inj images).2

end Batch

/-! ## Accepted proofs -/

/-- Accepted proofs of a statement with a base other than one that agree in their commitments, or in
challenge and response, are the same, and a proof with a challenge other than zero is accepted for one
list of images.  So an accepted proof is refused after any change to one of its parts or to the images,
and an accepted contribution after any change to one part of its proof or to its value. -/
theorem verify_not_malleable :
    (∀ {context : Transcript} {bases images : List (Option ℤ)} {proof proof' : LogEquality.Proof},
      LogEquality.verify G context bases images proof = .ok true →
      LogEquality.verify G context bases images proof' = .ok true →
      (∃ b ∈ bases, b ≠ some 1) →
      (proof.commitments = proof'.commitments ∨
        (proof.challenge = proof'.challenge ∧ proof.response = proof'.response)) →
      proof = proof') ∧
    (∀ {context : Transcript} {bases images images' : List (Option ℤ)} {proof : LogEquality.Proof},
      LogEquality.verify G context bases images proof = .ok true → proof.challenge ≠ some 0 →
      images' ≠ images → LogEquality.verify G context bases images' proof = .ok false) ∧
    (∀ {context : Transcript} {bases images : List (Option ℤ)} {proof proof' : LogEquality.Proof},
      LogEquality.verify G context bases images proof = .ok true → (∃ b ∈ bases, b ≠ some 1) →
      Altered proof proof' → LogEquality.verify G context bases images proof' = .ok false) ∧
    (∀ {publicShare : Option ℤ} {ct : Ciphertext} {share : DecryptionShare} {domain : Bytes},
      verifyPartial G publicShare ct share domain = .ok true →
      (∀ proof, Altered share.proof proof →
        verifyPartial G publicShare ct { share with proof := proof } domain = .ok false) ∧
      (share.proof.challenge ≠ some 0 → ∀ value ≠ share.value,
        verifyPartial G publicShare ct { share with value := value } domain = .ok false)) ∧
    (∀ {publicShare : Option ℤ} {cts : List Ciphertext} {share : BatchShare} {domain : Bytes},
      verifyPartialBatch G publicShare cts share domain = .ok true →
      (∀ proof, Altered share.proof proof →
        verifyPartialBatch G publicShare cts { share with proof := proof } domain = .ok false) ∧
      (share.proof.challenge ≠ some 0 → ∀ values ≠ share.values,
        verifyPartialBatch G publicShare cts { share with values := values } domain
          = .ok false)) := by
  refine ⟨?unique, ?images, ?altered, ?contribution, ?batch⟩
  case unique =>
    intro context bases images proof proof' h h' proper agree
    exact LogEquality.eq_of_verify h h' proper agree
  case images =>
    intro context bases images images' proof h nonzero ne
    apply Result.eq_ok_false (LogEquality.exists_verify G _ _ _ _)
    intro h'
    exact ne (LogEquality.images_eq_of_verify h' h nonzero)
  case altered =>
    intro context bases images proof proof' h proper altered
    apply Result.eq_ok_false (LogEquality.exists_verify G _ _ _ _)
    exact altered.verify_ne h proper
  case contribution =>
    intro publicShare ct share domain h
    exact ⟨fun _ altered => verifyPartial_of_altered h altered,
      fun nonzero _ ne => verifyPartial_of_value_ne h nonzero ne⟩
  case batch =>
    intro publicShare cts share domain h
    exact ⟨fun _ altered => verifyPartialBatch_of_altered h altered,
      fun nonzero _ ne => verifyPartialBatch_of_values_ne h nonzero ne⟩

/-- A contribution with the share five, with its response moved by the order of the group, with other
commitments, and with other values. -/
theorem verify_not_malleable_least :
    let proof : LogEquality.Proof :=
      ⟨[some 390430993, some 655242468], some 312733457, some 506768404⟩
    let moved : LogEquality.Proof :=
      ⟨[some 390430993, some 655242468], some 312733457, some (506768404 + 1073741891)⟩
    let recommitted : LogEquality.Proof :=
      ⟨[some 655242468, some 390430993], some 312733457, some 506768404⟩
    let context := decryptionContext [] 1
    let ct : Ciphertext := ⟨some 16, some 64⟩
    LogEquality.verify Group.least context [some 4, some 16] [some 1024, some 1048576] proof
        = .ok true ∧
      LogEquality.verify Group.least context [some 4, some 16] [some 1024, some 1048576] recommitted
        ≠ .ok true ∧
      LogEquality.verify Group.least context [some 4, some 16] [some 1048576, some 1024] proof
        = .ok false ∧
      LogEquality.verify Group.least context [some 4, some 16] [some 1024, some 1048576] moved
        = .ok false ∧
      verifyPartial Group.least (some 1024) ct ⟨1, some 1048576, proof⟩ [] = .ok true ∧
      verifyPartial Group.least (some 1024) ct ⟨1, some 1048576, moved⟩ [] = .ok false ∧
      verifyPartial Group.least (some 1024) ct ⟨1, some 1048577, proof⟩ [] = .ok false ∧
      verifyPartialBatch Group.least (some 1024) [ct] ⟨1, [some 1048576], proof⟩ [] = .ok true ∧
      verifyPartialBatch Group.least (some 1024) [ct] ⟨1, [some 1048576], moved⟩ [] = .ok false ∧
      verifyPartialBatch Group.least (some 1024) [ct] ⟨1, [some 1024], proof⟩ [] = .ok false := by
  intro proof moved recommitted context ct
  have verified : LogEquality.verify Group.least context [some 4, some 16]
      [some 1024, some 1048576] proof = .ok true := by decide +kernel
  have contribution : verifyPartial Group.least (some 1024) ct ⟨1, some 1048576, proof⟩ []
      = .ok true := verified
  have batch : verifyPartialBatch Group.least (some 1024) [ct] ⟨1, [some 1048576], proof⟩ []
      = .ok true := verified
  have proper : ∃ b ∈ [some 4, some 16], b ≠ some (1 : ℤ) := ⟨some 4, by simp, by decide⟩
  have nonzero : proof.challenge ≠ some 0 := by decide
  have altered : Altered proof moved := .response (by decide)
  obtain ⟨unique, images, parts, contributions, batches⟩ :=
    verify_not_malleable (G := Group.least)
  refine ⟨verified, fun h => ?_, images verified nonzero (by decide), parts verified proper altered,
    contribution, (contributions contribution).1 moved altered,
    (contributions contribution).2 nonzero (some 1048577) (by decide), batch,
    (batches batch).1 moved altered, (batches batch).2 nonzero [some 1024] (by decide)⟩
  have same : proof = recommitted := unique verified h proper (Or.inr ⟨rfl, rfl⟩)
  exact absurd same (by decide)

end BallotMix.Sharing
