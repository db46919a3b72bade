import BallotMix.Proofs.Computation
import BallotMix.Proofs.Sharing.Sifting
import Mathlib

/-!
# Batches of one ciphertext

Contributions to one ciphertext and contributions to a batch go through operations of their own.  On a
batch of one ciphertext the two ways agree (`batch_of_one`): in what the verifiers answer, in what a
combination returns or fails with, and in what a holder contributes from one state of a source.
-/

namespace BallotMix.Sharing

/-! ## One ciphertext as a batch -/

/-- The contribution to a ciphertext as one to the batch of this ciphertext alone. -/
def DecryptionShare.toBatch (share : DecryptionShare) : BatchShare :=
  ⟨share.index, [share.value], share.proof⟩

/-- The plaintext of a ciphertext as those of the batch of this ciphertext alone. -/
def Combined.toBatch (combined : Combined) : CombinedBatch :=
  ⟨[combined.plaintext], combined.rejected⟩

/-- Contributions that were sifted, each made into something else. -/
def Sifted.map {α β : Type} (f : α → β) (sifted : Sifted α) : Sifted β :=
  ⟨sifted.accepted.map f, sifted.rejected⟩

/-! ## Verifying -/

theorem verifyPartialBatch_toBatch (G : Group) (publicShare : Option ℤ) (ct : Ciphertext)
    (share : DecryptionShare) (domain : Bytes) :
    verifyPartialBatch G publicShare [ct] share.toBatch domain
      = verifyPartial G publicShare ct share domain := by
  have missing : ([ct].any (fun ct => ct.c1.isNone) || [share.value].any Option.isNone)
      = (share.value.isNone || ct.c1.isNone) := by
    simp [Bool.or_comm]
  unfold verifyPartialBatch verifyPartial DecryptionShare.toBatch
  dsimp only
  rw [missing]
  by_cases unknown : publicShare.isNone = true
  · simp [unknown]
  · simp [unknown]

/-! ## Combining -/

section

variable {α β : Type} (f : α → β) (index : β → UInt64) (check : β → Result Bool)

theorem siftOne_map (sifted : Sifted α) (share : α) :
    siftOne index check (sifted.map f) (f share)
      = Sifted.map f <$> siftOne (index ∘ f) (check ∘ f) sifted share := by
  have seen : (sifted.map f).accepted.map index = sifted.accepted.map (index ∘ f) := by
    simp [Sifted.map]
  unfold siftOne
  rw [seen]
  simp only [Function.comp_apply]
  split
  all_goals
    rw [map_bind]
    refine bind_congr fun good => ?_
    cases good <;> simp [Sifted.map]

theorem foldlM_siftOne_map (sifted : Sifted α) (shares : List α) :
    (shares.map f).foldlM (siftOne index check) (sifted.map f)
      = Sifted.map f <$> shares.foldlM (siftOne (index ∘ f) (check ∘ f)) sifted := by
  induction shares generalizing sifted with
  | nil => rfl
  | cons share shares ih =>
    rw [List.map_cons, List.foldlM_cons, List.foldlM_cons, siftOne_map, bind_map_left, map_bind]
    exact bind_congr ih

/-- Contributions that were made into something else are sifted as they themselves would be. -/
theorem sift_map (threshold : ℕ) (shares : List α) :
    sift index check threshold (shares.map f)
      = Sifted.map f <$> sift (index ∘ f) (check ∘ f) threshold shares := by
  have fold : (shares.map f).foldlM (siftOne index check) ⟨[], []⟩
      = Sifted.map f <$> shares.foldlM (siftOne (index ∘ f) (check ∘ f)) ⟨[], []⟩ :=
    foldlM_siftOne_map f index check ⟨[], []⟩ shares
  rw [sift_eq_bind, sift_eq_bind]
  split
  · rfl
  · rw [fold, bind_map_left, map_bind]
    refine bind_congr fun sifted => ?_
    have same : (sifted.map f).accepted.length = sifted.accepted.length := List.length_map f
    rw [same]
    split <;> rfl

end

theorem combineBatch_toBatch (G : Group) (commitments : Commitments) (ct : Ciphertext)
    (shares : List DecryptionShare) (domain : Bytes) :
    combineBatch G commitments [ct] (shares.map DecryptionShare.toBatch) domain
      = Combined.toBatch <$> combine G commitments ct shares domain := by
  have checks : (fun share : BatchShare => do
      verifyPartialBatch G (some (← publicShare G commitments share.index)) [ct] share domain)
        ∘ DecryptionShare.toBatch
      = (fun share : DecryptionShare => do
        verifyPartial G (some (← publicShare G commitments share.index)) ct share domain) := by
    funext share
    exact bind_congr fun h => verifyPartialBatch_toBatch G (some h) ct share domain
  have single : G.ensureCiphertexts [ct] = (do pure [← G.ensureCiphertext ct]) := by
    simp [Group.ensureCiphertexts]
  unfold combineBatch combine
  rw [single, bind_assoc, map_bind]
  refine bind_congr fun c => ?_
  rw [pure_bind]
  dsimp only
  rw [sift_map, checks, bind_map_left, map_bind]
  refine bind_congr fun sifted => ?_
  simp [Sifted.map, Function.comp_def, DecryptionShare.toBatch, Combined.toBatch]

/-! ## Contributing -/

theorem contributions_singleton (G : Group) (secret : ℤ) (ct : Ciphertext) :
    contributions G (some secret) [ct] = (do
      let c ← G.ensureCiphertext ct
      pure [(c.c1, ← G.pow c.c1 secret)]) := by
  simp [contributions]

theorem partialDecryptBatch_toBatch {σ : Type} [Source σ] (G : Group) (index : UInt64) (x h : ℤ)
    (ct : Ciphertext) (domain : Bytes) :
    (partialDecryptBatch G ⟨index, some x, some h⟩ [ct] domain : Draw σ BatchShare)
      = DecryptionShare.toBatch <$> partialDecrypt G ⟨index, some x, some h⟩ ct domain := by
  simp only [partialDecryptBatch, partialDecrypt, contributions_singleton, present_some,
    Draw.liftM_ok_bind, map_bind]
  cases G.ensureCiphertext ct with
  | error e => rfl
  | ok c =>
    rw [Result.ok_bind, Draw.liftM_ok_bind]
    cases G.pow c.c1 x with
    | error e => rfl
    | ok value => rfl

/-! ## Agreement -/

/-- On a batch of one ciphertext the verifiers answer alike, combinations return the same plaintext
and the same rejected indices or fail alike, and a holder of a key share that lacks no number makes
the same contribution, or fails alike, and leaves the source alike. -/
theorem batch_of_one (G : Group) (ct : Ciphertext) (domain : Bytes) :
    (∀ publicShare share, verifyPartialBatch G publicShare [ct] share.toBatch domain
      = verifyPartial G publicShare ct share domain) ∧
    (∀ commitments shares,
      combineBatch G commitments [ct] (shares.map DecryptionShare.toBatch) domain
        = Combined.toBatch <$> combine G commitments ct shares domain) ∧
    ∀ (σ : Type) [Source σ] (index : UInt64) (x h : ℤ),
      (partialDecryptBatch G ⟨index, some x, some h⟩ [ct] domain : Draw σ BatchShare)
        = DecryptionShare.toBatch <$> partialDecrypt G ⟨index, some x, some h⟩ ct domain :=
  ⟨fun publicShare share => verifyPartialBatch_toBatch G publicShare ct share domain,
    fun commitments shares => combineBatch_toBatch G commitments ct shares domain,
    fun _ _ index x h => partialDecryptBatch_toBatch G index x h ct domain⟩

end BallotMix.Sharing
