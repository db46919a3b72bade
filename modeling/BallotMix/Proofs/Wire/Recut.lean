import BallotMix.Proofs.Shuffle.Schedules
import BallotMix.Proofs.Verifiers
import BallotMix.Proofs.Wire.Formats
import Mathlib

/-!
# Shuffle proofs whose lists differ in length

A shuffle proof is written behind one count, that of its commitment, and its lists follow one
another with no mark in between.  What is read back therefore has lists of one length (`Level`),
whatever lists were written.  A level proof is read as it was.  One that is not is rejected by every
verifier, but where its responses are as many as they should be and only divided wrongly, its blob
is that of the level proof with the same responses in a row (`recut`), and the verdict on that one
may differ.
-/

namespace BallotMix

namespace Shuffle

/-- The lists of a proof are as long as its commitment. -/
@[mk_iff]
structure Proof.Level (proof : Proof) : Prop where
  sHat : proof.sHat.length = proof.size
  sTilde : proof.sTilde.length = proof.size
  chain : proof.chain.length = proof.size

/-- The elements of a proof are members and its scalars lie in `[0, q)`, however many there are. -/
structure Proof.InRange (G : Group) (proof : Proof) : Prop where
  members : G.Members (proof.commitment ++ proof.chain)
  scalars : G.Scalars
    ([proof.challenge, proof.s1, proof.s2, proof.s3, proof.s4] ++ proof.sHat ++ proof.sTilde)

/-- The proof whose responses, both lists in a row, are divided after the first `k`. -/
def Proof.recut (proof : Proof) (k : ℕ) : Proof :=
  { proof with
    sHat := (proof.sHat ++ proof.sTilde).take k
    sTilde := (proof.sHat ++ proof.sTilde).drop k }

variable {G : Group} {proof : Proof} {k n : ℕ}

/-- A proof is well formed if it is level and its numbers are what they should be. -/
theorem Proof.formed_iff_level :
    proof.Formed G n ↔ proof.InRange G ∧ proof.Level ∧ proof.size = n := by
  constructor
  · rintro ⟨sHat, sTilde, commitment, chain, members, scalars⟩
    have size : proof.size = n := commitment
    subst size
    exact ⟨⟨members, scalars⟩, ⟨sHat, sTilde, chain⟩, rfl⟩
  · rintro ⟨⟨members, scalars⟩, ⟨sHat, sTilde, chain⟩, rfl⟩
    exact ⟨sHat, sTilde, rfl, chain, members, scalars⟩

theorem Proof.inRange_iff :
    proof.InRange G ↔ (∀ x ∈ proof.commitment ++ proof.chain, G.isMember x = true) ∧
      ∀ s ∈ [proof.challenge, proof.s1, proof.s2, proof.s3, proof.s4] ++ proof.sHat ++ proof.sTilde,
        G.isScalar s = true :=
  ⟨fun h => ⟨h.members, Group.scalars_iff.1 h.scalars⟩, fun h => ⟨h.1, Group.scalars_iff.2 h.2⟩⟩

/-! ## Dividing the responses anew -/

@[simp]
theorem Proof.size_recut : (proof.recut k).size = proof.size := rfl

@[simp]
theorem Proof.responses_recut :
    (proof.recut k).sHat ++ (proof.recut k).sTilde = proof.sHat ++ proof.sTilde :=
  List.take_append_drop k _

@[simp]
theorem Proof.length_sHat_recut :
    (proof.recut k).sHat.length = min k (proof.sHat.length + proof.sTilde.length) := by
  simp [recut]

@[simp]
theorem Proof.length_sTilde_recut :
    (proof.recut k).sTilde.length = proof.sHat.length + proof.sTilde.length - k := by
  simp [recut]

@[simp]
theorem Proof.chain_recut : (proof.recut k).chain = proof.chain := rfl

theorem Proof.InRange.writable (h : proof.InRange G) : proof.Writable G :=
  ⟨h.members.residues, h.scalars⟩

theorem Proof.InRange.recut (h : proof.InRange G) (k : ℕ) : (proof.recut k).InRange G := by
  refine ⟨h.members, ?_⟩
  rw [List.append_assoc, Proof.responses_recut, ← List.append_assoc]
  exact h.scalars

/-- Only the division in the middle leaves a level proof level. -/
theorem Proof.Level.recut_iff (level : proof.Level) (nonempty : 1 ≤ proof.size) :
    (proof.recut k).Level ↔ k = proof.size := by
  obtain ⟨sHat, sTilde, chain⟩ := level
  rw [level_iff, size_recut, length_sHat_recut, length_sTilde_recut, chain_recut, sHat, sTilde]
  omega

/-- Responses as many as two lists need are level when divided in the middle. -/
theorem Proof.level_recut_size
    (responses : proof.sHat.length + proof.sTilde.length = 2 * proof.size)
    (chain : proof.chain.length = proof.size) : (proof.recut proof.size).Level := by
  rw [level_iff, size_recut, length_sHat_recut, length_sTilde_recut, chain_recut, responses]
  omega

/-! ## The verifier -/

section Verify

variable [Workers.Scheduler]

/-- No verifier accepts a proof that is not level. -/
theorem verify_eq_false_of_not_level (uneven : ¬ proof.Level) (pk : PublicKey)
    (inputs outputs : List Ciphertext) (options : Options) :
    verify G pk inputs outputs proof options = .ok false := by
  have lengths : sameLengths inputs outputs proof = false := by
    rw [← Bool.not_eq_true, sameLengths_iff]
    rintro ⟨-, -, commitment, chain, sHat, sTilde⟩
    exact uneven ⟨sHat.trans commitment.symm, sTilde.trans commitment.symm,
      chain.trans commitment.symm⟩
  simp [verify, lengths]

theorem level_of_verify {pk : PublicKey} {inputs outputs : List Ciphertext} {options : Options}
    (accepted : verify G pk inputs outputs proof options = .ok true) : proof.Level := by
  by_contra uneven
  rw [verify_eq_false_of_not_level uneven] at accepted
  cases accepted

end Verify

end Shuffle

/-! ## The wire -/

namespace Wire

open Shuffle

variable {G : Group} {proof : Proof} {k : ℕ}

/-- The lists of responses follow one another in the blob. -/
theorem shufflePiece_recut : shufflePiece G (proof.recut k) = shufflePiece G proof := by
  have responses : (proof.recut k).sHat.flatMap (scalarPiece G) ++
      (proof.recut k).sTilde.flatMap (scalarPiece G) =
        proof.sHat.flatMap (scalarPiece G) ++ proof.sTilde.flatMap (scalarPiece G) := by
    rw [← List.flatMap_append, Proof.responses_recut, List.flatMap_append]
  unfold shufflePiece
  rw [← List.append_assoc ((proof.recut k).sHat.flatMap (scalarPiece G)), responses,
    List.append_assoc]
  rfl

/-- Blobs begin with the length of the commitment. -/
theorem size_eq_of_shufflePiece_eq {proof' : Proof} (small : proof.size < 2 ^ 32)
    (small' : proof'.size < 2 ^ 32) (same : shufflePiece G proof = shufflePiece G proof') :
    proof.size = proof'.size := by
  have words := (List.append_inj same (by simp [Bytes.ofUInt32])).1
  have counts := congrArg UInt32.toNat (Bytes.ofUInt32_injective words)
  rwa [UInt32.toNat_ofNat_of_lt' small, UInt32.toNat_ofNat_of_lt' small'] at counts

/-- The lists of a proof take as many bytes together as those of a level proof of its size. -/
def FillsBlob (G : Group) (proof : Proof) : Prop :=
  (proof.sHat.length + proof.sTilde.length) * G.scalarBytes + proof.chain.length * G.elementBytes =
    2 * proof.size * G.scalarBytes + proof.size * G.elementBytes

theorem fillsBlob_of_shufflePiece_eq {level : Proof} (even : level.Level)
    (size : level.size = proof.size) (same : shufflePiece G proof = shufflePiece G level) :
    FillsBlob G proof := by
  have lengths := congrArg List.length same
  rw [length_shufflePiece, length_shufflePiece, even.sHat, even.sTilde, even.chain, size] at lengths
  unfold FillsBlob
  linarith

variable [G.Accepted]

/-- A level proof is read from its blob, unless it is empty. -/
theorem decodeShuffle_of_level (inRange : proof.InRange G) (level : proof.Level)
    (nonempty : 1 ≤ proof.size) (small : proof.size < 2 ^ 32) :
    ∃ decoded, decodeShuffle G (shufflePiece G proof) = .ok decoded ∧ decoded.toProof = proof := by
  have formed : proof.Formed G proof.size := Proof.formed_iff_level.2 ⟨inRange, level, rfl⟩
  obtain ⟨π, same, -⟩ := formed.exists_logs
  have fits : (shuffleFormat G).Fits (proofOf G π) := ⟨proof.size, nonempty, small, same ▸ formed⟩
  exact ⟨_, (shuffleFormat_spelled G).decode_iff.2 ⟨fits, by rw [← same]⟩, same.symm⟩

/-- What is read from the blob of a proof is level, of the same size, and has the same blob, which
the lists of the proof fill. -/
theorem level_of_decodeShuffle {decoded : CompleteProof} (small : proof.size < 2 ^ 32)
    (read : decodeShuffle G (shufflePiece G proof) = .ok decoded) :
    decoded.toProof.Level ∧ decoded.toProof.size = proof.size ∧ FillsBlob G proof ∧
      encodeShuffle G decoded.toProof = .ok (shufflePiece G proof) := by
  obtain ⟨⟨n, -, small', formed⟩, same⟩ := (shuffleFormat_spelled G).decode_iff.1 read
  obtain ⟨inRange, level, rfl⟩ := Proof.formed_iff_level.1 formed
  have size := (size_eq_of_shufflePiece_eq small small' same).symm
  refine ⟨level, size, fillsBlob_of_shufflePiece_eq level size same, ?_⟩
  rw [same]
  exact encodeShuffle_eq inRange.writable

/-- A proof is read back as it was exactly if it is level. -/
theorem toProof_eq_iff_level {decoded : CompleteProof} (inRange : proof.InRange G)
    (small : proof.size < 2 ^ 32)
    (read : decodeShuffle G (shufflePiece G proof) = .ok decoded) :
    decoded.toProof = proof ↔ proof.Level := by
  obtain ⟨level, size, -⟩ := level_of_decodeShuffle small read
  constructor
  · intro same
    exact same ▸ level
  · intro level
    obtain ⟨⟨n, nonempty, -, formed⟩, -⟩ := (shuffleFormat_spelled G).decode_iff.1 read
    obtain ⟨-, -, rfl⟩ := Proof.formed_iff_level.1 formed
    obtain ⟨decoded', read', same⟩ := decodeShuffle_of_level inRange level (size ▸ nonempty) small
    obtain rfl := Except.ok.inj (read.symm.trans read')
    exact same

/-- What becomes of a shuffle proof on the wire.  It is always written.  Its blob is read only if
its lists take as many bytes as those of a level proof, and then as a level proof of the same size
with the same blob: as the proof that was written exactly if that one is level.  A verifier accepts
what was written exactly if it is level and what is read is accepted.  A level proof is read unless
it is empty.  One that is not level is rejected before it is sent; if only the division of its
responses is wrong, it is read as divided in the middle. -/
theorem shuffle_read_back (G : Group) [G.Accepted] {proof : Proof} (inRange : proof.InRange G)
    (small : proof.size < 2 ^ 32) :
    ∃ b, encodeShuffle G proof = .ok b ∧
      (∀ decoded, decodeShuffle G b = .ok decoded →
        (decoded.toProof.Level ∧ decoded.toProof.size = proof.size ∧ FillsBlob G proof ∧
          encodeShuffle G decoded.toProof = .ok b) ∧
        (decoded.toProof = proof ↔ proof.Level) ∧
        ∀ [Workers.Scheduler] (pk : PublicKey) (inputs outputs : List Ciphertext)
          (options : Options), verify G pk inputs outputs proof options = .ok true ↔
            proof.Level ∧ verify G pk inputs outputs decoded.toProof options = .ok true) ∧
      (proof.Level → 1 ≤ proof.size →
        ∃ decoded, decodeShuffle G b = .ok decoded ∧ decoded.toProof = proof) ∧
      (¬ proof.Level → ∀ [Workers.Scheduler] (pk : PublicKey) (inputs outputs : List Ciphertext)
        (options : Options), verify G pk inputs outputs proof options = .ok false) ∧
      (1 ≤ proof.size → proof.sHat.length + proof.sTilde.length = 2 * proof.size →
        proof.chain.length = proof.size →
        ∃ decoded, decodeShuffle G b = .ok decoded ∧
          decoded.toProof = proof.recut proof.size) := by
  refine ⟨shufflePiece G proof, encodeShuffle_eq inRange.writable, ?_, ?_, ?_, ?_⟩
  · intro decoded read
    have same_iff := toProof_eq_iff_level inRange small read
    refine ⟨level_of_decodeShuffle small read, same_iff, ?_⟩
    intro _ pk inputs outputs options
    constructor
    · intro accepted
      have level := level_of_verify accepted
      rw [same_iff.2 level]
      exact ⟨level, accepted⟩
    · rintro ⟨level, accepted⟩
      rwa [same_iff.2 level] at accepted
  · intro level nonempty
    exact decodeShuffle_of_level inRange level nonempty small
  · intro uneven _
    exact verify_eq_false_of_not_level uneven
  · intro nonempty responses chain
    rw [← shufflePiece_recut (k := proof.size)]
    exact decodeShuffle_of_level (inRange.recut _) (Proof.level_recut_size responses chain) nonempty
      small

/-- A proof that is read back, and one with both responses in one list, which is not. -/
theorem shuffle_read_back_least :
    let level : CompleteProof := ⟨38588015, 882165833, 882165833, 897158182, 897158182, [882165833],
      [395442711], [2121465035], [1714300890]⟩
    let uneven : CompleteProof := { level with sHat := [882165833, 395442711], sTilde := [] }
    (∃ b, encodeShuffle Group.least level.toProof = .ok b ∧
      ∃ decoded, decodeShuffle Group.least b = .ok decoded ∧ decoded.toProof = level.toProof) ∧
    ∃ b, encodeShuffle Group.least uneven.toProof = .ok b ∧
      ∃ decoded, decodeShuffle Group.least b = .ok decoded ∧ decoded.toProof ≠ uneven.toProof := by
  intro level uneven
  have inRange : level.toProof.InRange Group.least := Proof.inRange_iff.2 (by decide +kernel)
  have inRange' : uneven.toProof.InRange Group.least := Proof.inRange_iff.2 (by decide +kernel)
  obtain ⟨b, written, -, kept, -⟩ := shuffle_read_back Group.least inRange (by decide)
  obtain ⟨b', written', changes, -, -, recut⟩ := shuffle_read_back Group.least inRange' (by decide)
  obtain ⟨decoded, read, -⟩ := recut (by decide) (by decide) (by decide)
  refine ⟨⟨b, written, kept ⟨rfl, rfl, rfl⟩ (by decide)⟩, b', written', decoded, read, ?_⟩
  rw [Ne, (changes decoded read).2.1, Proof.level_iff]
  decide

set_option maxRecDepth 10000 in
/-- The proof of a shuffle of one ciphertext with both responses in one list.  The verifier rejects
it, but it is written and then read as a different proof, which the verifier accepts. -/
theorem rejected_shuffle_read_as_accepted :
    let sent : CompleteProof := ⟨38588015, 882165833, 882165833, 897158182, 897158182,
      [882165833, 395442711], [], [2121465035], [1714300890]⟩
    let received : CompleteProof := { sent with sHat := [882165833], sTilde := [395442711] }
    let verdict (proof : CompleteProof) : Result Bool := verify Group.least ⟨some 4⟩
      [⟨some 4, some 16⟩] [⟨some 1561723972, some 1951928322⟩] proof.toProof ⟨[], 1⟩
    sent.toProof.InRange Group.least ∧ received ≠ sent ∧
      (∃ b, encodeShuffle Group.least sent.toProof = .ok b ∧
        decodeShuffle Group.least b = .ok received) ∧
      verdict sent = .ok false ∧ verdict received = .ok true := by
  intro sent received verdict
  let blob : Bytes := [0, 0, 0, 1, 2, 76, 206, 111, 52, 148, 200, 73, 52, 148, 200, 73, 53, 121, 140,
    38, 53, 121, 140, 38, 52, 148, 200, 73, 23, 145, 250, 23, 126, 114, 252, 203, 102, 46, 39, 218]
  have written : encodeShuffle Group.least sent.toProof = .ok blob := by decide +kernel
  have read : decodeShuffle Group.least blob = .ok received := by decide +kernel
  have rejected : verdict sent = .ok false := by decide +kernel
  have accepted : verdict received = .ok true := by decide +kernel
  exact ⟨Proof.inRange_iff.2 (by decide +kernel), by decide, ⟨blob, written, read⟩, rejected,
    accepted⟩

/-- Every proof that a verifier accepts has counterparts that it rejects, one for each other
division of the responses, and each is read from its blob as the accepted one. -/
theorem accepted_shuffle_recut [Workers.Scheduler] {pk : PublicKey}
    {inputs outputs : List Ciphertext} {options : Options}
    (accepted : verify G pk inputs outputs proof options = .ok true)
    (small : proof.size < 2 ^ 32) (other : k ≠ proof.size) :
    verify G pk inputs outputs (proof.recut k) options = .ok false ∧
      ∃ b decoded, encodeShuffle G (proof.recut k) = .ok b ∧ decodeShuffle G b = .ok decoded ∧
        decoded.toProof = proof := by
  rw [verify_eq_serial] at accepted
  obtain ⟨complete, d, rfl, run, -⟩ := verify_eq_true_iff.1 accepted
  obtain ⟨-, formed⟩ := formed_of_checks run.lengths run.scalars run.elements
  obtain ⟨inRange, level, size⟩ := Proof.formed_iff_level.1 formed
  have nonempty : 1 ≤ complete.toProof.size := by
    rw [size]
    exact Nat.one_le_iff_ne_zero.2 (sameLengths_iff.1 run.lengths).1
  obtain ⟨decoded, read, same⟩ := decodeShuffle_of_level inRange level nonempty small
  have written := encodeShuffle_eq (inRange.recut k).writable
  rw [shufflePiece_recut] at written
  have uneven : ¬ (complete.toProof.recut k).Level := by rwa [level.recut_iff nonempty]
  exact ⟨verify_eq_false_of_not_level uneven pk inputs outputs options, _, decoded, written, read,
    same⟩

end Wire
end BallotMix
