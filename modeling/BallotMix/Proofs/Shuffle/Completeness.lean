import BallotMix.Proofs.Shuffle.Prover
import Mathlib

/-!
# Shuffles are accepted

Every shuffle that returns gives as many outputs as there are inputs and a proof that every verifier
accepts, and a shuffle returns if the source answers all draws and the generators can be derived.
-/

namespace BallotMix.Shuffle

open Permutation

variable {G : Group} [accepted : G.Accepted] {σ : Type} [Source σ]

/-- What a shuffle returns: the inputs, permuted and blinded, with a proof that is accepted. -/
theorem shuffle_returns {y : ZMod G.q} {inputs : List (ZMod G.q × ZMod G.q)} {options : Options}
    {outputs : List Pair} {proof : CompleteProof} {s s' : σ}
    (h : (shuffle G ⟨some (G.element y)⟩ (inputs.map G.cipherOf) options).Returns s
      (outputs, proof) s') :
    ∃ permutation rs, permutation.Perm (List.range inputs.length) ∧ rs.length = inputs.length ∧
      outputs = (shuffleLogs y inputs permutation rs).map G.pairOf ∧
      ∀ threads, verify G ⟨some (G.element y)⟩ (inputs.map G.cipherOf)
        (outputs.map Pair.toCiphertext) proof.toProof ⟨options.domain, threads⟩ = .ok true := by
  rw [shuffle_returns_iff] at h
  obtain ⟨ne, ⟨_, hk⟩, -, permutation, _, _, gens, drawn, ho, -, -, hgens, hproof⟩ := h
  obtain ⟨y', hy, same, -⟩ := G.ensureKey_eq_ok_iff.1 hk
  obtain rfl : y = y' := by simpa using same
  rw [List.length_map] at drawn hgens
  obtain ⟨hp, ⟨rs, hr, nonzero, rfl⟩, w, size, rfl⟩ := drawShuffle_returns drawn
  obtain ⟨base, hs, rfl, -⟩ := generators_returns G hgens
  rw [permuteAndReencrypt_eq G options.threads hy rfl hp nonzero, Except.ok.injEq] at ho
  subst ho
  have positive : inputs.length ≠ 0 := by simpa using ne
  obtain ⟨made, hmade, accept⟩ := exists_proof G (y := y) options positive rfl hp hr size hgens
  rw [G.map_toCiphertext_pairOf] at hproof
  have same : proof = made := Except.ok.inj (hproof.symm.trans hmade)
  refine ⟨permutation, rs, hp, hr, rfl, fun threads => ?_⟩
  rw [same, G.map_toCiphertext_pairOf]
  exact accept threads

/-- With all randomness drawn and the generators derived, a shuffle returns. -/
theorem exists_shuffle (options : Options) {y : ZMod G.q} (hy : y ≠ 0)
    {inputs : List (ZMod G.q × ZMod G.q)}
    (ne : inputs ≠ []) {gens : Generators}
    (hgens : generators G options.domain inputs.length = .ok gens)
    {drawn : List ℕ × List ℤ × Nonces} {s s' : σ}
    (hdrawn : (drawShuffle G inputs.length).Returns s drawn s') :
    ∃ outputs proof, (shuffle G ⟨some (G.element y)⟩ (inputs.map G.cipherOf) options).Returns s
      (outputs, proof) s' := by
  obtain ⟨permutation, randomizers, nonces⟩ := drawn
  obtain ⟨hp, ⟨rs, hr, nonzero, rfl⟩, w, size, rfl⟩ := drawShuffle_returns hdrawn
  obtain ⟨base, hs, rfl, -⟩ := generators_returns G hgens
  have positive : inputs.length ≠ 0 := by simpa using ne
  obtain ⟨proof, made, -⟩ := exists_proof G (y := y) options positive rfl hp hr size hgens
  have hplen := length_of_perm_range hp
  refine ⟨(shuffleLogs y inputs permutation rs).map G.pairOf, proof, shuffle_returns_iff.2 ?_⟩
  rw [List.length_map]
  refine ⟨by simpa using ne, ⟨_, G.ensureKey_element hy⟩, ⟨_, G.ensureCiphertexts_map inputs⟩,
    permutation, _, _, _, hdrawn, permuteAndReencrypt_eq G options.threads hy rfl hp nonzero, ?_,
    isPermutation_iff.2 (hplen.symm ▸ hp), hgens, ?_⟩
  · simp [shuffleLogs, hplen, hr]
  · rwa [G.map_toCiphertext_pairOf]

/-- A shuffle of members under a proper key that returns gives as many outputs as there are inputs
and a proof that every verifier of the election accepts; and it returns if the source answers all
draws and the generators can be derived. -/
theorem shuffle_complete {pk : PublicKey} {h : ℤ} (key : G.ensureKey pk = .ok h)
    {inputs : List Ciphertext} (ne : inputs ≠ [])
    (members : ∀ ct ∈ inputs, G.isMember ct.c1 = true ∧ G.isMember ct.c2 = true)
    (domain : Bytes) (threads verifierThreads : ℕ) (s : σ) :
    (∀ outputs proof s',
      (shuffle G pk inputs ⟨domain, threads⟩).Returns s (outputs, proof) s' →
        outputs.length = inputs.length ∧
        verify G pk inputs (outputs.map Pair.toCiphertext) proof.toProof
          ⟨domain, verifierThreads⟩ = .ok true) ∧
    ((∃ drawn s', (drawShuffle G inputs.length).Returns s drawn s') →
      (∃ gens, generators G domain inputs.length = .ok gens) →
        ∃ outputs proof s',
          (shuffle G pk inputs ⟨domain, threads⟩).Returns s (outputs, proof) s') := by
  obtain ⟨y, hy, rfl, -⟩ := G.ensureKey_eq_ok_iff.1 key
  obtain ⟨cs, rfl⟩ := G.exists_cipherOf_list members
  constructor
  · intro outputs proof s' run
    obtain ⟨permutation, rs, hp, hr, rfl, accept⟩ := shuffle_returns run
    refine ⟨?_, accept verifierThreads⟩
    simp [shuffleLogs, length_of_perm_range hp, hr]
  · rintro ⟨drawn, s', hdrawn⟩ ⟨gens, hgens⟩
    rw [List.length_map] at hdrawn hgens
    obtain ⟨outputs, proof, run⟩ := exists_shuffle ⟨domain, threads⟩ hy
      (by simpa using ne) hgens hdrawn
    exact ⟨outputs, proof, s', run⟩

set_option maxRecDepth 10000 in
/-- Two ciphertexts shuffled by two workers and verified by one. -/
theorem shuffle_complete_least :
    ∃ outputs proof s',
      (shuffle Group.least ⟨some 4⟩ [⟨some 4, some 16⟩, ⟨some 64, some 4⟩] ⟨[], 2⟩).Returns
        (⟨List.replicate 100 1⟩ : Tape) (outputs, proof) s' ∧
      outputs.length = 2 ∧
      verify Group.least ⟨some 4⟩ [⟨some 4, some 16⟩, ⟨some 64, some 4⟩]
        (outputs.map Pair.toCiphertext) proof.toProof ⟨[], 1⟩ = .ok true := by
  have key : Group.least.ensureKey ⟨some 4⟩ = .ok 4 := by decide +kernel
  have complete := shuffle_complete key (List.cons_ne_nil ⟨some 4, some 16⟩ [⟨some 64, some 4⟩])
    (by decide +kernel) [] 2 1 (⟨List.replicate 100 1⟩ : Tape)
  have drawn := Draw.exists_returns_iff.2 (show Except.isOk ((drawShuffle Group.least 2 :
    Draw Tape _).run ⟨List.replicate 100 1⟩).1 = true by decide +kernel)
  have derived := Result.exists_eq_ok_iff.2
    (show (generators Group.least [] 2).isOk = true by decide +kernel)
  obtain ⟨outputs, proof, s', run⟩ := complete.2 drawn derived
  exact ⟨outputs, proof, s', run, complete.1 outputs proof s' run⟩

end BallotMix.Shuffle
