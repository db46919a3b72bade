import BallotMix.Proofs.Closure.Operations
import BallotMix.Proofs.Command.Arguments
import BallotMix.Proofs.Command.Calls
import BallotMix.Proofs.Sharing.Threshold
import BallotMix.Proofs.Shuffle.Chain
import Mathlib

/-!
# What commands print

A command that is given printed texts computes with the values they stand for and prints the texts of
what it makes, if its draws are answered.  The values are given by their exponents.
-/

namespace BallotMix.Command

open Sharing Draw

variable {G : Group} [accepted : G.Accepted] {σ : Type} [Source σ] {source source' : σ}

/-! ## Dealing -/

/-- With all its draws answered, a dealer deals. -/
theorem exists_deal {t n : UInt64} (positive : t ≠ 0) (le : t ≤ n) {rs : List ℤ}
    (drawn : (G.randomExponents t.toNat).Returns source rs source') :
    ∃ (y : ZMod G.q) (as : List (ZMod G.q)), y ≠ 0 ∧ (y :: as).length = t.toNat ∧
      (Sharing.deal G t n).Returns source
        ⟨⟨some (G.element y)⟩, commitmentsOf G (y :: as), sharesOf G (y :: as) n⟩ source' := by
  obtain ⟨k, hk⟩ : ∃ k, t.toNat = k + 1 :=
    Nat.exists_eq_succ_of_ne_zero fun zero => positive (UInt64.toNat_inj.1 zero)
  rw [hk] at drawn ⊢
  simp only [Group.randomExponents, returns_bind_iff, returns_pure_iff] at drawn
  obtain ⟨x, middle, first, others, _, rest, rfl, rfl⟩ := drawn
  obtain ⟨y, hy, rfl⟩ := G.randomExponent_returns first
  obtain ⟨as, length, -, rfl⟩ := G.randomExponents_returns rest
  refine ⟨y, as, hy, by rw [List.length_cons, length], returns_bind_iff.2 ⟨_, _, first, ?_⟩⟩
  refine dealSecret_returns_iff.2
    ⟨⟨positive, le⟩, _, as.map G.scalar, G.ensureExponent_scalar hy _, ?_, ?_⟩
  · rwa [hk, Nat.add_sub_cancel]
  · rw [← List.map_cons, dealPoly_eq]

omit [Source σ] in
theorem printShare_shareOf (as : List (ZMod G.q)) (i : UInt64) :
    (printShare (shareOf G as i) : Run σ Unit) = printLine (shareText G as i) := by
  have line := print_printLine (σ := σ) (decimal i ++ ":") (Hex.ofNumber (G.scalar (valueAt as i)))
  exact line

/-- The lines of the shares of a dealing. -/
noncomputable def shareTexts (G : Group) [G.Accepted] (as : List (ZMod G.q)) (n : UInt64) :
    List String :=
  (sharesOf G as n).map fun share => shareText G as share.index

omit [Source σ] in
theorem forM_printShare (as : List (ZMod G.q)) (n : UInt64) :
    ((sharesOf G as n).forM printShare : Run σ Unit) = (shareTexts G as n).forM printLine := by
  refine forM_eq_forM_printLine (List.forall₂_map_right_iff.2 (List.forall₂_same.2 ?_))
  intro share hshare
  rw [(eq_shareOf_of_mem hshare).1]
  exact printShare_shareOf as _

theorem exists_prints_deal {t n : UInt64} (positive : t ≠ 0) (le : t ≤ n)
    (small : n.toNat < 2 ^ 32) {rs : List ℤ}
    (drawn : (G.randomExponents t.toNat).Returns source rs source') :
    ∃ (y : ZMod G.q) (as : List (ZMod G.q)), y ≠ 0 ∧ (y :: as).length = t.toNat ∧
      Prints (deal G [decimal t, decimal n]) source
        (keyText G y :: commitmentsText G (y :: as) :: shareTexts G (y :: as) n) := by
  obtain ⟨y, as, hy, length, dealt⟩ := exists_deal positive le drawn
  have few : (y :: as).length < 2 ^ 32 := by
    rw [length]
    exact (UInt64.le_iff_toNat_le.1 le).trans_lt small
  refine ⟨y, as, hy, length, ?_⟩
  refine prints_lift (numeral_decimal "stoul" t) ?_
  refine prints_lift (numeral_decimal "stoul" n) ?_
  refine prints_draw dealt ?_
  refine prints_lift (present_some _) ?_
  refine Prints.printLine ?_ _
  refine prints_lift (encodeElements_commitmentsOf G few) ?_
  refine Prints.printLine ?_ _
  rw [forM_printShare]
  exact prints_lines _

/-! ## Casting -/

/-- An encryption with a fresh nonce blinds with what is drawn. -/
theorem encryptFresh_returns_iff {y : ZMod G.q} (hy : y ≠ 0) {m : ZMod G.q} {c : Pair} :
    (G.encryptFresh ⟨some (G.element y)⟩ (some (G.element m))).Returns source c source' ↔
      ∃ a ≠ 0, G.randomExponent.Returns source (G.scalar a) source' ∧
        c = G.pairOf ((0, m) + Group.blind y a) := by
  simp only [Group.encryptFresh, Group.encryptWithNonce, returns_bind_iff, returns_liftM_iff,
    returns_pure_iff]
  constructor
  · rintro ⟨_, _, ⟨r, _, drawn, _, _, ⟨made, rfl⟩, rfl, rfl⟩, rfl, rfl⟩
    obtain ⟨a, ha, rfl⟩ := G.randomExponent_returns drawn
    rw [G.encrypt_element hy ha] at made
    exact ⟨a, ha, drawn, (Except.ok.inj made).symm⟩
  · rintro ⟨a, ha, drawn, rfl⟩
    exact ⟨_, _, ⟨_, _, drawn, _, _, ⟨G.encrypt_element hy ha m, rfl⟩, rfl, rfl⟩, rfl, rfl⟩

theorem exists_prints_encrypt {y : ZMod G.q} (hy : y ≠ 0) (value : UInt64) {r : ℤ}
    (drawn : G.randomExponent.Returns source r source') :
    ∃ c, Group.plainLog y c = value.toNat ∧
      Prints (encrypt G [keyText G y, decimal value]) source [ballotText G c] := by
  obtain ⟨a, ha, rfl⟩ := G.randomExponent_returns drawn
  let m : ZMod G.q := value.toNat
  have encrypted : (G.encryptFresh ⟨some (G.element y)⟩ (some (G.element m))).Returns source
      (G.pairOf ((0, m) + Group.blind y a)) source' :=
    (encryptFresh_returns_iff hy).2 ⟨a, ha, drawn, rfl⟩
  refine ⟨(0, m) + Group.blind y a, ?_, ?_⟩
  · rw [Group.plainLog_add_blind]
    simp [Group.plainLog, m]
  · refine prints_lift (keyArgument_keyText G hy) ?_
    refine prints_lift (numeral_decimal "stoull" value) ?_
    refine prints_lift (G.encodeExponential_eq value) ?_
    refine prints_draw encrypted ?_
    refine prints_lift (encodeCiphertext_pairOf G _) ?_
    exact prints_pure.printLine _

/-! ## Shuffling -/

/-- The pairs are a shuffle of others under the key, with a proof of it in the domain. -/
structure IsShuffled (domain : Bytes) (y : ZMod G.q) (cs ds : List (ZMod G.q × ZMod G.q))
    (proof : Shuffle.CompleteProof) : Prop where
  kept : (ds.map (Group.plainLog y)).Perm (cs.map (Group.plainLog y))
  formed : proof.toProof.Formed G cs.length
  verified : ∀ threads, Shuffle.verify G ⟨some (G.element y)⟩ (cs.map G.cipherOf)
    (ds.map G.cipherOf) proof.toProof ⟨domain, threads⟩ = .ok true

theorem mapM_ciphertextArgument (cs : List (ZMod G.q × ZMod G.q)) :
    (cs.map (ballotText G)).mapM (ciphertextArgument G) = .ok (cs.map G.cipherOf) := by
  rw [List.mapM_map]
  exact Result.mapM_eq_ok fun c _ => ciphertextArgument_ballotText G c

omit [Source σ] in
theorem forM_printCiphertext (cs : List (ZMod G.q × ZMod G.q)) :
    ((cs.map G.pairOf).forM fun c => do
      printLine (← blobText (Wire.encodeCiphertext G c.toCiphertext)) : Run σ Unit)
      = (cs.map (ballotText G)).forM printLine := by
  refine forM_eq_forM_printLine (List.forall₂_map_left_iff.2 (List.forall₂_map_right_iff.2
    (List.forall₂_same.2 fun c _ => ?_)))
  rw [encodeCiphertext_pairOf]
  rfl

theorem encodeShuffle_proof {n : ℕ} (positive : n ≠ 0) (small : n < 2 ^ 32)
    {proof : Shuffle.CompleteProof} (formed : proof.toProof.Formed G n) :
    blobText (Wire.encodeShuffle G proof.toProof) = .ok (proofText G proof) :=
  blobText_encode (Wire.shuffleFormat_spelled G)
    ⟨n, Nat.one_le_iff_ne_zero.2 positive, small, formed⟩

theorem exists_prints_shuffle {y : ZMod G.q} (hy : y ≠ 0) {cs : List (ZMod G.q × ZMod G.q)}
    (ne : cs ≠ []) (small : cs.length < 2 ^ 32) {domain : Bytes} (threads : ℕ)
    {gens : Shuffle.Generators} (derived : Shuffle.generators G domain cs.length = .ok gens)
    {drawn : List ℕ × List ℤ × Shuffle.Nonces}
    (answered : (Shuffle.drawShuffle G cs.length).Returns source drawn source') :
    ∃ ds proof, IsShuffled domain y cs ds proof ∧
      Prints (shuffle G ⟨domain, threads⟩ (keyText G y :: cs.map (ballotText G))) source
        (ds.map (ballotText G) ++ [proofText G proof]) := by
  obtain ⟨outputs, proof, run⟩ := Shuffle.exists_shuffle ⟨domain, threads⟩ hy ne derived answered
  obtain ⟨-, formed⟩ := Shuffle.ensures_shuffle _ _ _ _ _ _ run
  obtain ⟨permutation, rs, hp, hr, outs, verified⟩ := Shuffle.shuffle_returns run
  subst outs
  rw [G.map_toCiphertext_pairOf] at verified
  rw [List.length_map] at formed
  have positive : cs.length ≠ 0 := by rwa [Ne, List.length_eq_zero_iff]
  refine ⟨_, proof, ⟨Shuffle.plainLogs_shuffleLogs y hp hr, formed, verified⟩, ?_⟩
  obtain ⟨c, rest, rfl⟩ := List.exists_cons_of_ne_nil ne
  refine prints_lift (keyArgument_keyText G hy) ?_
  refine prints_lift (mapM_ciphertextArgument (c :: rest)) ?_
  refine prints_draw run ?_
  rw [forM_printCiphertext]
  refine Prints.forM_printLine ?_ _
  refine prints_lift (encodeShuffle_proof positive small formed) ?_
  exact prints_pure.printLine _

theorem countFits_twice (n : ℕ) : countFits (n + n + 4) (UInt64.ofNat n) = true := by
  rw [countFits, decide_eq_true_eq, ← two_mul, UInt64.ofNat_add, UInt64.ofNat_mul, UInt64.add_comm]
  rfl

omit [Source σ] in
theorem prints_verifyShuffle {y : ZMod G.q} (hy : y ≠ 0) {cs ds : List (ZMod G.q × ZMod G.q)}
    (ne : cs ≠ []) (small : cs.length < 2 ^ 32) {domain : Bytes} {proof : Shuffle.CompleteProof}
    (shuffled : IsShuffled domain y cs ds proof) (threads : ℕ) :
    Prints (verifyShuffle G ⟨domain, threads⟩ (keyText G y :: proofText G proof ::
      decimal (UInt64.ofNat cs.length) ::
        (cs.map (ballotText G) ++ ds.map (ballotText G)))) source ["OK"] := by
  obtain ⟨kept, formed, verified⟩ := shuffled
  have positive : cs.length ≠ 0 := by rwa [Ne, List.length_eq_zero_iff]
  have many : ds.length = cs.length := by simpa using kept.length_eq
  have count : (UInt64.ofNat cs.length).toNat = cs.length :=
    UInt64.toNat_ofNat_of_lt' (small.trans (by decide))
  have decoded : Wire.decodeShuffle G (Wire.shufflePiece G proof.toProof) = .ok proof :=
    (Wire.shuffleFormat_spelled G).decode_iff.2
      ⟨⟨_, Nat.one_le_iff_ne_zero.2 positive, small, formed⟩, rfl⟩
  have inputs := ciphertextsAt_ballotTexts G [] (ds.map (ballotText G)) cs
  have outputs := ciphertextsAt_ballotTexts G (cs.map (ballotText G)) [] ds
  rw [List.nil_append] at inputs
  rw [List.append_nil, List.length_map, many] at outputs
  have fits : expectArguments (countFits ((cs.map (ballotText G) ++ ds.map (ballotText G)).length + 4)
      (UInt64.ofNat cs.length)) "verify-shuffle: expected 2n ciphertexts" = .ok () := by
    rw [List.length_append, List.length_map, List.length_map, many, countFits_twice]
    rfl
  refine prints_lift (keyArgument_keyText G hy) ?_
  refine prints_lift (Hex.bytes_ofBytes _) ?_
  refine prints_lift decoded ?_
  refine prints_lift (numeral_decimal "stoul" _) ?_
  refine prints_lift fits ?_
  rw [count]
  refine prints_lift inputs ?_
  refine prints_lift outputs ?_
  refine prints_lift (verified threads) ?_
  exact prints_pure.printLine "OK"

/-! ## Opening -/

/-- With its draw answered, a holder contributes, whatever number the secret is. -/
theorem exists_partialDecrypt (i : UInt64) (x : ℤ) (a : ZMod G.q) (c : ZMod G.q × ZMod G.q)
    (domain : Bytes) {r : ℤ} (drawn : G.randomExponent.Returns source r source') :
    ∃ share, (partialDecrypt G ⟨i, some x, some (G.element a)⟩ (G.cipherOf c) domain).Returns source
      share source' := by
  obtain ⟨w, -, rfl⟩ := G.randomExponent_returns drawn
  obtain ⟨_, -, made⟩ := LogEquality.proveWith_logs G (decryptionContext domain i) [1, c.1]
    [a, c.1 * x.natAbs] x w
  have bases : [1, c.1].map G.element = [G.g, G.element c.1] := by
    rw [G.generator_eq_element]
    rfl
  rw [bases] at made
  have proved := (LogEquality.prove_returns_iff G).2
    ⟨⟨List.cons_ne_nil _ _, by simp⟩, _, drawn, made⟩
  simp only [partialDecrypt, G.ensureCiphertext_cipherOf, present_some, returns_bind_iff,
    returns_liftM_iff, returns_pure_iff, Group.pairOf]
  exact ⟨_, _, _, ⟨rfl, rfl⟩, _, _, ⟨rfl, rfl⟩, _, _, ⟨G.pow_element c.1 x, rfl⟩, _, _, ⟨rfl, rfl⟩,
    _, _, proved, rfl, rfl⟩

omit accepted in
theorem index_of_partialDecrypt {share : KeyShare} {ct : Ciphertext} {domain : Bytes}
    {contribution : DecryptionShare}
    (run : (partialDecrypt G share ct domain).Returns source contribution source') :
    contribution.index = share.index := by
  simp only [partialDecrypt, returns_bind_iff, returns_pure_iff] at run
  obtain ⟨_, _, -, _, _, -, _, _, -, _, _, -, _, _, -, rfl, -⟩ := run
  rfl

/-- Whatever contribution is made, it is printed if its index takes 32 bits. -/
theorem encodeShare_of_partialDecrypt {share : KeyShare} {ct : Ciphertext} {domain : Bytes}
    {contribution : DecryptionShare}
    (run : (partialDecrypt G share ct domain).Returns source contribution source')
    (small : share.index.toNat < 2 ^ 32) :
    (Wire.shareFormat G).Fits contribution ∧
      blobText (Wire.encodeShare G contribution) = .ok (contributionText G contribution) := by
  obtain ⟨value, formed⟩ := ensures_partialDecrypt _ _ _ _ _ _ run
  have fits : (Wire.shareFormat G).Fits contribution := by
    refine ⟨by rwa [index_of_partialDecrypt run],
      Group.members_cons.2 ⟨value, Group.members_nil⟩, ?_, ?_⟩
    · rw [formed.size]
      decide
    · rwa [formed.size]
  exact ⟨fits, blobText_encode (Wire.shareFormat_spelled G) fits⟩

theorem exists_prints_partial {as : List (ZMod G.q)} {i : UInt64} (small : i.toNat < 2 ^ 32)
    (c : ZMod G.q × ZMod G.q) (domain : Bytes) {r : ℤ}
    (drawn : G.randomExponent.Returns source r source') :
    ∃ share, Contributes G (shareOf G as i) (G.cipherOf c) domain share ∧
      (Wire.shareFormat G).Fits share ∧
      Prints (partialDecryption G domain [shareText G as i, ballotText G c]) source
        [contributionText G share] := by
  have made := exists_partialDecrypt i (G.scalar (valueAt as i)) (valueAt as i) c domain drawn
  obtain ⟨share, run⟩ : ∃ share, (partialDecrypt G (shareOf G as i) (G.cipherOf c) domain).Returns
      source share source' := made
  obtain ⟨fits, text⟩ := encodeShare_of_partialDecrypt run small
  refine ⟨share, ⟨σ, inferInstance, _, _, run⟩, fits, ?_⟩
  refine prints_lift (shareArgument_shareText G as i) ?_
  refine prints_lift (ciphertextArgument_ballotText G c) ?_
  refine prints_draw run ?_
  refine prints_lift text ?_
  exact prints_pure.printLine _

theorem decodeShare_contributionText {share : DecryptionShare}
    (fits : (Wire.shareFormat G).Fits share) :
    Hex.bytes (contributionText G share) >>= Wire.decodeShare G = .ok share := by
  rw [contributionText, Hex.bytes_ofBytes, Result.ok_bind]
  exact (Wire.shareFormat_spelled G).decode_iff.2 ⟨fits, rfl⟩

theorem mapM_decodeShare {shares : List DecryptionShare}
    (fits : ∀ share ∈ shares, (Wire.shareFormat G).Fits share) :
    ((shares.map (contributionText G)).mapM fun s => do Wire.decodeShare G (← Hex.bytes s))
      = .ok shares := by
  rw [List.mapM_map]
  refine (Result.mapM_eq_ok (g := id) fun share hshare => ?_).trans (by rw [List.map_id])
  exact decodeShare_contributionText (fits share hshare)

omit [Source σ] in
theorem prints_combine {as : List (ZMod G.q)} (ne : as ≠ []) (small : as.length < 2 ^ 32)
    {c : ZMod G.q × ZMod G.q} {domain : Bytes} {shares : List DecryptionShare}
    (fits : ∀ share ∈ shares, (Wire.shareFormat G).Fits share) {value : UInt64}
    (combined : Sharing.combine G (commitmentsOf G as) (G.cipherOf c) shares domain
      = .ok ⟨G.element (value.toNat : ZMod G.q), []⟩)
    (low : value ≤ defaultSearchBound) (below : value.toNat < G.q) :
    Prints (combine G domain (commitmentsText G as :: ballotText G c ::
      shares.map (contributionText G))) source [decimal value] := by
  refine prints_lift (commitmentsArgument_commitmentsText G ne small) ?_
  refine prints_lift (ciphertextArgument_ballotText G c) ?_
  refine prints_lift (mapM_decodeShare fits) ?_
  refine prints_lift combined ?_
  refine prints_lift (G.decodeExponential_encode low (by decide) below) ?_
  exact prints_pure.printLine _

end BallotMix.Command
