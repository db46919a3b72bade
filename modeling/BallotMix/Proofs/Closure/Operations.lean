import BallotMix.Proofs.Closure.Rules
import BallotMix.Proofs.ElGamal.Residues
import BallotMix.Proofs.Reencryption
import BallotMix.Proofs.Sharing.Contributions
import BallotMix.Proofs.Shuffle.Completeness
import BallotMix.Proofs.Shuffle.Schedules
import BallotMix.Proofs.Wire.Formats
import BallotMix.Sharing.Combination
import BallotMix.Tally
import Mathlib

/-!
# What operations ensure

Each operation is taken apart into its steps.  It checks what it multiplies and raises to powers, so
its elements are members; its scalars come from operations on scalars, which reduce, or from
challenges and draws.  Images and witnesses of proofs, secrets of shares and exponents of a decryption
are not checked, and need not be: no element is computed from them but as a power of a member.
-/

namespace BallotMix

open Result

variable {G : Group} [accepted : G.Accepted] {σ : Type} [Source σ]

/-! ## Encryption -/

namespace Group

theorem ensures_ensurePair (c : Pair) :
    (G.ensureCiphertext c.toCiphertext).Ensures fun _ => G.IsPair c := by
  intro _ hc
  obtain ⟨_, same, -⟩ := G.ensureCiphertext_eq_ok_iff.1 hc
  obtain rfl := toCiphertext_injective same
  exact isPair_pairOf _

theorem ensures_encrypt (pk : PublicKey) (m r : Option ℤ) : (G.encrypt pk m r).Ensures G.IsPair := by
  unfold encrypt
  refine (ensures_ensureKey pk).bind fun h hh => ?_
  refine (ensures_ensureMember "plaintext" m).bind fun m hm => ?_
  refine ensures_true.bind fun r _ => ?_
  refine (ensures_genPow r).bind fun c1 hc1 => ?_
  refine (ensures_pow hh r).bind fun mask hmask => ?_
  exact (ensures_mul hm hmask).bind fun c2 hc2 => ensures_ok ⟨hc1, hc2⟩

theorem ensures_encryptWithNonce (pk : PublicKey) (m : Option ℤ) :
    (G.encryptWithNonce pk m : Draw σ (Pair × ℤ)).Ensures
      fun encrypted => G.IsPair encrypted.1 ∧ G.IsScalar encrypted.2 := by
  unfold encryptWithNonce
  refine ensures_randomExponent.bind fun r hr => ?_
  refine Draw.ensures_liftM_bind (ensures_encrypt pk m (some r)) fun c hc => ?_
  exact Draw.ensures_pure ⟨hc, hr⟩

theorem ensures_encryptFresh (pk : PublicKey) (m : Option ℤ) :
    (G.encryptFresh pk m : Draw σ Pair).Ensures G.IsPair := by
  unfold encryptFresh
  exact (ensures_encryptWithNonce pk m).bind fun _ h => Draw.ensures_pure h.1

theorem ensures_decrypt (sk : SecretKey) (ct : Ciphertext) :
    (G.decrypt sk ct).Ensures G.IsElement := by
  unfold decrypt
  refine (ensures_ensureCiphertext ct).bind fun c hc => ?_
  refine ensures_true.bind fun x _ => ?_
  refine ensures_true.bind fun e _ => ?_
  exact (ensures_pow hc.c1 e).bind fun unmask hunmask => ensures_mul hc.c2 hunmask

theorem ensures_mulPair {a b : Pair} (ha : G.IsPair a) (hb : G.IsPair b) :
    (G.mulPair a b).Ensures G.IsPair := by
  unfold mulPair
  refine (ensures_mul ha.c1 hb.c1).bind fun c1 hc1 => ?_
  exact (ensures_mul ha.c2 hb.c2).bind fun c2 hc2 => ensures_ok ⟨hc1, hc2⟩

theorem ensures_combine (a b : Ciphertext) : (G.combine a b).Ensures G.IsPair := by
  unfold combine
  refine (ensures_ensureCiphertext a).bind fun a ha => ?_
  exact (ensures_ensureCiphertext b).bind fun b hb => ensures_mulPair ha hb

theorem ensures_reencrypt (pk : PublicKey) (ct : Ciphertext) (r : Option ℤ) :
    (G.reencrypt pk ct r).Ensures G.IsPair := by
  unfold reencrypt
  refine (ensures_ensureCiphertext ct).bind fun c hc => ?_
  exact (ensures_encrypt pk (some 1) r).bind fun blind hblind => ensures_mulPair hc hblind

theorem ensures_reencryptFresh (pk : PublicKey) (ct : Ciphertext) :
    (G.reencryptFresh pk ct : Draw σ Pair).Ensures G.IsPair := by
  unfold reencryptFresh
  refine ensures_randomExponent.bind fun r _ => ?_
  exact Draw.ensures_liftM (ensures_reencrypt pk ct (some r))

theorem ensures_combineKeys (shares : List PublicKey) :
    (G.combineKeys shares).Ensures fun pk => ∃ h, pk = ⟨some h⟩ ∧ G.IsElement h := by
  unfold combineKeys
  simp only [throw_eq_error, error_bind]
  refine Ensures.guard ?_
  refine (ensures_foldlM (fun h hh share _ => ?_) isElement_one).bind fun h hh =>
    ensures_ok ⟨h, rfl, hh⟩
  exact (ensures_ensureKey share).bind fun k hk => ensures_mul hh hk

theorem ensures_encodeResidue (value : UInt64) : (G.encodeResidue value).Ensures G.IsElement := by
  by_cases small : value.toNat < G.q
  · obtain ⟨a, encoded, -⟩ := G.exists_encodeResidue small
    exact ensures_of_exists ⟨_, isElement_element a, encoded⟩
  · unfold encodeResidue
    rw [if_pos (by omega)]
    exact ensures_error _

end Group

open BallotMix.Group

theorem Tally.ensures_accumulate (cts : List Ciphertext) :
    (Tally.accumulate G cts).Ensures G.IsPair := by
  cases cts with
  | nil => exact ensures_error _
  | cons ct cts =>
    unfold Tally.accumulate
    refine ensures_true.bind fun first _ => ?_
    refine (ensures_ensurePair first).bind fun c hc => ?_
    exact ensures_foldlM (fun product _ ct _ => ensures_combine product.toCiphertext ct) hc

/-! ## Proofs -/

omit accepted in
/-- A proof has a power of each base and two scalars, whatever the images and the witness are. -/
theorem LogEquality.ensures_prove_parts {P : ℤ → Prop} {bases : List ℤ}
    (powers : ∀ b ∈ bases, ∀ e, (G.pow b e).Ensures P) (context : Transcript) (images : List ℤ)
    (witness : ℤ) :
    (LogEquality.prove G context bases images witness : Draw σ LogEquality.Proof).Ensures
      fun proof => (∃ as : List ℤ, proof.commitments = as.map some ∧ as.length = bases.length ∧
        ∀ a ∈ as, P a) ∧ G.Scalars [proof.challenge, proof.response] := by
  unfold LogEquality.prove
  simp only [ExceptT.bind_throw]
  refine Draw.Ensures.guard (Draw.ensures_true.bind fun nonce _ => Draw.ensures_liftM ?_)
  unfold proveWith challenge
  refine (ensures_mapM fun b hb => powers b hb nonce).bind fun as has => ?_
  refine (ensures_true.bind fun t _ => ensures_challenge t).bind fun c hc => ?_
  refine ensures_true.bind fun cx _ => ?_
  refine (ensures_scalarAdd nonce cx).bind fun response hresponse => ensures_ok ?_
  exact ⟨⟨as, rfl, has⟩, scalars_cons.2 ⟨hc, scalars_cons.2 ⟨hresponse, scalars_nil⟩⟩⟩

/-- A proof about members is well formed. -/
theorem LogEquality.ensures_prove {bases : List ℤ} (h : ∀ b ∈ bases, G.IsElement b)
    (context : Transcript) (images : List ℤ) (witness : ℤ) :
    (LogEquality.prove G context bases images witness : Draw σ LogEquality.Proof).Ensures
      (LogEquality.Proof.Formed G bases.length) := by
  intro s proof s' run
  obtain ⟨⟨as, commitments, size, members⟩, scalars⟩ :=
    LogEquality.ensures_prove_parts (fun b hb e => ensures_pow (h b hb) e) _ _ _ _ _ _ run
  constructor
  · rw [commitments, List.length_map, size]
  · exact commitments ▸ members_map_some.2 members
  · exact scalars

omit accepted in
theorem LogEquality.Proof.Formed.reencryption {proof : LogEquality.Proof} (h : proof.Formed G 2) :
    (⟨proof.commitments.getD 0 none, proof.commitments.getD 1 none, proof.challenge,
      proof.response⟩ : Reencryption.Proof).Formed G := by
  obtain ⟨commitments, challenge, response⟩ := proof
  obtain ⟨size, members, scalars⟩ := h
  obtain ⟨a, b, rfl⟩ := List.length_eq_two.1 size
  exact ⟨members, scalars⟩

theorem Reencryption.ensures_prove (pk : PublicKey) (input output : Ciphertext) (r : ℤ)
    (domain : Bytes) :
    (Reencryption.prove G pk input output r domain : Draw σ Reencryption.Proof).Ensures
      (Reencryption.Proof.Formed G) := by
  unfold Reencryption.prove
  refine Draw.ensures_liftM_bind (ensures_ensureKey pk) fun h hh => ?_
  refine Draw.ensures_liftM_bind ensures_true fun input _ => ?_
  refine Draw.ensures_liftM_bind ensures_true fun output _ => ?_
  refine Draw.ensures_liftM_bind ensures_true fun images _ => ?_
  have bases : ∀ b ∈ [G.g, h], G.IsElement b := by
    simpa using ⟨isElement_generator, hh⟩
  refine (LogEquality.ensures_prove bases (context domain) images r).bind fun proof formed => ?_
  exact Draw.ensures_pure formed.reencryption

theorem Reencryption.ensures_reencryptWithProof (pk : PublicKey) (ct : Ciphertext) (domain : Bytes) :
    (Reencryption.reencryptWithProof G pk ct domain : Draw σ (Pair × Reencryption.Proof)).Ensures
      fun made => G.IsPair made.1 ∧ made.2.Formed G := by
  unfold Reencryption.reencryptWithProof
  refine ensures_randomExponent.bind fun r _ => ?_
  refine Draw.ensures_liftM_bind (ensures_reencrypt pk ct (some r)) fun output houtput => ?_
  refine (Reencryption.ensures_prove pk ct output.toCiphertext r domain).bind fun proof formed => ?_
  exact Draw.ensures_pure ⟨houtput, formed⟩

/-! ## Shuffles -/

namespace Shuffle

omit accepted in
theorem ensures_respond (c w x : ℤ) : (respond G c w x).Ensures G.IsScalar := by
  unfold respond
  exact ensures_true.bind fun cx _ => ensures_scalarSub w cx

variable [Workers.Scheduler]

/-- A proof is well formed, whatever it is about. -/
theorem ensures_prove (pk : PublicKey) (inputs outputs : List Ciphertext) (permutation : List ℕ)
    (randomizers : List ℤ) (options : Options) :
    (prove G pk inputs outputs permutation randomizers options : Draw σ CompleteProof).Ensures
      fun proof => proof.toProof.Formed G inputs.length := by
  intro s proof s' run
  rw [prove_eq_serial] at run
  obtain ⟨⟨-, -, length, -⟩, places, gens, nonces, derived, drawn, made⟩ := prove_returns_iff.1 run
  have hp : permutation.Perm (List.range inputs.length) :=
    length ▸ Permutation.isPermutation_iff.1 places
  obtain ⟨w, size, rfl⟩ := drawNonces_returns drawn
  obtain ⟨base, hs, rfl, hlength⟩ := generators_returns G derived
  suffices formed : (@proveWith .turns G pk inputs outputs permutation randomizers
      (generatorsOf G base hs) (noncesOf G w) { options with threads := 1 }).Ensures
        fun proof => proof.toProof.Formed G inputs.length from formed proof made
  unfold proveWith
  simp only [noncesOf, commitTo_eq G 1 base hp hlength size.commit, ok_bind]
  refine ensures_true.bind fun T _ => ?_
  obtain ⟨u, hu, ulength⟩ := weights_returns G T inputs.length
  simp only [hu, ok_bind, Permutation.gather_map hp ulength, makeChain_eq]
  refine ensures_true.bind fun h _ => ?_
  refine ensures_true.bind fun outs _ => ?_
  refine ensures_true.bind fun announcement _ => ?_
  refine (ensures_true.bind fun t _ => ensures_challenge t).bind fun c hc => ?_
  refine ensures_true.bind fun x1 _ => (ensures_respond c _ x1).bind fun s1 hs1 => ?_
  refine ensures_true.bind fun products _ => ?_
  refine ensures_true.bind fun x2 _ => (ensures_respond c _ x2).bind fun s2 hs2 => ?_
  refine ensures_true.bind fun x3 _ => (ensures_respond c _ x3).bind fun s3 hs3 => ?_
  refine ensures_true.bind fun x4 _ => (ensures_respond c _ x4).bind fun s4 hs4 => ?_
  refine (ensures_mapM fun wx _ => ensures_respond c wx.1 wx.2).bind fun sHat hHat => ?_
  refine (ensures_mapM fun wx _ => ensures_respond c wx.1 wx.2).bind fun sTilde hTilde => ?_
  refine ensures_ok (Wire.formed_toProof_iff.2 ⟨⟨hc, hs1, hs2, hs3, hs4⟩, ⟨?_, hHat.2⟩,
    ⟨?_, hTilde.2⟩, ⟨?_, ?_⟩, ?_, ?_⟩)
  · simp [hHat.1, size.wHat, size.link]
  · simp [hTilde.1, size.wTilde, length]
  · simp [length]
  · exact List.forall_mem_map.2 fun a _ => G.isMember_element a
  · simp [length_chainLogs, size.link, length]
  · exact List.forall_mem_map.2 fun a _ => G.isMember_element a

theorem ensures_shuffle (pk : PublicKey) (inputs : List Ciphertext) (options : Options) :
    (shuffle G pk inputs options : Draw σ (List Pair × CompleteProof)).Ensures
      fun made => (∀ c ∈ made.1, G.IsPair c) ∧ made.2.toProof.Formed G inputs.length := by
  unfold shuffle
  simp only [ExceptT.bind_throw]
  refine Draw.Ensures.guard ?_
  refine Draw.ensures_liftM_bind ensures_true fun _ _ => ?_
  refine Draw.ensures_liftM_bind ensures_true fun _ _ => ?_
  refine Draw.ensures_true.bind fun permutation _ => ?_
  refine Draw.ensures_true.bind fun randomizers _ => ?_
  refine Draw.ensures_liftM_bind (ensures_forList fun jr _ => ensures_reencrypt pk _ (some jr.2))
    fun outputs members => ?_
  refine (ensures_prove pk inputs _ permutation randomizers options).bind fun proof formed => ?_
  exact Draw.ensures_pure ⟨members.2, formed⟩

end Shuffle

/-! ## Sharing -/

namespace Sharing

theorem ensures_publicShareFrom (x : ℤ) {acc : ℤ} (hacc : G.IsElement acc) (power : ℤ)
    (cs : List (Option ℤ)) : (publicShareFrom G x acc power cs).Ensures G.IsElement := by
  induction cs generalizing acc power with
  | nil => exact ensures_ok hacc
  | cons c cs ih =>
    unfold publicShareFrom
    refine (ensures_ensureMember "share commitment" c).bind fun c hc => ?_
    refine (ensures_pow hc power).bind fun k hk => ?_
    refine (ensures_mul hacc hk).bind fun acc hacc => ?_
    exact ensures_true.bind fun power _ => ih hacc power

/-- What is dealt: members as the key, the commitments and the public halves, scalars as the
secrets. -/
structure Dealing.IsProper (G : Group) (dealing : Dealing) : Prop where
  members : G.Members (dealing.electionKey.h :: dealing.commitments.coefficients ++
    dealing.shares.map KeyShare.publicShare)
  scalars : G.Scalars (dealing.shares.map KeyShare.secret)

theorem ensures_dealSecret (secret : SecretKey) (t n : UInt64) :
    (dealSecret G secret t n : Draw σ Dealing).Ensures (Dealing.IsProper G) := by
  intro s dealing s' run
  obtain ⟨-, _, others, range, drawn, made⟩ := dealSecret_returns_iff.1 run
  obtain ⟨a, -, -, rfl⟩ := G.ensureExponent_eq_ok_iff.1 range
  obtain ⟨as, -, -, rfl⟩ := G.randomExponents_returns drawn
  rw [← List.map_cons, dealPoly_eq, Except.ok.injEq] at made
  subst made
  constructor
  · refine members_append.2 ⟨members_cons.2 ⟨G.isMember_element a, ?_⟩, ?_⟩
    · exact members_map_some.2 (List.forall_mem_map.2 fun b _ => G.isMember_element b)
    · refine List.forall_mem_map.2 fun share hshare => ?_
      rw [(eq_shareOf_of_mem hshare).1]
      exact G.isMember_element _
  · refine scalars_iff.2 (List.forall_mem_map.2 fun share hshare => ?_)
    rw [(eq_shareOf_of_mem hshare).1]
    exact G.isScalar_scalar _

theorem ensures_deal (t n : UInt64) : (deal G t n : Draw σ Dealing).Ensures (Dealing.IsProper G) := by
  unfold deal
  exact Draw.ensures_true.bind fun x _ => ensures_dealSecret ⟨some x⟩ t n

/-- A contribution with a member as its value and a well-formed proof. -/
structure DecryptionShare.IsProper (G : Group) (share : DecryptionShare) : Prop where
  value : G.isMember share.value = true
  proof : share.proof.Formed G 2

theorem ensures_partialDecrypt (share : KeyShare) (ct : Ciphertext) (domain : Bytes) :
    (partialDecrypt G share ct domain : Draw σ DecryptionShare).Ensures
      (DecryptionShare.IsProper G) := by
  unfold partialDecrypt
  refine Draw.ensures_liftM_bind (ensures_ensureCiphertext ct) fun c hc => ?_
  refine Draw.ensures_liftM_bind ensures_true fun secret _ => ?_
  refine Draw.ensures_liftM_bind (ensures_pow hc.c1 secret) fun value hvalue => ?_
  refine Draw.ensures_liftM_bind ensures_true fun publicShare _ => ?_
  have bases : ∀ b ∈ [G.g, c.c1], G.IsElement b := by
    simpa using ⟨isElement_generator, hc.c1⟩
  refine (LogEquality.ensures_prove bases _ _ secret).bind fun proof formed => ?_
  exact Draw.ensures_pure ⟨hvalue, formed⟩

/-- A contribution to a batch with members as its values and a well-formed proof. -/
structure BatchShare.IsProper (G : Group) (share : BatchShare) : Prop where
  values : G.Members share.values
  proof : share.proof.Formed G (share.values.length + 1)

theorem ensures_partialDecryptBatch (share : KeyShare) (cts : List Ciphertext) (domain : Bytes) :
    (partialDecryptBatch G share cts domain : Draw σ BatchShare).Ensures
      (BatchShare.IsProper G) := by
  unfold partialDecryptBatch
  refine Draw.ensures_liftM_bind ensures_true fun publicShare _ => ?_
  have contributed : (contributions G share.secret cts).Ensures
      fun powers => ∀ b ∈ powers, G.IsElement b.1 ∧ G.IsElement b.2 := by
    unfold contributions
    refine (ensures_mapM fun ct _ => ?_).mono fun _ h => h.2
    refine (ensures_ensureCiphertext ct).bind fun c hc => ?_
    refine ensures_true.bind fun secret _ => ?_
    exact (ensures_pow hc.c1 secret).bind fun y hy => ensures_ok ⟨hc.c1, hy⟩
  refine Draw.ensures_liftM_bind contributed fun powers members => ?_
  refine Draw.ensures_liftM_bind ensures_true fun secret _ => ?_
  have bases : ∀ b ∈ G.g :: powers.map Prod.fst, G.IsElement b :=
    List.forall_mem_cons.2 ⟨isElement_generator, List.forall_mem_map.2 fun b hb => (members b hb).1⟩
  refine (LogEquality.ensures_prove bases _ _ secret).bind fun proof formed => ?_
  refine Draw.ensures_pure ⟨members_map_some.2 ?_, ?_⟩
  · exact List.forall_mem_map.2 fun b hb => (members b hb).2
  · simpa using formed

/-! ### Combining -/

/-- What is accepted passed its check, also where the check can fail. -/
theorem ensures_sift {α : Type} (index : α → UInt64) (check : α → Result Bool) (threshold : ℕ)
    (shares : List α) :
    (sift index check threshold shares).Ensures
      fun sifted => ∀ share ∈ sifted.accepted, check share = .ok true := by
  have step (sifted : Sifted α) (h : ∀ share ∈ sifted.accepted, check share = .ok true)
      (share : α) : (siftOne index check sifted share).Ensures
        fun sifted => ∀ share ∈ sifted.accepted, check share = .ok true := by
    have decide_ok (good : Bool) (passed : good = true → check share = .ok true) :
        Ensures (if good then pure ⟨sifted.accepted ++ [share], sifted.rejected⟩
          else pure ⟨sifted.accepted, sifted.rejected ++ [index share]⟩)
          fun sifted : Sifted α => ∀ share ∈ sifted.accepted, check share = .ok true := by
      split
      · next ok => exact ensures_ok (List.forall_mem_append.2 ⟨h, by simpa using passed ok⟩)
      · exact ensures_ok h
    unfold siftOne
    dsimp only
    split
    · exact Ensures.bind (P := fun good => good = true → check share = .ok true)
        (fun good decided passed => passed ▸ decided) decide_ok
    · exact decide_ok false (by simp)
  unfold sift
  simp only [throw_eq_error, error_bind]
  refine Ensures.guard ?_
  refine (ensures_foldlM (fun sifted h share _ => step sifted h share) (by simp)).bind
    fun sifted h => ?_
  exact (ensures_ok h).guard

theorem ensures_interpolateInExponent (indices : List UInt64) {values : List ℤ}
    (h : ∀ v ∈ values, G.IsElement v) :
    (interpolateInExponent G indices values).Ensures G.IsElement := by
  unfold interpolateInExponent
  refine ensures_foldlM (fun product hproduct entry hentry => ?_) isElement_one
  refine ensures_true.bind fun coefficient _ => ?_
  refine (ensures_pow (h _ (List.of_mem_zip hentry).2) coefficient).bind fun power hpower => ?_
  exact ensures_mul hproduct hpower

theorem ensures_openWith {c : Pair} (hc : G.IsPair c) (indices : List UInt64)
    {values : List (Option ℤ)} (h : ∀ v, some v ∈ values → G.IsElement v) :
    (openWith G c indices values).Ensures G.IsElement := by
  unfold openWith
  refine Ensures.bind (P := fun vs => values = vs.map some)
    (fun vs there => mapM_present_eq_ok_iff.1 there) fun vs there => ?_
  have members : ∀ v ∈ vs, G.IsElement v := fun v hv => h v (there ▸ List.mem_map_of_mem hv)
  refine (ensures_interpolateInExponent indices members).bind fun mask hmask => ?_
  exact ensures_div hc.c2 hmask

theorem ensures_combine (commitments : Commitments) (ct : Ciphertext)
    (shares : List DecryptionShare) (domain : Bytes) :
    (combine G commitments ct shares domain).Ensures fun made => G.IsElement made.plaintext := by
  unfold combine
  refine (ensures_ensureCiphertext ct).bind fun c hc => ?_
  refine (ensures_sift _ _ commitments.threshold shares).bind fun sifted checked => ?_
  refine (ensures_openWith hc _ fun v hv => ?_).bind fun m hm => ensures_ok hm
  obtain ⟨share, hshare, same⟩ := List.mem_map.1 hv
  obtain ⟨h, -, verified⟩ := bind_eq_ok_iff.1 (checked share hshare)
  show G.isMember (some v) = true
  rw [← same]
  exact isMember_of_verifyPartial G verified

omit accepted in
theorem mem_of_getD_eq_some {xs : List (Option ℤ)} {k : ℕ} {v : ℤ} (h : xs.getD k none = some v) :
    some v ∈ xs := by
  by_cases inside : k < xs.length
  · rw [List.getD_eq_getElem _ _ inside] at h
    exact h ▸ List.getElem_mem inside
  · rw [List.getD_eq_default _ _ (not_lt.1 inside)] at h
    cases h

theorem ensures_combineBatch (commitments : Commitments) (cts : List Ciphertext)
    (shares : List BatchShare) (domain : Bytes) :
    (combineBatch G commitments cts shares domain).Ensures
      fun made => ∀ m ∈ made.plaintexts, G.IsElement m := by
  unfold combineBatch
  refine (ensures_mapM fun ct _ => ensures_ensureCiphertext ct).bind fun cs hcs => ?_
  refine (ensures_sift _ _ commitments.threshold shares).bind fun sifted checked => ?_
  refine (ensures_mapM fun ck hck => ensures_openWith (hcs.2 _ ?_) _ fun v hv => ?_).bind
    fun ms hms => ensures_ok hms.2
  · exact List.fst_mem_of_mem_zipIdx hck
  · obtain ⟨share, hshare, same⟩ := List.mem_map.1 hv
    obtain ⟨h, -, verified⟩ := bind_eq_ok_iff.1 (checked share hshare)
    refine (isMember_of_verifyPartialBatch verified).2 (some v) ?_
    exact mem_of_getD_eq_some same

end Sharing

end BallotMix
