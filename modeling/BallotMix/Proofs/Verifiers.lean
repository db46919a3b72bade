import BallotMix.Proofs.Formed
import BallotMix.Proofs.Reencryption
import BallotMix.Proofs.Sharing.Contributions
import BallotMix.Proofs.Shuffle.Verifier
import Mathlib

/-!
# Verifiers answer and accept well-formed data only

Every verifier looks at its data before it calculates with them.  What passes these checks is given
by exponents, where no step can fail, and what does not is refused.  So a verifier answers whatever
it is given, and what it accepts is well formed (`Guarded`).  The verifier of shuffles derives its
generators in between, and needs this search to end.
-/

namespace BallotMix

/-- A check that answers, and accepts only what is well formed. -/
structure Guarded (verdict : Result Bool) (formed : Prop) : Prop where
  answers : ∃ b, verdict = .ok b
  formed : verdict = .ok true → formed

theorem Guarded.of_refused {verdict : Result Bool} {formed : Prop} (refused : verdict = .ok false) :
    Guarded verdict formed where
  answers := ⟨false, refused⟩
  formed := by
    intro h
    rw [refused] at h
    cases h

theorem Guarded.mono {verdict : Result Bool} {formed formed' : Prop} (h : Guarded verdict formed)
    (imp : formed → formed') : Guarded verdict formed' :=
  ⟨h.answers, fun accepted => imp (h.formed accepted)⟩

/-! ## Equal logarithms -/

namespace LogEquality

variable (G : Group) [accepted : G.Accepted]

theorem verify_guarded (context : Transcript) (bases images : List (Option ℤ)) (proof : Proof) :
    Guarded (verify G context bases images proof)
      (G.Members (bases ++ images) ∧ proof.Formed G bases.length) where
  answers := exists_verify G context bases images proof
  formed := by
    intro h
    have formed := wellFormed_of_verify G h
    simp only [wellFormed, Bool.and_eq_true, decide_eq_true_eq, List.all_eq_true] at formed
    obtain ⟨⟨⟨⟨⟨⟨⟨-, -⟩, size⟩, challenge⟩, response⟩, bases⟩, images⟩, commitments⟩ := formed
    refine ⟨Group.members_append.2 ⟨bases, images⟩, size, commitments, ?_⟩
    simp [challenge, response]

end LogEquality

/-! ## Re-encryptions -/

namespace Reencryption

variable (G : Group) [accepted : G.Accepted]

theorem verify_guarded (pk : PublicKey) (input output : Ciphertext) (proof : Proof)
    (domain : Bytes) :
    Guarded (verify G pk input output proof domain)
      (G.Members [pk.h, input.c1, input.c2, output.c1, output.c2] ∧ proof.Formed G) where
  answers := exists_verify G pk input output proof domain
  formed := by
    intro h
    obtain ⟨⟨k, a, b, rfl, rfl, rfl⟩, complete⟩ := exists_exponents_of_verify G h
    rw [verify_cipherOf G k a b complete] at h
    obtain ⟨-, -, members, scalars⟩ := (LogEquality.verify_guarded G _ _ _ _).formed h
    exact ⟨by simp, members, scalars⟩

end Reencryption

/-! ## Shares and contributions -/

namespace Sharing

variable (G : Group) [accepted : G.Accepted] (domain : Bytes)

theorem verifyKeyShare_guarded (publicShare : Option ℤ) (proof : LogEquality.Proof)
    (holder : Bytes) :
    Guarded (verifyKeyShare G publicShare proof holder domain)
      (G.Members [publicShare] ∧ proof.Formed G 1) := by
  unfold verifyKeyShare
  split
  · exact .of_refused rfl
  · refine (LogEquality.verify_guarded G _ _ _ _).mono fun ⟨members, formed⟩ => ⟨?_, formed⟩
    exact (Group.members_append.1 members).2

theorem verifyPartial_guarded (publicShare : Option ℤ) (ct : Ciphertext)
    (share : DecryptionShare) :
    Guarded (verifyPartial G publicShare ct share domain)
      (G.Members [publicShare, ct.c1, share.value] ∧ share.proof.Formed G 2) where
  answers := exists_verifyPartial G publicShare ct share domain
  formed := by
    intro h
    obtain ⟨members, formed⟩ :=
      (LogEquality.verify_guarded G _ _ _ _).formed (verify_of_verifyPartial G h)
    simp only [Group.members_append, Group.members_cons, Group.members_nil, and_true] at members ⊢
    exact ⟨⟨members.2.1, members.1.2, members.2.2⟩, formed⟩

theorem verifyPartialBatch_guarded (publicShare : Option ℤ) (cts : List Ciphertext)
    (share : BatchShare) :
    Guarded (verifyPartialBatch G publicShare cts share domain)
      (share.values.length = cts.length ∧
        G.Members (publicShare :: (cts.map Ciphertext.c1 ++ share.values)) ∧
        share.proof.Formed G (cts.length + 1)) where
  answers := exists_verifyPartialBatch G publicShare cts share domain
  formed := by
    intro h
    obtain ⟨size, verified⟩ := verify_of_verifyPartialBatch h
    obtain ⟨members, formed⟩ := (LogEquality.verify_guarded G _ _ _ _).formed verified
    simp only [Group.members_append, Group.members_cons] at members ⊢
    rw [List.length_cons, List.length_map] at formed
    exact ⟨size, ⟨members.2.1, members.1.2, members.2.2⟩, formed⟩

theorem verifyShare_guarded (commitments : Commitments) (share : KeyShare) :
    Guarded (verifyShare G commitments share)
      (G.Members (share.publicShare :: commitments.coefficients) ∧ G.Scalars [share.secret]) := by
  by_cases first : share.index = 0 ∨ G.isScalar share.secret = false
  · exact .of_refused (verifyShare_of_unfit first)
  rw [not_or, Bool.not_eq_false] at first
  obtain ⟨nonzero, scalar⟩ := first
  by_cases members : commitments.coefficients.all G.isMember = true
  · rw [List.all_eq_true] at members
    obtain ⟨coefficients⟩ := commitments
    obtain ⟨as, rfl⟩ := G.exists_members members
    obtain ⟨a, secret⟩ := G.isScalar_iff.1 scalar
    have decided : verifyShare G ⟨(as.map G.element).map some⟩ share = _ :=
      verifyShare_eq nonzero as secret
    refine ⟨⟨_, decided⟩, fun h => ?_⟩
    rw [decided, Except.ok.injEq, Bool.and_eq_true, decide_eq_true_eq, decide_eq_true_eq] at h
    refine ⟨Group.members_cons.2 ⟨?_, members⟩, by simpa using scalar⟩
    rw [h.2]
    exact G.isMember_element _
  · exact .of_refused (by simp [verifyShare, nonzero, scalar, members])

end Sharing

/-! ## Shuffles -/

namespace Shuffle

variable {G : Group} {inputs outputs : List Ciphertext} {proof : Proof}

/-- What passes the checks is well formed. -/
theorem formed_of_checks {threads : ℕ} (lengths : sameLengths inputs outputs proof = true)
    (scalars : scalarsInRange G proof = true)
    (elements : elementsInGroup G threads inputs outputs proof = .ok true) :
    G.MemberPairs (inputs ++ outputs) ∧ proof.Formed G inputs.length := by
  obtain ⟨-, -, commitment, chain, sHat, sTilde⟩ := sameLengths_iff.1 lengths
  obtain ⟨⟨ins, outs⟩, hc, hd⟩ := (elementsInGroup_iff lengths).1 elements
  simp only [scalarsInRange, Bool.and_eq_true, List.all_eq_true] at scalars
  refine ⟨?_, sHat, sTilde, commitment, chain, Group.members_append.2 ⟨hc, hd⟩, ?_⟩
  · refine List.forall_mem_append.2 ⟨fun ct hct => ?_, fun ct hct => ?_⟩
    · simpa using ins ct hct
    · simpa using outs ct hct
  · rw [Group.scalars_append, Group.scalars_append]
    simp only [Group.scalars_iff]
    exact ⟨scalars.1, scalars.2⟩

variable [accepted : G.Accepted]

/-- A well-formed proof is given by exponents. -/
theorem Proof.Formed.exists_logs {n : ℕ} (formed : proof.Formed G n) :
    ∃ π : ProofLogs G.q, proof = (proofOf G π).toProof ∧ π.HasSize n := by
  obtain ⟨challenge, s1, s2, s3, s4, sHat, sTilde, commitment, chain⟩ := proof
  obtain ⟨hHat, hTilde, hcommitment, hchain, members, scalars⟩ := formed
  simp only [Group.scalars_append, Group.scalars_cons, Group.scalars_nil, and_true] at scalars
  simp only at hHat hTilde hcommitment hchain
  obtain ⟨⟨⟨hc, h1, h2, h3, h4⟩, hat⟩, tilde⟩ := scalars
  rw [Group.members_append] at members
  obtain ⟨c, rfl⟩ := G.isScalar_iff.1 hc
  obtain ⟨s1, rfl⟩ := G.isScalar_iff.1 h1
  obtain ⟨s2, rfl⟩ := G.isScalar_iff.1 h2
  obtain ⟨s3, rfl⟩ := G.isScalar_iff.1 h3
  obtain ⟨s4, rfl⟩ := G.isScalar_iff.1 h4
  obtain ⟨hats, rfl⟩ := exists_map_of_forall_mem fun s hs =>
    G.isScalar_iff.1 (Group.scalars_iff.1 hat s hs)
  obtain ⟨tildes, rfl⟩ := exists_map_of_forall_mem fun s hs =>
    G.isScalar_iff.1 (Group.scalars_iff.1 tilde s hs)
  obtain ⟨cs, rfl⟩ := G.exists_members members.1
  obtain ⟨ds, rfl⟩ := G.exists_members members.2
  refine ⟨⟨c, s1, s2, s3, s4, hats, tildes, cs, ds⟩, ?_, ?_⟩
  · simp [proofOf, CompleteProof.toProof, Function.comp_def]
  · simp only [List.length_map] at hHat hTilde hcommitment hchain
    exact ⟨hcommitment, hchain, hHat, hTilde⟩

variable (G) in
/-- With generators the verifier answers, whatever it is given. -/
theorem exists_verify (pk : PublicKey) (inputs outputs : List Ciphertext) (proof : Proof)
    {options : Options} {gens : Generators}
    (hgens : generators G options.domain inputs.length = .ok gens) :
    ∃ b, verify G pk inputs outputs proof options = .ok b := by
  by_cases lengths : sameLengths inputs outputs proof = true
  swap
  · exact ⟨false, by simp [verify, lengths]⟩
  by_cases key : G.isMember pk.h = true
  swap
  · exact ⟨false, by simp [verify, lengths, key]⟩
  by_cases scalars : scalarsInRange G proof = true
  swap
  · exact ⟨false, by simp [verify, lengths, key, scalars]⟩
  by_cases elements : elementsInGroup G options.threads inputs outputs proof = .ok true
  swap
  · have refused := Result.eq_ok_false ⟨_, elementsInGroup_eq G _ _ _ _⟩ elements
    exact ⟨false, by simp [verify, lengths, key, scalars, refused]⟩
  obtain ⟨pairs, formed⟩ := formed_of_checks lengths scalars elements
  obtain ⟨π, rfl, hπ⟩ := formed.exists_logs
  obtain ⟨hn, ho, -⟩ := sameLengths_iff.1 lengths
  obtain ⟨h⟩ := pk
  obtain ⟨y, rfl⟩ := G.isMember_iff.1 key
  obtain ⟨⟨inMembers, outMembers⟩, -⟩ := (elementsInGroup_iff lengths).1 elements
  obtain ⟨ins, rfl⟩ := G.exists_cipherOf_list inMembers
  obtain ⟨outs, rfl⟩ := G.exists_cipherOf_list outMembers
  obtain ⟨base, hs, rfl, size⟩ := generators_returns G hgens
  obtain ⟨T, hT⟩ : ∃ T, statement G options.domain ⟨some (G.element y)⟩ (ins.map G.cipherOf)
      (outs.map G.cipherOf) (π.commitment.map G.element) = .ok T :=
    ⟨_, statement_eq G options.domain y ins outs π.commitment⟩
  obtain ⟨u, hu, u_size⟩ := weights_returns G T (ins.map G.cipherOf).length
  let x : StatementLogs G.q := ⟨base, hs, y, ins, outs, u⟩
  have hx : x.HasSize (ins.map G.cipherOf).length :=
    ⟨size, by rw [List.length_map], by rwa [List.length_map] at ho, u_size⟩
  have run := derives_of_logs G hn hx hπ hgens hT hu
  obtain ⟨c, hc⟩ := exists_finalChallenge G T π.chain (recomputeLogs x π)
  exact ⟨_, run.verify_eq hc⟩

variable (G) in
theorem verify_guarded (pk : PublicKey) (inputs outputs : List Ciphertext) (proof : Proof)
    {options : Options} {gens : Generators}
    (hgens : generators G options.domain inputs.length = .ok gens) :
    Guarded (verify G pk inputs outputs proof options)
      (inputs ≠ [] ∧ outputs.length = inputs.length ∧ G.Members [pk.h] ∧
        G.MemberPairs (inputs ++ outputs) ∧ proof.Formed G inputs.length) where
  answers := exists_verify G pk inputs outputs proof hgens
  formed := by
    intro h
    obtain ⟨complete, d, rfl, run, -⟩ := verify_eq_true_iff.1 h
    obtain ⟨pairs, formed⟩ := formed_of_checks run.lengths run.scalars run.elements
    obtain ⟨hn, ho, -⟩ := sameLengths_iff.1 run.lengths
    exact ⟨List.ne_nil_of_length_pos (by omega), ho, by simpa using run.key, pairs, formed⟩

end Shuffle

/-! ## All verifiers -/

/-- Whatever they are given, the verifiers answer, the one of shuffles if the generators can be
derived; and what they accept has lists of the length of the statement, members for elements and
scalars in `[0, q)`. -/
theorem verifiers_guarded (G : Group) [G.Accepted] (domain : Bytes) :
    (∀ pk inputs outputs (proof : Shuffle.Proof) threads,
      (∃ gens, Shuffle.generators G domain inputs.length = .ok gens) →
        Guarded (Shuffle.verify G pk inputs outputs proof ⟨domain, threads⟩)
          (inputs ≠ [] ∧ outputs.length = inputs.length ∧ G.Members [pk.h] ∧
            G.MemberPairs (inputs ++ outputs) ∧ proof.Formed G inputs.length)) ∧
    (∀ pk input output (proof : Reencryption.Proof),
      Guarded (Reencryption.verify G pk input output proof domain)
        (G.Members [pk.h, input.c1, input.c2, output.c1, output.c2] ∧ proof.Formed G)) ∧
    (∀ publicShare ct (share : Sharing.DecryptionShare),
      Guarded (Sharing.verifyPartial G publicShare ct share domain)
        (G.Members [publicShare, ct.c1, share.value] ∧ share.proof.Formed G 2)) ∧
    (∀ publicShare cts (share : Sharing.BatchShare),
      Guarded (Sharing.verifyPartialBatch G publicShare cts share domain)
        (share.values.length = cts.length ∧
          G.Members (publicShare :: (cts.map Ciphertext.c1 ++ share.values)) ∧
          share.proof.Formed G (cts.length + 1))) ∧
    (∀ publicShare proof holder,
      Guarded (Sharing.verifyKeyShare G publicShare proof holder domain)
        (G.Members [publicShare] ∧ proof.Formed G 1)) ∧
    ∀ commitments share,
      Guarded (Sharing.verifyShare G commitments share)
        (G.Members (share.publicShare :: commitments.coefficients) ∧ G.Scalars [share.secret]) := by
  refine ⟨?shuffle, ?reencryption, Sharing.verifyPartial_guarded G domain,
    Sharing.verifyPartialBatch_guarded G domain, Sharing.verifyKeyShare_guarded G domain,
    Sharing.verifyShare_guarded G⟩
  case shuffle =>
    rintro pk inputs outputs proof threads ⟨gens, hgens⟩
    exact Shuffle.verify_guarded G pk inputs outputs proof hgens
  case reencryption =>
    intro pk input output proof
    exact Reencryption.verify_guarded G pk input output proof domain

/-- Data that are accepted, one set for each verifier, and a contribution without numbers. -/
theorem verifiers_guarded_least :
    let proof : Shuffle.Proof :=
      ⟨some 24779894, some 856143225, some 856143225, some 818816757, some 58371274,
        [some 856143225], [some 58371274], [some 2121465035], [some 1264624184]⟩
    let partialProof : LogEquality.Proof :=
      ⟨[some 390430993, some 655242468], some 312733457, some 506768404⟩
    let keyProof : LogEquality.Proof := ⟨[some 390430993], some 656453448, some 77884577⟩
    let reencryption : Reencryption.Proof :=
      ⟨some 390430993, some 1171387715, some 502824122, some 451573485⟩
    (Shuffle.verify Group.least ⟨some 4⟩ [⟨some 4, some 16⟩] [⟨some 16, some 64⟩] proof ⟨[], 1⟩
      = .ok true ∧ proof.Formed Group.least 1) ∧
    (Reencryption.verify Group.least ⟨some 16384⟩ ⟨some 16, some 64⟩ ⟨some 1024, some 2129789063⟩
      reencryption [] = .ok true ∧ reencryption.Formed Group.least) ∧
    (Sharing.verifyPartial Group.least (some 1024) ⟨some 16, some 64⟩
      ⟨1, some 1048576, partialProof⟩ [] = .ok true ∧
        Group.least.Members [some 1024, some 16, some 1048576]) ∧
    (Sharing.verifyPartialBatch Group.least (some 1024) [⟨some 16, some 64⟩]
      ⟨1, [some 1048576], partialProof⟩ [] = .ok true ∧ partialProof.Formed Group.least 2) ∧
    (Sharing.verifyKeyShare Group.least (some 1024) keyProof [] [] = .ok true ∧
      keyProof.Formed Group.least 1) ∧
    (Sharing.verifyShare Group.least ⟨[some 1024, some 64]⟩ ⟨2, some 11, some 4194304⟩ = .ok true ∧
      Group.least.Members [some 4194304, some 1024, some 64]) ∧
    ∃ b, Sharing.verifyPartial Group.least none ⟨none, none⟩
      ⟨0, some (-1), ⟨[none], some (-1), none⟩⟩ [] = .ok b := by
  intro proof partialProof keyProof reencryption
  obtain ⟨shuffles, reencryptions, partials, batches, keyShares, shares⟩ :=
    verifiers_guarded Group.least []
  have shuffled : Shuffle.verify Group.least ⟨some 4⟩ [⟨some 4, some 16⟩] [⟨some 16, some 64⟩] proof
      ⟨[], 1⟩ = .ok true := by decide +kernel
  have derived : (Shuffle.generators Group.least [] 1).isOk = true := by decide +kernel
  have reencrypted : Reencryption.verify Group.least ⟨some 16384⟩ ⟨some 16, some 64⟩
      ⟨some 1024, some 2129789063⟩ reencryption [] = .ok true := by decide +kernel
  have contributed : Sharing.verifyPartial Group.least (some 1024) ⟨some 16, some 64⟩
      ⟨1, some 1048576, partialProof⟩ [] = .ok true := by decide +kernel
  have batched : Sharing.verifyPartialBatch Group.least (some 1024) [⟨some 16, some 64⟩]
      ⟨1, [some 1048576], partialProof⟩ [] = .ok true := by decide +kernel
  have known : Sharing.verifyKeyShare Group.least (some 1024) keyProof [] [] = .ok true := by
    decide +kernel
  have shared : Sharing.verifyShare Group.least ⟨[some 1024, some 64]⟩
      ⟨2, some 11, some 4194304⟩ = .ok true := by decide +kernel
  refine ⟨⟨shuffled, ?_⟩, ⟨reencrypted, ?_⟩, ⟨contributed, ?_⟩, ⟨batched, ?_⟩, ⟨known, ?_⟩,
    ⟨shared, ?_⟩, ?_⟩
  · have ready := Result.exists_eq_ok_iff.2 derived
    exact ((shuffles _ [⟨some 4, some 16⟩] _ proof 1 ready).formed shuffled).2.2.2.2
  · exact ((reencryptions _ _ _ reencryption).formed reencrypted).2
  · exact ((partials _ _ _).formed contributed).1
  · exact ((batches _ [⟨some 16, some 64⟩] ⟨1, [some 1048576], partialProof⟩).formed batched).2.2
  · exact ((keyShares _ keyProof []).formed known).2
  · exact ((shares _ _).formed shared).1
  · exact (partials _ _ _).answers

end BallotMix
