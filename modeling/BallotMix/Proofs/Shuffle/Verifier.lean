import BallotMix.Proofs.Group.Generators
import BallotMix.Proofs.Shuffle.Exponents
import BallotMix.Proofs.Transcript
import Mathlib

/-!
# What the verifier derives

A run of the verifier passes its checks, derives generators, scalars and an announcement
(`Derives`), and compares the challenge for it with the challenge of the proof
(`verify_eq_true_iff`).  The checks hold exactly for statements and proofs that are given by
exponents with lists of one length (`Derives.exists_logs`).
-/

namespace BallotMix.Shuffle

/-! ## Runs of the verifier -/

theorem complete_eq_ok_iff {proof : Proof} {complete : CompleteProof} :
    proof.complete = .ok complete ↔ proof = complete.toProof := by
  obtain ⟨challenge, s1, s2, s3, s4, sHat, sTilde, commitment, chain⟩ := proof
  simp only [Proof.complete, Result.bind_eq_ok_iff, Result.pure_eq_ok,
    Result.present_eq_ok_iff, Result.mapM_present_eq_ok_iff, CompleteProof.toProof,
    Except.ok.injEq, Proof.mk.injEq]
  constructor
  · rintro ⟨c, rfl, a1, rfl, a2, rfl, a3, rfl, a4, rfl, hat, rfl, tilde, rfl, cs, rfl, ds, rfl, rfl⟩
    simp
  · rintro ⟨rfl, rfl, rfl, rfl, rfl, rfl, rfl, rfl, rfl⟩
    exact ⟨_, rfl, _, rfl, _, rfl, _, rfl, _, rfl, _, rfl, _, rfl, _, rfl, _, rfl, rfl⟩

theorem toProof_injective : Function.Injective CompleteProof.toProof := by
  intro complete complete' same
  have h := complete_eq_ok_iff.2 same
  rw [complete_eq_ok_iff.2 rfl, Except.ok.injEq] at h
  exact h

/-- What a run of the verifier derives before it takes the challenge. -/
structure Derivation where
  gens : Generators
  statement : Transcript
  u : List ℤ
  /-- The announcement that satisfies all equations. -/
  announcement : Announcement

/-- A run of the verifier passes its checks and derives what is listed. -/
structure Derives (G : Group) (pk : PublicKey) (inputs outputs : List Ciphertext)
    (proof : CompleteProof) (options : Options) (d : Derivation) : Prop where
  lengths : sameLengths inputs outputs proof.toProof = true
  key : G.isMember pk.h = true
  scalars : scalarsInRange G proof.toProof = true
  elements : elementsInGroup G options.threads inputs outputs proof.toProof = .ok true
  gens : generators G options.domain inputs.length = .ok d.gens
  statement :
    Shuffle.statement G options.domain pk inputs outputs proof.commitment = .ok d.statement
  u : weights G d.statement inputs.length = .ok d.u
  announcement : ∃ h ins outs, present pk.h = .ok h ∧ inputs.mapM Ciphertext.pair = .ok ins ∧
    outputs.mapM Ciphertext.pair = .ok outs ∧
    recompute G options.threads d.gens h ins outs d.u proof = .ok d.announcement

variable {G : Group} {pk : PublicKey} {inputs outputs : List Ciphertext} {options : Options}

/-- The verifier accepts exactly if the challenge for what it derives is that of the proof. -/
theorem verify_eq_true_iff {proof : Proof} :
    verify G pk inputs outputs proof options = .ok true ↔
      ∃ complete d, proof = complete.toProof ∧ Derives G pk inputs outputs complete options d ∧
        finalChallenge G d.statement complete.chain d.announcement = .ok complete.challenge := by
  simp only [verify, Result.pure_eq_ok, Result.bind_eq_ok_iff, Result.ite_false_eq_true_iff,
    Bool.not_eq_true', Bool.not_eq_false, complete_eq_ok_iff, Except.ok.injEq, decide_eq_true_eq]
  constructor
  · rintro ⟨lengths, key, scalars, _, elements, rfl, complete, rfl, gens, hgens, T, hT, u, hu, h, hh,
      ins, hin, outs, hout, t, ht, c, hc, rfl⟩
    refine ⟨complete, ⟨gens, T, u, t⟩, rfl, ?_, hc⟩
    exact ⟨lengths, key, scalars, elements, hgens, hT, hu, h, ins, outs, hh, hin, hout, ht⟩
  · rintro ⟨complete, d, rfl, run, hc⟩
    obtain ⟨h, ins, outs, hh, hin, hout, ht⟩ := run.announcement
    exact ⟨run.lengths, run.key, run.scalars, true, run.elements, rfl, complete, rfl, d.gens,
      run.gens, d.statement, run.statement, d.u, run.u, h, hh, ins, hin, outs, hout, d.announcement,
      ht, _, hc, rfl⟩

/-- A run derives one thing. -/
theorem Derives.unique {proof : CompleteProof} {d d' : Derivation}
    (run : Derives G pk inputs outputs proof options d)
    (run' : Derives G pk inputs outputs proof options d') : d = d' := by
  obtain ⟨gens, T, u, t⟩ := d
  obtain ⟨gens', T', u', t'⟩ := d'
  obtain ⟨h, ins, outs, hh, hins, houts, ht⟩ := run.announcement
  obtain ⟨h', ins', outs', hh', hins', houts', ht'⟩ := run'.announcement
  obtain rfl : gens = gens' := Except.ok.inj (run.gens.symm.trans run'.gens)
  obtain rfl : T = T' := Except.ok.inj (run.statement.symm.trans run'.statement)
  obtain rfl : u = u' := Except.ok.inj (run.u.symm.trans run'.u)
  obtain rfl := Except.ok.inj (hh.symm.trans hh')
  obtain rfl := Except.ok.inj (hins.symm.trans hins')
  obtain rfl := Except.ok.inj (houts.symm.trans houts')
  obtain rfl : t = t' := Except.ok.inj (ht.symm.trans ht')
  rfl

/-- After a run the challenge decides. -/
theorem Derives.verify_iff {proof : CompleteProof} {d : Derivation}
    (run : Derives G pk inputs outputs proof options d) :
    verify G pk inputs outputs proof.toProof options = .ok true ↔
      finalChallenge G d.statement proof.chain d.announcement = .ok proof.challenge := by
  rw [verify_eq_true_iff]
  constructor
  · rintro ⟨complete, d', same, run', hc⟩
    obtain rfl := toProof_injective same
    obtain rfl := run.unique run'
    exact hc
  · intro hc
    exact ⟨proof, d, rfl, run, hc⟩

/-- After a run the challenge for what was derived is compared. -/
theorem Derives.verify_eq {proof : CompleteProof} {d : Derivation}
    (run : Derives G pk inputs outputs proof options d) {c : ℤ}
    (hc : finalChallenge G d.statement proof.chain d.announcement = .ok c) :
    verify G pk inputs outputs proof.toProof options = .ok (decide (c = proof.challenge)) := by
  obtain ⟨h, ins, outs, hh, hins, houts, announced⟩ := run.announcement
  simp only [verify, run.lengths, run.key, run.scalars, run.elements, complete_eq_ok_iff.2 rfl,
    run.gens, run.statement, run.u, hh, hins, houts, announced, hc, Result.ok_bind, Bool.not_true,
    Bool.false_eq_true, if_false, Result.pure_eq_ok]

/-! ## Checks by exponents -/

theorem sameLengths_iff {proof : Proof} :
    sameLengths inputs outputs proof = true ↔
      inputs.length ≠ 0 ∧ outputs.length = inputs.length ∧
        proof.commitment.length = inputs.length ∧ proof.chain.length = inputs.length ∧
          proof.sHat.length = inputs.length ∧ proof.sTilde.length = inputs.length := by
  simp [sameLengths, and_assoc]

theorem sameLengths_eq_true_iff {proof : CompleteProof} :
    sameLengths inputs outputs proof.toProof = true ↔
      inputs.length ≠ 0 ∧ outputs.length = inputs.length ∧
        proof.commitment.length = inputs.length ∧ proof.chain.length = inputs.length ∧
          proof.sHat.length = inputs.length ∧ proof.sTilde.length = inputs.length := by
  simp [sameLengths_iff, CompleteProof.toProof]

theorem elementsInGroup_eq (G : Group) (threads : ℕ) (inputs outputs : List Ciphertext)
    (proof : Proof) :
    elementsInGroup G threads inputs outputs proof =
      .ok (((inputs.zip outputs).zip (proof.commitment.zip proof.chain)).all fun row =>
        [row.1.1.c1, row.1.1.c2, row.1.2.c1, row.1.2.c2, row.2.1, row.2.2].all G.isMember) := by
  rw [elementsInGroup]
  simp only [Result.pure_eq_ok]
  rw [Workers.forList_eq_ok fun row _ => rfl, Result.ok_bind, List.all_map]
  rfl

theorem forall_mem_zip_iff {α β : Type} {as : List α} {bs : List β} (h : as.length = bs.length)
    {P : α → Prop} {Q : β → Prop} :
    (∀ ab ∈ as.zip bs, P ab.1 ∧ Q ab.2) ↔ (∀ a ∈ as, P a) ∧ ∀ b ∈ bs, Q b := by
  constructor
  · intro all
    constructor
    · intro a ha
      rw [← List.map_fst_zip h.le, List.mem_map] at ha
      obtain ⟨ab, hab, rfl⟩ := ha
      exact (all ab hab).1
    · intro b hb
      rw [← List.map_snd_zip h.ge, List.mem_map] at hb
      obtain ⟨ab, hab, rfl⟩ := hb
      exact (all ab hab).2
  · rintro ⟨ha, hb⟩ ab hab
    exact ⟨ha _ (List.of_mem_zip hab).1, hb _ (List.of_mem_zip hab).2⟩

/-- With lists of one length all ciphertexts and all elements of the proof are looked at. -/
theorem elementsInGroup_iff {threads : ℕ} {proof : Proof}
    (h : sameLengths inputs outputs proof = true) :
    elementsInGroup G threads inputs outputs proof = .ok true ↔
      ((∀ ct ∈ inputs, G.isMember ct.c1 = true ∧ G.isMember ct.c2 = true) ∧
        ∀ ct ∈ outputs, G.isMember ct.c1 = true ∧ G.isMember ct.c2 = true) ∧
      (∀ x ∈ proof.commitment, G.isMember x = true) ∧ ∀ x ∈ proof.chain, G.isMember x = true := by
  obtain ⟨-, outs, commitment, chain, -⟩ := sameLengths_iff.1 h
  have rows : (inputs.zip outputs).length = (proof.commitment.zip proof.chain).length := by
    simp [outs, commitment, chain]
  rw [elementsInGroup_eq, Except.ok.injEq, List.all_eq_true,
    ← forall_mem_zip_iff (P := fun ct => G.isMember ct.c1 = true ∧ G.isMember ct.c2 = true)
      (Q := fun ct => G.isMember ct.c1 = true ∧ G.isMember ct.c2 = true) outs.symm,
    ← forall_mem_zip_iff (commitment.trans chain.symm), ← forall_mem_zip_iff rows]
  simp [and_assoc]

theorem elementsInGroup_eq_true_iff {threads : ℕ} {proof : CompleteProof}
    (h : sameLengths inputs outputs proof.toProof = true) :
    elementsInGroup G threads inputs outputs proof.toProof = .ok true ↔
      ((∀ ct ∈ inputs, G.isMember ct.c1 = true ∧ G.isMember ct.c2 = true) ∧
        ∀ ct ∈ outputs, G.isMember ct.c1 = true ∧ G.isMember ct.c2 = true) ∧
      (∀ x ∈ proof.commitment, G.isMember (some x) = true) ∧
        ∀ x ∈ proof.chain, G.isMember (some x) = true := by
  rw [elementsInGroup_iff h]
  simp [CompleteProof.toProof]

variable (G) [accepted : G.Accepted]

/-- The sizes of a proof that is given by exponents. -/
structure ProofLogs.HasSize {q : ℕ} (π : ProofLogs q) (n : ℕ) : Prop where
  commitment : π.commitment.length = n
  chain : π.chain.length = n
  sHat : π.sHat.length = n
  sTilde : π.sTilde.length = n

/-- The sizes of a statement that is given by exponents. -/
structure StatementLogs.HasSize {q : ℕ} (x : StatementLogs q) (n : ℕ) : Prop where
  h : x.h.length = n
  inputs : x.inputs.length = n
  outputs : x.outputs.length = n
  u : x.u.length = n

/-! ## Derived values by exponents -/

theorem generators_returns {domain : Bytes} {n : ℕ} {gens : Generators}
    (h : generators G domain n = .ok gens) :
    ∃ base hs, gens = generatorsOf G base hs ∧ hs.length = n := by
  simp only [generators, Result.bind_eq_ok_iff, Result.pure_eq_ok, Except.ok.injEq] at h
  obtain ⟨start, hstart, places, hplaces, rfl⟩ := h
  obtain ⟨base, -, rfl⟩ := G.derivedGenerator_returns hstart
  obtain ⟨hs, rfl, length⟩ := Result.exists_map_of_mapM (g := G.element) (fun i x hi => by
    obtain ⟨a, -, rfl⟩ := G.derivedGenerator_returns hi
    exact ⟨a, rfl⟩) hplaces
  exact ⟨base, hs, rfl, by rw [length, List.length_range]⟩

theorem length_of_generators {domain : Bytes} {n : ℕ} {base : ZMod G.q} {hs : List (ZMod G.q)}
    (h : generators G domain n = .ok (generatorsOf G base hs)) : hs.length = n := by
  obtain ⟨base', hs', same, length⟩ := generators_returns G h
  rw [((generatorsOf_inj G).1 same).2, length]

open Recorder Transcript

theorem gives_fst (cs : List (ZMod G.q × ZMod G.q)) :
    Gives ((cs.map G.cipherOf).mapM fun ct => liftM (present ct.c1))
      ((cs.map Prod.fst).map G.element) := by
  rw [List.mapM_map, List.map_map]
  exact gives_mapM fun c _ => gives_liftM rfl

theorem gives_snd (cs : List (ZMod G.q × ZMod G.q)) :
    Gives ((cs.map G.cipherOf).mapM fun ct => liftM (present ct.c2))
      ((cs.map Prod.snd).map G.element) := by
  rw [List.mapM_map, List.map_map]
  exact gives_mapM fun c _ => gives_liftM rfl

/-- What the transcript of the statement holds after the name of the election. -/
def statementFields (y : ZMod G.q) (ins outs : List (ZMod G.q × ZMod G.q))
    (commitment : List (ZMod G.q)) : List Field :=
  [elementField G (Bytes.ofText "p") G.p, elementField G (Bytes.ofText "g") G.g,
    elementField G (Bytes.ofText "pk") (G.element y)] ++
  elementFields G (Bytes.ofText "in.c1") ((ins.map Prod.fst).map G.element) ++
  elementFields G (Bytes.ofText "in.c2") ((ins.map Prod.snd).map G.element) ++
  elementFields G (Bytes.ofText "out.c1") ((outs.map Prod.fst).map G.element) ++
  elementFields G (Bytes.ofText "out.c2") ((outs.map Prod.snd).map G.element) ++
  elementFields G (Bytes.ofText "perm") (commitment.map G.element)

theorem statement_eq (domain : Bytes) (y : ZMod G.q) (ins outs : List (ZMod G.q × ZMod G.q))
    (commitment : List (ZMod G.q)) :
    statement G domain ⟨some (G.element y)⟩ (ins.map G.cipherOf) (outs.map G.cipherOf)
        (commitment.map G.element)
      = .ok ⟨[⟨Bytes.ofText "domain", Bytes.ofText "mixnet/shuffle"⟩] ++
          ⟨Bytes.ofText "election", domain⟩ :: statementFields G y ins outs commitment⟩ := by
  have elements (label : Bytes) (as : List (ZMod G.q)) :=
    adds_elements G (fits_elements G as) label
  refine Eq.trans (Adds.extend (Adds.andThen (adds_group G) <| Adds.given (gives_liftM rfl) <|
    Adds.andThen (adds_element G (fits_element G y) _) <|
    Adds.given (gives_fst G ins) <| Adds.andThen (elements _ _) <|
    Adds.given (gives_snd G ins) <| Adds.andThen (elements _ _) <|
    Adds.given (gives_fst G outs) <| Adds.andThen (elements _ _) <|
    Adds.given (gives_snd G outs) <| Adds.andThen (elements _ _) <|
    elements _ commitment) _) ?_
  simp [Transcript.start, Transcript.push, statementFields]

theorem weights_returns (T : Transcript) (n : ℕ) :
    ∃ u : List (ZMod G.q), weights G T n = .ok (u.map G.scalar) ∧ u.length = n := by
  refine ⟨(List.range n).map fun j =>
    (Bytes.toNat (expand (sha256 (Bytes.ofUInt64 (UInt64.ofNat j) ++ T.digest))
      (G.scalarBytes + 16)) : ℤ), ?_, by simp⟩
  rw [List.map_map]
  exact Result.mapM_eq_ok fun j _ => G.toScalar_eq _

/-- What the last transcript holds after the statement. -/
def announcementFields (chain : List (ZMod G.q)) (t : AnnouncementLogs G.q) : List Field :=
  elementFields G (Bytes.ofText "chain") (chain.map G.element) ++
  [elementField G (Bytes.ofText "t1") (G.element t.t1),
    elementField G (Bytes.ofText "t2") (G.element t.t2),
    elementField G (Bytes.ofText "t3") (G.element t.t3),
    elementField G (Bytes.ofText "t4.1") (G.element t.t41),
    elementField G (Bytes.ofText "t4.2") (G.element t.t42)] ++
  elementFields G (Bytes.ofText "t_hat") (t.tHat.map G.element)

theorem finalTranscript_eq (T : Transcript) (chain : List (ZMod G.q)) (t : AnnouncementLogs G.q) :
    finalTranscript G T (chain.map G.element) (announcementOf G t)
      = .ok ⟨T.fields ++ announcementFields G chain t⟩ := by
  have element (label : Bytes) (a : ZMod G.q) := adds_element G (fits_element G a) label
  have run := Adds.andThen (adds_elements G (fits_elements G chain) (Bytes.ofText "chain"))
    <| Adds.andThen (element (Bytes.ofText "t1") t.t1) <|
    Adds.andThen (element (Bytes.ofText "t2") t.t2) <|
    Adds.andThen (element (Bytes.ofText "t3") t.t3) <|
    Adds.andThen (element (Bytes.ofText "t4.1") t.t41) <|
    Adds.andThen (element (Bytes.ofText "t4.2") t.t42) <|
    adds_elements G (fits_elements G t.tHat) (Bytes.ofText "t_hat")
  refine (run.extend T).trans ?_
  simp [announcementFields]

theorem exists_finalChallenge (T : Transcript) (chain : List (ZMod G.q))
    (t : AnnouncementLogs G.q) :
    ∃ c, finalChallenge G T (chain.map G.element) (announcementOf G t) = .ok (G.scalar c) := by
  obtain ⟨c, hc⟩ := exists_challenge G ⟨T.fields ++ announcementFields G chain t⟩
  exact ⟨c, Result.bind_eq_ok_iff.2 ⟨_, finalTranscript_eq G T chain t, hc⟩⟩

/-! ## Runs by exponents -/

/-- A statement and a proof with lists of one length pass the checks, and the rest of the run is
computed in the exponents. -/
theorem derives_of_logs {n : ℕ} {x : StatementLogs G.q} {π : ProofLogs G.q} {T : Transcript}
    (hn : n ≠ 0) (hx : x.HasSize n) (hπ : π.HasSize n)
    (hgens : generators G options.domain n = .ok (generatorsOf G x.base x.h))
    (hT : statement G options.domain ⟨some (G.element x.key)⟩ (x.inputs.map G.cipherOf)
      (x.outputs.map G.cipherOf) (π.commitment.map G.element) = .ok T)
    (hu : weights G T n = .ok (x.u.map G.scalar)) :
    Derives G ⟨some (G.element x.key)⟩ (x.inputs.map G.cipherOf) (x.outputs.map G.cipherOf)
      (proofOf G π) options
      ⟨generatorsOf G x.base x.h, T, x.u.map G.scalar, announcementOf G (recomputeLogs x π)⟩ := by
  have length : (x.inputs.map G.cipherOf).length = n := by rw [List.length_map, hx.inputs]
  have lengths : sameLengths (x.inputs.map G.cipherOf) (x.outputs.map G.cipherOf)
      (proofOf G π).toProof = true := by
    rw [sameLengths_eq_true_iff]
    simp [proofOf, hn, hx.inputs, hx.outputs, hπ.commitment, hπ.chain, hπ.sHat, hπ.sTilde]
  have chain : π.chain ≠ [] := by
    rw [← List.length_pos_iff, hπ.chain]
    omega
  refine
    { lengths, key := G.isMember_element _, scalars := ?scalars, elements := ?elements,
      gens := by rwa [length], statement := hT, u := by rwa [length],
      announcement := ⟨_, _, _, rfl, G.mapM_pair _, G.mapM_pair _, ?announcement⟩ }
  case scalars => simp [scalarsInRange, proofOf, CompleteProof.toProof]
  case elements =>
    rw [elementsInGroup_eq_true_iff lengths]
    simp only [proofOf, List.forall_mem_map, G.isMember_cipherOf_c1, G.isMember_cipherOf_c2,
      G.isMember_element, implies_true, and_self]
  case announcement => exact recompute_eq G options.threads x chain

variable {G} {proof : CompleteProof} {d : Derivation}

/-- A proof whose elements are members and whose scalars are in range is given by exponents. -/
theorem exists_proofOf (scalars : scalarsInRange G proof.toProof = true)
    (commitment : ∀ x ∈ proof.commitment, G.isMember (some x) = true)
    (chain : ∀ x ∈ proof.chain, G.isMember (some x) = true) :
    ∃ π : ProofLogs G.q, proof = proofOf G π := by
  obtain ⟨c, s1, s2, s3, s4, sHat, sTilde, cs, ds⟩ := proof
  simp only [scalarsInRange, CompleteProof.toProof, List.all_cons, List.all_nil, Bool.and_true,
    Bool.and_eq_true, List.all_map, List.all_eq_true, Function.comp_apply] at scalars
  obtain ⟨⟨⟨hc, h1, h2, h3, h4⟩, hat⟩, tilde⟩ := scalars
  obtain ⟨c, rfl⟩ := G.exists_scalar hc
  obtain ⟨s1, rfl⟩ := G.exists_scalar h1
  obtain ⟨s2, rfl⟩ := G.exists_scalar h2
  obtain ⟨s3, rfl⟩ := G.exists_scalar h3
  obtain ⟨s4, rfl⟩ := G.exists_scalar h4
  obtain ⟨sHat, rfl⟩ := G.exists_scalars hat
  obtain ⟨sTilde, rfl⟩ := G.exists_scalars tilde
  obtain ⟨cs, rfl⟩ := G.exists_elements commitment
  obtain ⟨ds, rfl⟩ := G.exists_elements chain
  exact ⟨⟨c, s1, s2, s3, s4, sHat, sTilde, cs, ds⟩, rfl⟩

/-- What passes the checks is given by exponents, and so is what is derived from it. -/
theorem Derives.exists_logs (run : Derives G pk inputs outputs proof options d) :
    ∃ (n : ℕ) (x : StatementLogs G.q) (π : ProofLogs G.q), n ≠ 0 ∧ x.HasSize n ∧ π.HasSize n ∧
      pk = ⟨some (G.element x.key)⟩ ∧ inputs = x.inputs.map G.cipherOf ∧
      outputs = x.outputs.map G.cipherOf ∧ proof = proofOf G π ∧
      d.gens = generatorsOf G x.base x.h ∧ d.u = x.u.map G.scalar ∧
      d.announcement = announcementOf G (recomputeLogs x π) := by
  obtain ⟨hn, ho, hcommitment, hchain, hHat, hTilde⟩ := sameLengths_eq_true_iff.1 run.lengths
  obtain ⟨⟨inMembers, outMembers⟩, commitment, chain⟩ :=
    (elementsInGroup_eq_true_iff run.lengths).1 run.elements
  obtain ⟨π, rfl⟩ := exists_proofOf run.scalars commitment chain
  obtain ⟨ins, rfl⟩ := G.exists_cipherOf_list inMembers
  obtain ⟨outs, rfl⟩ := G.exists_cipherOf_list outMembers
  obtain ⟨y, hy⟩ := G.isMember_iff.1 run.key
  obtain rfl : pk = ⟨some (G.element y)⟩ := by rw [← hy]
  obtain ⟨base, hs, hgens, hs_length⟩ := generators_returns G run.gens
  obtain ⟨u, hu, u_length⟩ := weights_returns G d.statement (ins.map G.cipherOf).length
  have d_u : d.u = u.map G.scalar := Except.ok.inj (run.u.symm.trans hu)
  simp only [proofOf, List.length_map] at hn ho hcommitment hchain hHat hTilde hs_length u_length
  have nonempty : π.chain ≠ [] := by
    rw [← List.length_pos_iff, hchain]
    omega
  obtain ⟨h, ins', outs', hh, hins, houts, announced⟩ := run.announcement
  obtain rfl := Except.ok.inj hh
  obtain rfl := Except.ok.inj ((G.mapM_pair ins).symm.trans hins)
  obtain rfl := Except.ok.inj ((G.mapM_pair outs).symm.trans houts)
  let x : StatementLogs G.q := ⟨base, hs, y, ins, outs, u⟩
  rw [hgens, d_u, recompute_eq G options.threads x nonempty, Except.ok.injEq] at announced
  exact ⟨ins.length, x, π, hn, ⟨hs_length, rfl, ho, u_length⟩,
    ⟨hcommitment, hchain, hHat, hTilde⟩, rfl, rfl, rfl, rfl, hgens, d_u, announced.symm⟩

end BallotMix.Shuffle
