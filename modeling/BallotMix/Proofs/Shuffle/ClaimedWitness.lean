import BallotMix.Proofs.Shuffle.Binding
import BallotMix.Proofs.Shuffle.Prover
import Mathlib

/-!
# Proofs from claimed witnesses

A prover makes a proof from any permutation and any randomizers, whether or not they lead from the
inputs to the outputs.  What the verifier recomputes from it is what the prover announced but for the
two numbers about ciphertexts, and for these it depends on the `discrepancy` between the outputs that
the witness claims and the outputs (`recomputed_eq_iff`).  So the proof passes if the discrepancy to the
power of the challenge is one, as it is for a true witness, and a proof that passes otherwise shows
two byte strings with one challenge (`prove_claimed`).
-/

namespace BallotMix.Shuffle

open Permutation Transcript

/-! ## The discrepancy -/

/-- The components of a ciphertext modulo `p`. -/
def residues (G : Group) (c : Pair) : ZMod G.p × ZMod G.p := (c.c1, c.c2)

/-- What a witness claims of the outputs: the inputs in the order of the permutation, each times the
generator and the key to the power of its randomizer modulo `q`. -/
def claimedOutputs (G : Group) (h : ℤ) (ins : List Pair) (permutation : List ℕ)
    (randomizers : List ℤ) : List (ZMod G.p × ZMod G.p) :=
  List.zipWith (fun c (r : ℤ) =>
      c * ((G.g : ZMod G.p) ^ (r : ZMod G.q).val, (h : ZMod G.p) ^ (r : ZMod G.q).val))
    (gather permutation (ins.map (residues G))) randomizers

/-- The product of what a witness claims of each output over the output, to the power of the scalar
that the permutation gives it. -/
def discrepancy (G : Group) [G.Accepted] (h : ℤ) (ins outs : List Pair) (permutation : List ℕ)
    (randomizers u : List ℤ) : ZMod G.p × ZMod G.p :=
  let quotients := List.zipWith (· / ·) (claimedOutputs G h ins permutation randomizers)
    (outs.map (residues G))
  (List.zipWith (fun quotient (w : ℤ) => quotient ^ (w : ZMod G.q).val) quotients
    (gather permutation u)).prod

variable {G : Group} [accepted : G.Accepted]

section Logs

/-- The pair of residues with the given exponents. -/
def residuesOf (G : Group) [G.Accepted] (a : ZMod G.q × ZMod G.q) : ZMod G.p × ZMod G.p :=
  (G.residue a.1, G.residue a.2)

theorem map_residues_pairOf (cs : List (ZMod G.q × ZMod G.q)) :
    (cs.map G.pairOf).map (residues G) = cs.map (residuesOf G) := by
  rw [List.map_map]
  refine List.map_congr_left fun c _ => ?_
  simp [residues, residuesOf, Group.pairOf]

theorem residuesOf_injective : Function.Injective (residuesOf G) := fun _ _ h =>
  Prod.ext (G.residue_injective (congrArg Prod.fst h)) (G.residue_injective (congrArg Prod.snd h))

theorem residuesOf_eq_one_iff {a : ZMod G.q × ZMod G.q} : residuesOf G a = 1 ↔ a = 0 := by
  have zero : residuesOf G 0 = 1 := Prod.ext G.residue_zero G.residue_zero
  rw [← zero, residuesOf_injective.eq_iff]

theorem residuesOf_smul (a : ZMod G.q × ZMod G.q) (c : ZMod G.q) :
    residuesOf G (c • a) = residuesOf G a ^ c.val := by
  simp only [residuesOf, Prod.smul_fst, Prod.smul_snd, smul_eq_mul, mul_comm c, G.residue_mul]
  rfl

theorem claimedOutputs_eq {n : ℕ} (y : ZMod G.q) {ins : List (ZMod G.q × ZMod G.q)}
    (hi : ins.length = n) {permutation : List ℕ} (hp : permutation.Perm (List.range n))
    (randomizers : List ℤ) :
    claimedOutputs G (G.element y) (ins.map G.pairOf) permutation randomizers
      = (shuffleLogs y ins permutation (randomizers.map Int.cast)).map (residuesOf G) := by
  have entry (c : ZMod G.q × ZMod G.q) (r : ZMod G.q) :
      residuesOf G c * ((G.g : ZMod G.p) ^ r.val, (G.element y : ZMod G.p) ^ r.val)
        = residuesOf G (c + Group.blind y r) := by
    simp only [residuesOf, Group.blind, Prod.mk_mul_mk, Prod.fst_add, Prod.snd_add, G.residue_add,
      G.cast_element, G.residue_mul]
    rfl
  rw [claimedOutputs, map_residues_pairOf, gather_map hp hi, shuffleLogs, List.map_zipWith,
    List.zipWith_map_left, List.zipWith_map_right]
  simp only [entry]

theorem prod_quotients {as bs : List (ZMod G.q × ZMod G.q)} (h : as.length = bs.length)
    (ws : List (ZMod G.q)) :
    (List.zipWith (fun quotient (w : ZMod G.q) => quotient ^ w.val)
      (List.zipWith (· / ·) (as.map (residuesOf G)) (bs.map (residuesOf G))) ws).prod
      = residuesOf G (dot (as.map Prod.fst) ws - dot (bs.map Prod.fst) ws,
          dot (as.map Prod.snd) ws - dot (bs.map Prod.snd) ws) := by
  have quotient (a b w x y : ZMod G.q) :
      (G.residue a / G.residue b) ^ w.val * G.residue (x - y)
        = G.residue (a * w + x - (b * w + y)) := by
    rw [div_eq_mul_inv, ← G.residue_neg, ← G.residue_add, ← G.residue_mul, ← G.residue_add]
    congr 1
    ring
  induction as generalizing bs ws with
  | nil => simp [List.length_eq_zero_iff.1 h.symm, residuesOf, Prod.one_eq_mk]
  | cons a as ih =>
    cases bs with
    | nil => cases h
    | cons b bs =>
      cases ws with
      | nil => simp [residuesOf, Prod.one_eq_mk]
      | cons w ws =>
        simp only [List.map_cons, List.zipWith_cons_cons, List.prod_cons, dot_cons,
          ih (Nat.succ.inj h) ws]
        exact Prod.ext (quotient ..) (quotient ..)

theorem discrepancy_eq {n : ℕ} {x : StatementLogs G.q} (hx : x.HasSize n) {permutation : List ℕ}
    (hp : permutation.Perm (List.range n)) {randomizers : List ℤ} (hr : randomizers.length = n) :
    discrepancy G (G.element x.key) (x.inputs.map G.pairOf) (x.outputs.map G.pairOf) permutation
        randomizers (x.u.map G.scalar)
      = residuesOf G (excessLogs x permutation (randomizers.map Int.cast)) := by
  rw [discrepancy, claimedOutputs_eq x.key hx.inputs hp, map_residues_pairOf, gather_map hp hx.u,
    List.zipWith_map_right]
  simp only [G.cast_scalar]
  refine prod_quotients ?_ (gather permutation x.u)
  simp [shuffleLogs, length_of_perm_range hp, hr, hx.outputs]

end Logs

/-! ## Runs of the prover -/

/-- A run of the prover returns the proof, and from its nonces it derives what is listed, its own
announcement included. -/
structure Proves {σ : Type} [Source σ] (G : Group) (pk : PublicKey) (inputs outputs : List Ciphertext)
    (permutation : List ℕ) (randomizers : List ℤ) (options : Options) (s : σ)
    (proof : CompleteProof) (s' : σ) (d : Derivation) : Prop where
  returns : (prove G pk inputs outputs permutation randomizers options).Returns s proof s'
  gens : generators G options.domain inputs.length = .ok d.gens
  statement :
    Shuffle.statement G options.domain pk inputs outputs proof.commitment = .ok d.statement
  u : weights G d.statement inputs.length = .ok d.u
  announcement : ∃ nonces h outs, (drawNonces G inputs.length).Returns s nonces s' ∧
    present pk.h = .ok h ∧ outputs.mapM Ciphertext.pair = .ok outs ∧
    announce G options.threads d.gens h outs proof.chain nonces = .ok d.announcement
  challenge : finalChallenge G d.statement proof.chain d.announcement = .ok proof.challenge

/-- How the announcement `t` that is recomputed from the proof of a claimed witness compares with that
of the prover, and when the proof is accepted. -/
structure IsJudged (G : Group) [G.Accepted] (h : ℤ) (ins outs : List Pair) (permutation : List ℕ)
    (randomizers : List ℤ) (proof : CompleteProof) (d : Derivation) (t : Announcement)
    (accepts : Prop) : Prop where
  t1 : t.t1 = d.announcement.t1
  t2 : t.t2 = d.announcement.t2
  t3 : t.t3 = d.announcement.t3
  tHat : t.tHat = d.announcement.tHat
  /-- The numbers about ciphertexts depend on the discrepancy. -/
  t4 : t.t41 = d.announcement.t41 ∧ t.t42 = d.announcement.t42 ↔
    discrepancy G h ins outs permutation randomizers d.u ^ proof.challenge.toNat = 1
  ofOne :
    discrepancy G h ins outs permutation randomizers d.u ^ proof.challenge.toNat = 1 → accepts
  /-- A true witness leaves no discrepancy. -/
  ofWitness : claimedOutputs G h ins permutation randomizers = outs.map (residues G) → accepts
  /-- A proof that is accepted otherwise is so through two byte strings with one challenge. -/
  collision : accepts →
    discrepancy G h ins outs permutation randomizers d.u ^ proof.challenge.toNat ≠ 1 →
    ∃ T T', finalTranscript G d.statement proof.chain d.announcement = .ok T ∧
      finalTranscript G d.statement proof.chain t = .ok T' ∧ T.encode ≠ T'.encode ∧
      T.challenge G = .ok proof.challenge ∧ T'.challenge G = .ok proof.challenge

theorem recomputed_eq_iff (a : AnnouncementLogs G.q) (e : ZMod G.q × ZMod G.q) (c : ZMod G.q) :
    ((announcementOf G (a.shift (c • e))).t41 = (announcementOf G a).t41 ∧
        (announcementOf G (a.shift (c • e))).t42 = (announcementOf G a).t42) ↔
      residuesOf G e ^ (G.scalar c).toNat = 1 := by
  rw [Group.scalar, Int.toNat_natCast, ← residuesOf_smul, residuesOf_eq_one_iff, Prod.ext_iff]
  simp [announcementOf, AnnouncementLogs.shift]

variable {n : ℕ} {permutation : List ℕ} {w : NonceLogs G.q} {domain : Bytes}
  {x : StatementLogs G.q} {randomizers : List ℤ} {T : Transcript} {c : ZMod G.q}

theorem isJudged_of_answers (hn : n ≠ 0) (hp : permutation.Perm (List.range n))
    (size : w.HasSize n) (hr : randomizers.length = n)
    (answers : Answers G domain n x permutation (randomizers.map Int.cast) w T c)
    (hgens : generators G domain n = .ok (generatorsOf G x.base x.h)) (threads : ℕ) :
    let proof := proofOf G (honestLogs x permutation (randomizers.map Int.cast) w c)
    let announced := announceLogs x
      (honestLogs x permutation (randomizers.map Int.cast) w c).chain w
    let d : Derivation := ⟨generatorsOf G x.base x.h, T, x.u.map G.scalar, announcementOf G announced⟩
    IsJudged G (G.element x.key) (x.inputs.map G.pairOf) (x.outputs.map G.pairOf) permutation
      randomizers proof d (announcementOf G
        (announced.shift (c • excessLogs x permutation (randomizers.map Int.cast))))
      (verify G ⟨some (G.element x.key)⟩ (x.inputs.map G.cipherOf) (x.outputs.map G.cipherOf)
        proof.toProof ⟨domain, threads⟩ = .ok true) := by
  intro proof announced d
  have hr' : (randomizers.map (Int.cast : ℤ → ZMod G.q)).length = n := by rwa [List.length_map]
  have run := derives_of_answers hp size answers hn hr' hgens threads
  have quotient := discrepancy_eq answers.size hp hr
  have t4 := recomputed_eq_iff announced (excessLogs x permutation (randomizers.map Int.cast)) c
  rw [← quotient] at t4
  have ofOne (one : discrepancy G (G.element x.key) (x.inputs.map G.pairOf)
      (x.outputs.map G.pairOf) permutation randomizers (x.u.map G.scalar)
        ^ (G.scalar c).toNat = 1) :
      verify G ⟨some (G.element x.key)⟩ (x.inputs.map G.cipherOf) (x.outputs.map G.cipherOf)
        proof.toProof ⟨domain, threads⟩ = .ok true := by
    rw [quotient, Group.scalar, Int.toNat_natCast, ← residuesOf_smul, residuesOf_eq_one_iff] at one
    rw [run.verify_iff, one, AnnouncementLogs.shift_zero]
    exact answers.challenge
  refine { t1 := rfl, t2 := rfl, t3 := rfl, tHat := rfl, t4, ofOne, ofWitness := ?_, collision := ?_ }
  · intro witness
    rw [claimedOutputs_eq x.key answers.size.inputs hp, map_residues_pairOf] at witness
    have ho := (residuesOf_injective.list_map witness).symm
    refine ofOne ?_
    rw [quotient, excessLogs_eq_zero ho, residuesOf_eq_one_iff.2 rfl, one_pow]
  · intro accepts differ
    have moved : announced
        ≠ announced.shift (c • excessLogs x permutation (randomizers.map Int.cast)) := by
      intro kept
      refine differ (t4.1 ?_)
      rw [← kept]
      exact ⟨rfl, rfl⟩
    have challenge : finalChallenge G T proof.chain (announcementOf G (announced.shift
        (c • excessLogs x permutation (randomizers.map Int.cast)))) = .ok proof.challenge :=
      run.verify_iff.1 accepts
    exact exists_collision moved rfl answers.challenge challenge

section Runs

variable {σ : Type} [Source σ] {y : ZMod G.q} {cs ds : List (ZMod G.q × ZMod G.q)}
  (hn : cs.length ≠ 0) (same : ds.length = cs.length) (hp : permutation.Perm (List.range cs.length))
  (hr : randomizers.length = cs.length) {threads : ℕ} {s s' : σ}
include hn same hp hr

/-- A run of the prover and the run of a verifier on the proof that it returns. -/
theorem exists_isJudged {proof : CompleteProof}
    (run : (prove G ⟨some (G.element y)⟩ (cs.map G.cipherOf) (ds.map G.cipherOf) permutation
      randomizers ⟨domain, threads⟩).Returns s proof s') (verifierThreads : ℕ) :
    ∃ d t,
      Proves G ⟨some (G.element y)⟩ (cs.map G.cipherOf) (ds.map G.cipherOf) permutation randomizers
        ⟨domain, threads⟩ s proof s' d ∧
      Derives G ⟨some (G.element y)⟩ (cs.map G.cipherOf) (ds.map G.cipherOf) proof
        ⟨domain, verifierThreads⟩ { d with announcement := t } ∧
      IsJudged G (G.element y) (cs.map G.pairOf) (ds.map G.pairOf) permutation randomizers proof d t
        (verify G ⟨some (G.element y)⟩ (cs.map G.cipherOf) (ds.map G.cipherOf) proof.toProof
          ⟨domain, verifierThreads⟩ = .ok true) := by
  obtain ⟨-, -, gens, nonces, hgens, drawn, made⟩ := prove_returns_iff.1 run
  have length : (cs.map G.cipherOf).length = cs.length := List.length_map _
  rw [length] at hgens drawn
  obtain ⟨w, size, rfl⟩ := drawNonces_returns drawn
  obtain ⟨base, hs, rfl, -⟩ := generators_returns G hgens
  obtain ⟨u, T, c, answers⟩ := exists_answers G (y := y) rfl same permutation
    (randomizers.map Int.cast) w hgens
  obtain rfl := Except.ok.inj (made.symm.trans (proveWith_eq hp size answers rfl))
  have hr' : (randomizers.map (Int.cast : ℤ → ZMod G.q)).length = cs.length := by
    rwa [List.length_map]
  have announced := announce_eq G threads ⟨base, hs, y, cs, ds, u⟩
    (chainLogs base (w.link.zip (gather permutation u))) w
  refine ⟨⟨generatorsOf G base hs, T, u.map G.scalar, _⟩, _, ?_,
    derives_of_answers hp size answers hn hr' hgens verifierThreads,
    isJudged_of_answers hn hp size hr answers hgens verifierThreads⟩
  rw [← length] at drawn
  exact {
    returns := run
    gens := by rwa [length]
    statement := answers.statement
    u := length.symm ▸ answers.u
    announcement := ⟨noncesOf G w, _, _, drawn, rfl, G.mapM_pair ds, announced⟩
    challenge := answers.challenge }

/-- With all nonces drawn and the generators derived, the prover returns. -/
theorem exists_prove {nonces : Nonces} (drawn : (drawNonces G cs.length).Returns s nonces s')
    {gens : Generators} (hgens : generators G domain cs.length = .ok gens) :
    ∃ proof, (prove G ⟨some (G.element y)⟩ (cs.map G.cipherOf) (ds.map G.cipherOf) permutation
      randomizers ⟨domain, threads⟩).Returns s proof s' := by
  obtain ⟨w, size, rfl⟩ := drawNonces_returns drawn
  obtain ⟨base, hs, rfl, -⟩ := generators_returns G hgens
  obtain ⟨u, T, c, answers⟩ := exists_answers G (y := y) rfl same permutation
    (randomizers.map Int.cast) w hgens
  have places := length_of_perm_range hp
  refine ⟨_, prove_returns_iff.2 ⟨?lengths, isPermutation_iff.2 (places.symm ▸ hp), _, _, ?_, ?_,
    proveWith_eq hp size answers rfl⟩⟩
  case lengths =>
    simp only [List.length_map]
    exact ⟨hn, same, places, hr⟩
  · rwa [List.length_map]
  · rwa [List.length_map]

end Runs

/-- A prover with members as its key and its ciphertexts makes a proof from any permutation and any
randomizers, if the source answers all draws and the generators can be derived.  What the verifier
recomputes from it agrees with what the prover announced up to the discrepancy between the outputs
claimed and the outputs: the proof is accepted if the discrepancy to the power of the challenge is one,
and if it is accepted otherwise two byte strings have one challenge. -/
theorem prove_claimed {σ : Type} [Source σ] {h : ℤ} (key : G.isMember (some h) = true)
    {ins outs : List Pair} (ne : ins ≠ []) (same : outs.length = ins.length)
    (inMembers : ∀ c ∈ ins, G.isMember (some c.c1) = true ∧ G.isMember (some c.c2) = true)
    (outMembers : ∀ c ∈ outs, G.isMember (some c.c1) = true ∧ G.isMember (some c.c2) = true)
    {permutation : List ℕ} (hp : permutation.Perm (List.range ins.length)) {randomizers : List ℤ}
    (hr : randomizers.length = ins.length) (domain : Bytes) (threads verifierThreads : ℕ) (s : σ) :
    let inputs := ins.map Pair.toCiphertext
    let outputs := outs.map Pair.toCiphertext
    (∀ proof s', (prove G ⟨some h⟩ inputs outputs permutation randomizers
        ⟨domain, threads⟩).Returns s proof s' →
      ∃ d t, Proves G ⟨some h⟩ inputs outputs permutation randomizers ⟨domain, threads⟩ s proof s' d ∧
        Derives G ⟨some h⟩ inputs outputs proof ⟨domain, verifierThreads⟩
          { d with announcement := t } ∧
        IsJudged G h ins outs permutation randomizers proof d t
          (verify G ⟨some h⟩ inputs outputs proof.toProof ⟨domain, verifierThreads⟩ = .ok true)) ∧
    ((∃ nonces s', (drawNonces G ins.length).Returns s nonces s') →
      (∃ gens, generators G domain ins.length = .ok gens) →
        ∃ proof s', (prove G ⟨some h⟩ inputs outputs permutation randomizers
          ⟨domain, threads⟩).Returns s proof s') := by
  obtain ⟨y, rfl⟩ := G.exists_element key
  obtain ⟨cs, rfl⟩ := G.exists_pairOf_list inMembers
  obtain ⟨ds, rfl⟩ := G.exists_pairOf_list outMembers
  have hn : cs.length ≠ 0 := by simpa using ne
  rw [G.map_toCiphertext_pairOf, G.map_toCiphertext_pairOf]
  simp only [List.length_map] at same hp hr ⊢
  constructor
  · intro proof s' run
    exact exists_isJudged hn same hp hr run verifierThreads
  · rintro ⟨nonces, s', drawn⟩ ⟨gens, hgens⟩
    obtain ⟨proof, run⟩ := exists_prove hn same hp hr drawn hgens
    exact ⟨proof, s', run⟩

set_option maxRecDepth 10000 in
/-- A claim that is false: two ciphertexts kept their places, and are said to have changed them, with
a randomizer below zero. -/
theorem prove_claimed_least :
    let ins : List Pair := [⟨4, 16⟩, ⟨4, 4⟩]
    let outs : List Pair := [⟨16, 64⟩, ⟨64, 64⟩]
    let inputs := ins.map Pair.toCiphertext
    let outputs := outs.map Pair.toCiphertext
    ∃ proof s' d t, Proves Group.least ⟨some 4⟩ inputs outputs [1, 0] [1, -1] ⟨[], 1⟩
        (⟨List.replicate 100 1⟩ : Tape) proof s' d ∧
      Derives Group.least ⟨some 4⟩ inputs outputs proof ⟨[], 2⟩ { d with announcement := t } ∧
      IsJudged Group.least 4 ins outs [1, 0] [1, -1] proof d t
        (verify Group.least ⟨some 4⟩ inputs outputs proof.toProof ⟨[], 2⟩ = .ok true) := by
  intro ins outs inputs outputs
  have claimed := prove_claimed (G := Group.least) (h := 4) (by decide +kernel)
    (show ins ≠ [] from List.cons_ne_nil _ _) (show outs.length = ins.length from rfl)
    (by decide +kernel) (by decide +kernel) (show [1, 0].Perm (List.range 2) from .swap 0 1 [])
    (show [1, -1].length = ins.length from rfl) [] 1 2 (⟨List.replicate 100 1⟩ : Tape)
  have drawn := Draw.exists_returns_iff.2 (show Except.isOk ((drawNonces Group.least 2 :
    Draw Tape _).run ⟨List.replicate 100 1⟩).1 = true by decide +kernel)
  have derived := Result.exists_eq_ok_iff.2
    (show (generators Group.least [] 2).isOk = true by decide +kernel)
  obtain ⟨proof, s', run⟩ := claimed.2 drawn derived
  obtain ⟨d, t, proves, derives, judged⟩ := claimed.1 proof s' run
  exact ⟨proof, s', d, t, proves, derives, judged⟩

end BallotMix.Shuffle
