import BallotMix.Proofs.Shuffle.Honest
import BallotMix.Proofs.Shuffle.Verifier
import Mathlib

/-!
# What the prover computes

Each part of a proof is computed in the exponents (`commitTo_eq`, `makeChain_eq`, `announce_eq`, …),
so a prover with its nonces never fails and makes the proof of `honestLogs` (`proveWith_eq`).
-/

namespace BallotMix.Shuffle

open Permutation

variable (G : Group) [accepted : G.Accepted]

/-- The nonces with the given exponents. -/
def noncesOf (w : NonceLogs G.q) : Nonces where
  commit := w.commit.map G.scalar
  link := w.link.map G.scalar
  w1 := G.scalar w.w1
  w2 := G.scalar w.w2
  w3 := G.scalar w.w3
  w4 := G.scalar w.w4
  wHat := w.wHat.map G.scalar
  wTilde := w.wTilde.map G.scalar

/-! ## The parts of a proof -/

theorem commitTo_eq (threads : ℕ) (base : ZMod G.q) {n : ℕ} {permutation : List ℕ}
    (hp : permutation.Perm (List.range n)) {h rs : List (ZMod G.q)} (hh : h.length = n)
    (hr : rs.length = n) :
    commitTo G threads (generatorsOf G base h) permutation (rs.map G.scalar)
      = .ok ((scatter permutation (List.zipWith (· + ·) rs h)).map G.element) := by
  have sums : (rs.zip h).map (fun rh => G.element (rh.1 + rh.2))
      = (List.zipWith (· + ·) rs h).map G.element := by
    rw [List.zip, List.map_zipWith, List.map_zipWith]
  rw [commitTo, generatorsOf, List.zip_map,
    Workers.forList_map_eq_ok (g := fun rh => G.element (rh.1 + rh.2)) fun rh _ => by simp,
    Result.ok_bind, sums, scatter_map hp (by simp [hh, hr])]
  rfl

theorem chainFrom_eq (previous : ZMod G.q) (steps : List (ZMod G.q × ZMod G.q)) :
    chainFrom G (G.element previous) (steps.map (Prod.map G.element G.scalar))
      = .ok ((chainLogs previous steps).map G.element) := by
  induction steps generalizing previous with
  | nil => rfl
  | cons step steps ih =>
    rw [List.map_cons, Prod.map, chainFrom, G.pow_element_scalar, Result.ok_bind, G.mul_element,
      Result.ok_bind, ih, chainLogs]
    rfl

theorem makeChain_eq (threads : ℕ) (base : ZMod G.q) (h link us : List (ZMod G.q)) :
    makeChain G threads (generatorsOf G base h) (link.map G.scalar) (us.map G.scalar)
      = .ok ((chainLogs base (link.zip us)).map G.element) := by
  rw [makeChain, Workers.forList_map_eq_ok fun a _ => G.genPow_scalar a, Result.ok_bind,
    List.zip_map, generatorsOf, chainFrom_eq]

theorem suffixProducts_eq (us : List (ZMod G.q)) :
    suffixProducts G (us.map G.scalar) = .ok ((suffixLogs us).map G.scalar) := by
  induction us with
  | nil => rfl
  | cons u us ih =>
    cases us with
    | nil =>
      show Except.ok [1] = _
      simp [suffixLogs]
    | cons u' us =>
      rw [List.map_cons, List.map_cons, suffixProducts, ← List.map_cons, ih, Result.ok_bind]
      simp [suffixLogs]

@[simp]
theorem respond_eq (c w x : ZMod G.q) :
    respond G (G.scalar c) (G.scalar w) (G.scalar x) = .ok (G.scalar (w - c * x)) := by
  simp [respond]

theorem mapM_respond (c : ZMod G.q) (ws xs : List (ZMod G.q)) :
    ((ws.map G.scalar).zip (xs.map G.scalar)).mapM (fun wx => respond G (G.scalar c) wx.1 wx.2)
      = .ok ((List.zipWith (fun w x => w - c * x) ws xs).map G.scalar) := by
  rw [List.zip_map, List.mapM_map, Result.mapM_eq_ok (g := fun wx => G.scalar (wx.1 - c * wx.2))
    fun wx _ => by simp, List.zip, List.map_zipWith, List.map_zipWith]

theorem announce_eq (threads : ℕ) (x : StatementLogs G.q) (chain : List (ZMod G.q))
    (w : NonceLogs G.q) :
    announce G threads (generatorsOf G x.base x.h) (G.element x.key) (x.outputs.map G.pairOf)
      (chain.map G.element) (noncesOf G w) = .ok (announcementOf G (announceLogs x chain w)) := by
  simp only [announce, generatorsOf, noncesOf, G.map_c1_pairOf, G.map_c2_pairOf, powProd_eq,
    G.scalarNeg_eq, G.cast_scalar, G.pow_element_scalar, Result.ok_bind, G.genPow_scalar,
    G.mul_element, previousLinks_elements, List.zip_map]
  rw [Workers.forList_map_eq_ok (g := fun l => G.element (l.2.1 + l.1 * l.2.2)) fun l _ => by simp]
  simp [announcementOf, announceLogs]

/-! ## Proofs -/

/-- The transcripts give the scalars and the challenge under which a prover with these nonces
answers, whatever it knows. -/
structure Answers (domain : Bytes) (n : ℕ) (x : StatementLogs G.q) (permutation : List ℕ)
    (rs : List (ZMod G.q)) (w : NonceLogs G.q) (T : Transcript) (c : ZMod G.q) : Prop where
  size : x.HasSize n
  statement : Shuffle.statement G domain ⟨some (G.element x.key)⟩ (x.inputs.map G.cipherOf)
    (x.outputs.map G.cipherOf) ((honestLogs x permutation rs w c).commitment.map G.element) = .ok T
  u : weights G T n = .ok (x.u.map G.scalar)
  challenge : finalChallenge G T ((honestLogs x permutation rs w c).chain.map G.element)
    (announcementOf G (announceLogs x (honestLogs x permutation rs w c).chain w))
      = .ok (G.scalar c)

theorem exists_answers {n : ℕ} {domain : Bytes} {y base : ZMod G.q}
    {inputs outputs : List (ZMod G.q × ZMod G.q)} {hs : List (ZMod G.q)} (hi : inputs.length = n)
    (ho : outputs.length = n) (permutation : List ℕ) (rs : List (ZMod G.q)) (w : NonceLogs G.q)
    (hgens : generators G domain n = .ok (generatorsOf G base hs)) :
    ∃ u T c, Answers G domain n ⟨base, hs, y, inputs, outputs, u⟩ permutation rs w T c := by
  have hh := length_of_generators G hgens
  have hT := statement_eq G domain y inputs outputs
    (scatter permutation (List.zipWith (· + ·) w.commit hs))
  obtain ⟨u, hu, hulen⟩ := weights_returns G _ n
  let x : StatementLogs G.q := ⟨base, hs, y, inputs, outputs, u⟩
  -- The chain and the announcement do not depend on the challenge, which is taken from them.
  obtain ⟨c, hc⟩ := exists_finalChallenge G _ (honestLogs x permutation rs w 0).chain
    (announceLogs x (honestLogs x permutation rs w 0).chain w)
  exact ⟨u, _, c, ⟨hh, hi, ho, hulen⟩, hT, hu, hc⟩

section Answers

variable {G} {n : ℕ} {permutation : List ℕ} (hp : permutation.Perm (List.range n))
  {w : NonceLogs G.q} (size : w.HasSize n) {domain : Bytes} {x : StatementLogs G.q}
  {rs : List (ZMod G.q)} {T : Transcript} {c : ZMod G.q}
  (answers : Answers G domain n x permutation rs w T c)
include hp size answers

/-- A prover with its nonces makes the proof of `honestLogs`, for the scalars and the challenge that
the transcripts give. -/
theorem proveWith_eq {randomizers : List ℤ} (hr : randomizers.map Int.cast = rs) {threads : ℕ} :
    proveWith G ⟨some (G.element x.key)⟩ (x.inputs.map G.cipherOf) (x.outputs.map G.cipherOf)
      permutation randomizers (generatorsOf G x.base x.h) (noncesOf G w) ⟨domain, threads⟩
        = .ok (proofOf G (honestLogs x permutation rs w c)) := by
  obtain ⟨hx, hT, hu, hc⟩ := answers
  have committed := commitTo_eq G threads x.base hp hx.h size.commit
  have announced := announce_eq G threads x (honestLogs x permutation rs w c).chain w
  simp only [honestLogs, noncesOf] at hT hc announced
  simp only [proveWith, noncesOf, committed, Result.ok_bind, hT, List.length_map, hx.inputs, hu,
    gather_map hp hx.u, makeChain_eq, G.mapM_pair, present_some, announced, hc,
    scatter_map hp size.commit, G.scalarSum_eq, G.scalarDot_eq, suffixProducts_eq, mapM_respond,
    G.map_cast_scalars, hr, respond_eq]
  rfl

/-- What the verifier derives from the proof. -/
theorem derives_of_answers (hn : n ≠ 0) (hr : rs.length = n)
    (hgens : generators G domain n = .ok (generatorsOf G x.base x.h)) (threads : ℕ) :
    Derives G ⟨some (G.element x.key)⟩ (x.inputs.map G.cipherOf) (x.outputs.map G.cipherOf)
      (proofOf G (honestLogs x permutation rs w c)) ⟨domain, threads⟩
      ⟨generatorsOf G x.base x.h, T, x.u.map G.scalar, announcementOf G
        ((announceLogs x (honestLogs x permutation rs w c).chain w).shift
          (c • excessLogs x permutation rs))⟩ := by
  obtain ⟨hx, hT, hu, -⟩ := answers
  have hπ : (honestLogs x permutation rs w c).HasSize n := by
    constructor <;> simp [honestLogs, length_of_perm_range hp, size.link, size.wHat, size.wTilde]
  rw [← recomputeLogs_claimed x c hp size hn hx.h hx.u hx.inputs hr]
  exact derives_of_logs G hn hx hπ hgens hT hu

end Answers

/-- With any nonces there is a proof, and every verifier accepts it. -/
theorem exists_proof {n : ℕ} {y base : ZMod G.q} {inputs : List (ZMod G.q × ZMod G.q)}
    {permutation : List ℕ} {rs hs : List (ZMod G.q)} {w : NonceLogs G.q} (options : Options)
    (hn : n ≠ 0) (hi : inputs.length = n) (hp : permutation.Perm (List.range n))
    (hr : rs.length = n) (size : w.HasSize n)
    (hgens : generators G options.domain n = .ok (generatorsOf G base hs)) :
    ∃ proof,
      proveWith G ⟨some (G.element y)⟩ (inputs.map G.cipherOf)
        ((shuffleLogs y inputs permutation rs).map G.cipherOf) permutation (rs.map G.scalar)
        (generatorsOf G base hs) (noncesOf G w) options = .ok proof ∧
      ∀ threads, verify G ⟨some (G.element y)⟩ (inputs.map G.cipherOf)
        ((shuffleLogs y inputs permutation rs).map G.cipherOf) proof.toProof
        ⟨options.domain, threads⟩ = .ok true := by
  have ho : (shuffleLogs y inputs permutation rs).length = n := by
    simp [shuffleLogs, length_of_perm_range hp, hr]
  obtain ⟨u, T, c, answers⟩ := exists_answers G (y := y) hi ho permutation rs w hgens
  refine ⟨_, proveWith_eq hp size answers (G.map_cast_scalars rs), fun threads => ?_⟩
  refine verify_eq_true_iff.2 ⟨_, _, rfl, derives_of_answers hp size answers hn hr hgens threads, ?_⟩
  rw [excessLogs_eq_zero rfl, smul_zero, AnnouncementLogs.shift_zero]
  exact answers.challenge

/-- The outputs are computed in the exponents. -/
theorem permuteAndReencrypt_eq {n : ℕ} (threads : ℕ) {y : ZMod G.q} (hy : y ≠ 0)
    {inputs : List (ZMod G.q × ZMod G.q)} {permutation : List ℕ} {rs : List (ZMod G.q)}
    (hi : inputs.length = n) (hp : permutation.Perm (List.range n)) (hr : ∀ r ∈ rs, r ≠ 0) :
    permuteAndReencrypt G threads ⟨some (G.element y)⟩ (inputs.map G.cipherOf) permutation
        (rs.map G.scalar) = .ok ((shuffleLogs y inputs permutation rs).map G.pairOf) := by
  have entries : permutation.zip (rs.map G.scalar)
      = (permutation.zip rs).map (Prod.map id G.scalar) := by
    rw [← List.zip_map, List.map_id]
  have reencrypted : ∀ jr ∈ permutation.zip rs,
      G.reencrypt ⟨some (G.element y)⟩ ((inputs.map G.cipherOf).getD jr.1 ⟨none, none⟩)
        (some (G.scalar jr.2))
        = .ok (G.pairOf (inputs.getD jr.1 default + Group.blind y jr.2)) := by
    intro jr hjr
    obtain ⟨hj, hr'⟩ := List.of_mem_zip hjr
    have inside : jr.1 < inputs.length := hi ▸ lt_of_mem hp hj
    rw [← G.reencrypt_cipherOf hy (hr _ hr'), List.getD_eq_getElem _ _ (by simpa using inside),
      List.getElem_map, List.getD_eq_getElem _ _ inside]
  rw [permuteAndReencrypt, entries, Workers.forList_map_eq_ok reencrypted, shuffleLogs, gather,
    List.zipWith_map_left, List.map_zipWith, List.zip, List.map_zipWith]

/-! ## Runs -/

variable {G} {σ : Type} [Source σ]

open Draw

theorem drawNonces_returns {n : ℕ} {nonces : Nonces} {s s' : σ}
    (h : (drawNonces G n).Returns s nonces s') :
    ∃ w : NonceLogs G.q, w.HasSize n ∧ nonces = noncesOf G w := by
  simp only [drawNonces, returns_bind_iff, returns_pure_iff] at h
  obtain ⟨commit, _, hcommit, link, _, hlink, w1, _, h1, w2, _, h2, w3, _, h3, w4, _, h4, wHat, _,
    hHat, wTilde, _, hTilde, rfl, -⟩ := h
  obtain ⟨commit, commit_length, -, rfl⟩ := G.randomExponents_returns hcommit
  obtain ⟨link, link_length, -, rfl⟩ := G.randomExponents_returns hlink
  obtain ⟨w1, -, rfl⟩ := G.randomExponent_returns h1
  obtain ⟨w2, -, rfl⟩ := G.randomExponent_returns h2
  obtain ⟨w3, -, rfl⟩ := G.randomExponent_returns h3
  obtain ⟨w4, -, rfl⟩ := G.randomExponent_returns h4
  obtain ⟨wHat, hat_length, -, rfl⟩ := G.randomExponents_returns hHat
  obtain ⟨wTilde, tilde_length, -, rfl⟩ := G.randomExponents_returns hTilde
  exact ⟨⟨commit, link, w1, w2, w3, w4, wHat, wTilde⟩,
    ⟨commit_length, link_length, hat_length, tilde_length⟩, rfl⟩

/-- All randomness of a shuffle of `n` ciphertexts, in the order in which it is drawn. -/
def drawShuffle (G : Group) (n : ℕ) : Draw σ (List ℕ × List ℤ × Nonces) := do
  let permutation ← Permutation.draw n
  let randomizers ← G.randomExponents n
  let nonces ← drawNonces G n
  pure (permutation, randomizers, nonces)

theorem drawShuffle_returns {n : ℕ} {permutation : List ℕ} {randomizers : List ℤ}
    {nonces : Nonces} {s s' : σ}
    (h : (drawShuffle G n).Returns s (permutation, randomizers, nonces) s') :
    permutation.Perm (List.range n) ∧
      (∃ rs : List (ZMod G.q), rs.length = n ∧ (∀ r ∈ rs, r ≠ 0) ∧ randomizers = rs.map G.scalar) ∧
      ∃ w : NonceLogs G.q, w.HasSize n ∧ nonces = noncesOf G w := by
  simp only [drawShuffle, returns_bind_iff, returns_pure_iff, Prod.mk.injEq] at h
  obtain ⟨permutation, _, hp, randomizers, _, hr, nonces, _, hw, ⟨rfl, rfl, rfl⟩, -⟩ := h
  exact ⟨draw_returns hp, G.randomExponents_returns hr, drawNonces_returns hw⟩

omit accepted in
/-- A run of the prover: the checks pass, the nonces are drawn, and the rest is computed. -/
theorem prove_returns_iff {pk : PublicKey} {inputs outputs : List Ciphertext}
    {permutation : List ℕ} {randomizers : List ℤ} {options : Options} {proof : CompleteProof}
    {s s' : σ} :
    (prove G pk inputs outputs permutation randomizers options).Returns s proof s' ↔
      (inputs.length ≠ 0 ∧ outputs.length = inputs.length ∧ permutation.length = inputs.length ∧
        randomizers.length = inputs.length) ∧
      isPermutation permutation = true ∧ ∃ gens nonces,
        generators G options.domain inputs.length = .ok gens ∧
        (drawNonces G inputs.length).Returns s nonces s' ∧
        proveWith G pk inputs outputs permutation randomizers gens nonces options = .ok proof := by
  simp only [prove, ExceptT.bind_throw, returns_ite_throw_iff, returns_bind_iff,
    returns_liftM_iff, Bool.or_eq_true, decide_eq_true_eq, not_or, not_not, Bool.not_eq_true',
    Bool.not_eq_false, and_assoc]
  constructor
  · rintro ⟨hn, ho, lp, hr, perm, gens, _, hg, rfl, nonces, _, drawn, made, rfl⟩
    exact ⟨hn, ho, lp, hr, perm, gens, nonces, hg, drawn, made⟩
  · rintro ⟨hn, ho, lp, hr, perm, gens, nonces, hg, drawn, made⟩
    exact ⟨hn, ho, lp, hr, perm, gens, _, hg, rfl, nonces, _, drawn, made, rfl⟩

omit accepted in
/-- A run of a shuffle: the checks pass, everything is drawn, and the rest is computed. -/
theorem shuffle_returns_iff {pk : PublicKey} {inputs : List Ciphertext} {options : Options}
    {outputs : List Pair} {proof : CompleteProof} {s s' : σ} :
    (shuffle G pk inputs options).Returns s (outputs, proof) s' ↔
      inputs ≠ [] ∧ (∃ h, G.ensureKey pk = .ok h) ∧ (∃ cs, G.ensureCiphertexts inputs = .ok cs) ∧
      ∃ permutation randomizers nonces gens,
        (drawShuffle G inputs.length).Returns s (permutation, randomizers, nonces) s' ∧
        permuteAndReencrypt G options.threads pk inputs permutation randomizers = .ok outputs ∧
        (outputs.length = inputs.length ∧ permutation.length = inputs.length ∧
          randomizers.length = inputs.length) ∧
        isPermutation permutation = true ∧
        generators G options.domain inputs.length = .ok gens ∧
        proveWith G pk inputs (outputs.map Pair.toCiphertext) permutation randomizers gens nonces
          options = .ok proof := by
  simp only [shuffle, prove_returns_iff, drawShuffle, ExceptT.bind_throw, returns_ite_throw_iff,
    returns_bind_iff, returns_pure_iff, returns_liftM_iff, Prod.mk.injEq, List.length_map]
  constructor
  · rintro ⟨ne, _, _, ⟨hk, rfl⟩, _, _, ⟨hc, rfl⟩, permutation, _, hp, randomizers, _, hr, outs, _,
      ⟨ho, rfl⟩, made, _, ⟨⟨-, lengths⟩, perm, gens, nonces, hg, hn, hπ⟩, ⟨rfl, rfl⟩, rfl⟩
    exact ⟨by simpa using ne, ⟨_, hk⟩, ⟨_, hc⟩, permutation, randomizers, nonces, gens,
      ⟨_, _, hp, _, _, hr, _, _, hn, ⟨rfl, rfl, rfl⟩, rfl⟩, ho, lengths, perm, hg, hπ⟩
  · rintro ⟨ne, ⟨_, hk⟩, ⟨_, hc⟩, _, _, _, gens,
      ⟨permutation, _, hp, randomizers, _, hr, nonces, _, hn, ⟨rfl, rfl, rfl⟩, rfl⟩, ho, lengths,
      perm, hg, hπ⟩
    exact ⟨by simpa using ne, _, _, ⟨hk, rfl⟩, _, _, ⟨hc, rfl⟩, permutation, _, hp, randomizers, _,
      hr, outputs, _, ⟨ho, rfl⟩, proof, _,
      ⟨⟨by simpa using ne, lengths⟩, perm, gens, nonces, hg, hn, hπ⟩, ⟨rfl, rfl⟩, rfl⟩

end BallotMix.Shuffle
