import BallotMix.Proofs.Shuffle.Verifier
import Mathlib

/-!
# Extraction from two proofs

Two proofs about one statement that share their commitment and their chain, have different
challenges and lead the verifier to one announcement give exponents for everything the prover claims
to know (`extract`): the openings of the commitment and of the chain, the permuted scalars, and the
nonce by which the weighted product of the outputs differs from that of the inputs.
-/

namespace BallotMix.Shuffle

/-! ## Exponents from answers -/

/-- The exponents that two proofs give. -/
structure Extract (q : ℕ) where
  r1 : ZMod q
  r2 : ZMod q
  r3 : ZMod q
  r4 : ZMod q
  rHat : List (ZMod q)
  uTilde : List (ZMod q)

/-- The differences of the answers of two proofs over the difference of their challenges. -/
def extract (q : ℕ) (proof proof' : CompleteProof) : Extract q :=
  let e : ZMod q := (proof.challenge - proof'.challenge : ZMod q)⁻¹
  { r1 := (proof'.s1 - proof.s1) * e
    r2 := (proof'.s2 - proof.s2) * e
    r3 := (proof'.s3 - proof.s3) * e
    r4 := (proof'.s4 - proof.s4) * e
    rHat := List.zipWith (fun s s' : ℤ => (s' - s : ZMod q) * e) proof.sHat proof'.sHat
    uTilde := List.zipWith (fun s s' : ℤ => (s' - s : ZMod q) * e) proof.sTilde proof'.sTilde }

/-- The product of powers modulo `p`, each base with the exponent at its place. -/
def powers (G : Group) (bases : List ℤ) (exponents : List (ZMod G.q)) : ZMod G.p :=
  (List.zipWith (fun (b : ℤ) e => (b : ZMod G.p) ^ e.val) bases exponents).prod

/-- The scalars of the inputs as exponents. -/
def Derivation.exponents (d : Derivation) (q : ℕ) : List (ZMod q) := d.u.map Int.cast

/-- Two answers to two challenges in one equation. -/
theorem eq_quotient {q : ℕ} [Fact q.Prime] {a c c' s s' : ZMod q}
    (h : a * c + s = a * c' + s') (differ : c ≠ c') : a = (s' - s) * (c - c')⁻¹ := by
  rw [eq_mul_inv_iff_mul_eq₀ (sub_ne_zero.2 differ)]
  linear_combination h

/-- What exponents that two proofs give satisfy: they open the commitment and every link of the
chain, and the permuted scalars weight the outputs to a re-encryption of the weighted inputs. -/
structure Opens (G : Group) [G.Accepted] (h : ℤ) (ins outs : List Pair) (proof : CompleteProof)
    (d : Derivation) (r : Extract G.q) : Prop where
  /-- The product of the commitment is blinded by `r1`. -/
  sum : (proof.commitment.map Int.cast).prod
    = (G.g : ZMod G.p) ^ r.r1.val * (d.gens.h.map Int.cast).prod
  /-- Each link is a power of the one before it, the first of the start. -/
  links : ∀ i < ins.length, (proof.chain.getD i 0 : ZMod G.p)
    = (G.g : ZMod G.p) ^ (r.rHat.getD i 0).val
      * ((d.gens.base :: proof.chain).getD i 0 : ZMod G.p) ^ (r.uTilde.getD i 0).val
  /-- The last link is the start to the product of the scalars, blinded by `r2`. -/
  last : (proof.chain.getLastD 0 : ZMod G.p)
    = (G.g : ZMod G.p) ^ r.r2.val * (d.gens.base : ZMod G.p) ^ (d.exponents G.q).prod.val
  /-- The weighted product of the commitment has the permuted scalars in its exponents. -/
  weighted : powers G proof.commitment (d.exponents G.q)
    = (G.g : ZMod G.p) ^ r.r3.val * powers G d.gens.h r.uTilde
  /-- The first components. -/
  first : powers G (ins.map fun c => c.c1) (d.exponents G.q) * (G.g : ZMod G.p) ^ r.r4.val
    = powers G (outs.map fun c => c.c1) r.uTilde
  /-- The second components. -/
  second : powers G (ins.map fun c => c.c2) (d.exponents G.q) * (h : ZMod G.p) ^ r.r4.val
    = powers G (outs.map fun c => c.c2) r.uTilde
  /-- The plaintexts, for every secret key of the public key. -/
  plain : ∀ sk : ℤ, (h : ZMod G.p) = (G.g : ZMod G.p) ^ sk →
    ∃ ms ms', (ins.map Pair.toCiphertext).mapM (G.decrypt ⟨some sk⟩) = .ok ms ∧
      (outs.map Pair.toCiphertext).mapM (G.decrypt ⟨some sk⟩) = .ok ms' ∧
      powers G ms (d.exponents G.q) = powers G ms' r.uTilde

variable {G : Group} [accepted : G.Accepted]

theorem powers_elements (as es : List (ZMod G.q)) :
    powers G (as.map G.element) es = G.residue (dot as es) := by
  rw [powers, List.zipWith_map_left, dot, G.residue_sum, List.map_zipWith]
  simp only [G.cast_element, G.residue_mul]

theorem prod_cast_elements (as : List (ZMod G.q)) :
    ((as.map G.element).map (Int.cast : ℤ → ZMod G.p)).prod = G.residue as.sum := by
  rw [G.residue_sum, List.map_map]
  simp only [Function.comp_def, G.cast_element]

/-- The exponents that two proofs give, by the exponents of the proofs. -/
def extractLogs {q : ℕ} (π π' : ProofLogs q) : Extract q :=
  let e := (π.challenge - π'.challenge)⁻¹
  { r1 := (π'.s1 - π.s1) * e
    r2 := (π'.s2 - π.s2) * e
    r3 := (π'.s3 - π.s3) * e
    r4 := (π'.s4 - π.s4) * e
    rHat := List.zipWith (fun s s' => (s' - s) * e) π.sHat π'.sHat
    uTilde := List.zipWith (fun s s' => (s' - s) * e) π.sTilde π'.sTilde }

theorem extract_proofOf (π π' : ProofLogs G.q) :
    extract G.q (proofOf G π) (proofOf G π') = extractLogs π π' := by
  simp [extract, extractLogs, proofOf, List.zipWith_map]

/-! ## The equations -/

section Logs

variable {q n : ℕ} {x : StatementLogs q} {π π' : ProofLogs q}

theorem getElem?_tHat (hπ : π.HasSize n) {i : ℕ} (hi : i < n) :
    (recomputeLogs x π).tHat[i]? = some (π.chain.getD i 0 * π.challenge + π.sHat.getD i 0 +
      (x.base :: π.chain).getD i 0 * π.sTilde.getD i 0) := by
  obtain ⟨-, hchain, hHat, hTilde⟩ := hπ
  rw [recomputeLogs, ProofLogs.links, zip_previousLogs (by simp [hchain, hHat, hTilde])]
  have h₀ : i < (x.base :: π.chain).length := by rw [List.length_cons]; omega
  have h₁ : i < π.chain.length := by omega
  have h₂ : i < π.sHat.length := by omega
  have h₃ : i < π.sTilde.length := by omega
  rw [List.getD_eq_getElem _ _ h₀, List.getD_eq_getElem _ _ h₁, List.getD_eq_getElem _ _ h₂,
    List.getD_eq_getElem _ _ h₃]
  simp [h₁, h₂, h₃]

theorem dot_uTilde (hπ : π.HasSize n) (hπ' : π'.HasSize n) (as : List (ZMod q)) :
    dot as (extractLogs π π').uTilde
      = (dot as π'.sTilde - dot as π.sTilde) * (π.challenge - π'.challenge)⁻¹ :=
  dot_quotients as _ (hπ.sTilde.trans hπ'.sTilde.symm)

variable [Fact q.Prime] (same : recomputeLogs x π = recomputeLogs x π')
  (differ : π.challenge ≠ π'.challenge)
include same differ

theorem sum_extractLogs (commitment : π'.commitment = π.commitment) :
    π.commitment.sum = (extractLogs π π').r1 + x.h.sum := by
  have h := congrArg AnnouncementLogs.t1 same
  simp only [recomputeLogs, commitment] at h
  rw [← sub_eq_iff_eq_add]
  exact eq_quotient h differ

theorem last_extractLogs (chain : π'.chain = π.chain) :
    π.chain.getLastD 0 = (extractLogs π π').r2 + x.base * x.u.prod := by
  have h := congrArg AnnouncementLogs.t2 same
  simp only [recomputeLogs, chain] at h
  rw [← sub_eq_iff_eq_add]
  exact eq_quotient h differ

variable (hπ : π.HasSize n) (hπ' : π'.HasSize n)
include hπ hπ'

theorem weighted_extractLogs (commitment : π'.commitment = π.commitment) :
    dot π.commitment x.u = (extractLogs π π').r3 + dot x.h (extractLogs π π').uTilde := by
  have h := congrArg AnnouncementLogs.t3 same
  simp only [recomputeLogs, commitment] at h
  have quotient : dot π.commitment x.u = ((π'.s3 + dot x.h π'.sTilde) -
      (π.s3 + dot x.h π.sTilde)) * (π.challenge - π'.challenge)⁻¹ :=
    eq_quotient (by linear_combination h) differ
  rw [quotient, dot_uTilde hπ hπ', extractLogs]
  ring

theorem first_extractLogs :
    dot (x.inputs.map Prod.fst) x.u + (extractLogs π π').r4
      = dot (x.outputs.map Prod.fst) (extractLogs π π').uTilde := by
  have h := congrArg AnnouncementLogs.t41 same
  simp only [recomputeLogs] at h
  have quotient : dot (x.inputs.map Prod.fst) x.u =
      ((-π'.s4 + dot (x.outputs.map Prod.fst) π'.sTilde) -
        (-π.s4 + dot (x.outputs.map Prod.fst) π.sTilde)) * (π.challenge - π'.challenge)⁻¹ :=
    eq_quotient (by linear_combination h) differ
  rw [quotient, dot_uTilde hπ hπ', extractLogs]
  ring

theorem second_extractLogs :
    dot (x.inputs.map Prod.snd) x.u + x.key * (extractLogs π π').r4
      = dot (x.outputs.map Prod.snd) (extractLogs π π').uTilde := by
  have h := congrArg AnnouncementLogs.t42 same
  simp only [recomputeLogs] at h
  have quotient : dot (x.inputs.map Prod.snd) x.u =
      ((x.key * -π'.s4 + dot (x.outputs.map Prod.snd) π'.sTilde) -
        (x.key * -π.s4 + dot (x.outputs.map Prod.snd) π.sTilde)) *
          (π.challenge - π'.challenge)⁻¹ :=
    eq_quotient (by linear_combination h) differ
  rw [quotient, dot_uTilde hπ hπ', extractLogs]
  ring

theorem link_extractLogs (chain : π'.chain = π.chain) {i : ℕ} (hi : i < n) :
    π.chain.getD i 0 = (extractLogs π π').rHat.getD i 0 +
      (x.base :: π.chain).getD i 0 * (extractLogs π π').uTilde.getD i 0 := by
  have h := congrArg (fun t => t.tHat[i]?) same
  simp only [getElem?_tHat hπ hi, getElem?_tHat hπ' hi, chain, Option.some.injEq] at h
  have quotient : π.chain.getD i 0 =
      ((π'.sHat.getD i 0 + (x.base :: π.chain).getD i 0 * π'.sTilde.getD i 0) -
        (π.sHat.getD i 0 + (x.base :: π.chain).getD i 0 * π.sTilde.getD i 0)) *
          (π.challenge - π'.challenge)⁻¹ :=
    eq_quotient (by linear_combination h) differ
  have entry (xs xs' : List (ZMod q)) (e : ZMod q) (h : i < xs.length) (h' : i < xs'.length) :
      (List.zipWith (fun s s' => (s' - s) * e) xs xs').getD i 0
        = (xs'.getD i 0 - xs.getD i 0) * e := by
    rw [List.getD_eq_getElem _ _ h, List.getD_eq_getElem _ _ h',
      List.getD_eq_getElem _ _ (by rw [List.length_zipWith]; omega), List.getElem_zipWith]
  rw [extractLogs, entry _ _ _ (by rwa [hπ.sHat]) (by rwa [hπ'.sHat]),
    entry _ _ _ (by rwa [hπ.sTilde]) (by rwa [hπ'.sTilde])]
  linear_combination quotient

theorem plain_extractLogs :
    dot (x.inputs.map (Group.plainLog x.key)) x.u
      = dot (x.outputs.map (Group.plainLog x.key)) (extractLogs π π').uTilde := by
  rw [Group.dot_plainLog, Group.dot_plainLog, ← first_extractLogs same differ hπ hπ',
    ← second_extractLogs same differ hπ hπ']
  ring

end Logs

/-- Two runs with one statement, one commitment and one chain have the same statement by
exponents. -/
theorem Derives.exists_logs₂ {pk : PublicKey} {inputs outputs : List Ciphertext} {domain : Bytes}
    {threads threads' : ℕ} {proof proof' : CompleteProof} {d d' : Derivation}
    (run : Derives G pk inputs outputs proof ⟨domain, threads⟩ d)
    (run' : Derives G pk inputs outputs proof' ⟨domain, threads'⟩ d')
    (commitment : proof'.commitment = proof.commitment) :
    ∃ (n : ℕ) (x : StatementLogs G.q) (π π' : ProofLogs G.q), n ≠ 0 ∧ x.HasSize n ∧
      π.HasSize n ∧ π'.HasSize n ∧ pk = ⟨some (G.element x.key)⟩ ∧
      inputs = x.inputs.map G.cipherOf ∧ outputs = x.outputs.map G.cipherOf ∧
      proof = proofOf G π ∧ proof' = proofOf G π' ∧
      d.gens = generatorsOf G x.base x.h ∧ d.u = x.u.map G.scalar ∧
      d.announcement = announcementOf G (recomputeLogs x π) ∧
      d'.announcement = announcementOf G (recomputeLogs x π') := by
  obtain ⟨n, x, π, hn, hx, hπ, rfl, rfl, rfl, rfl, hgens, hu, ht⟩ := run.exists_logs
  obtain ⟨n', x', π', -, hx', hπ', hkey, hin, hout, rfl, hgens', hu', ht'⟩ := run'.exists_logs
  have inputs : x'.inputs = x.inputs := (G.cipherOf_injective.list_map hin).symm
  have outputs : x'.outputs = x.outputs := (G.cipherOf_injective.list_map hout).symm
  have key : x'.key = x.key := by simpa [eq_comm] using hkey
  have gens : d'.gens = d.gens := Except.ok.inj (run'.gens.symm.trans run.gens)
  rw [hgens, hgens', generatorsOf_inj] at gens
  have statement : d'.statement = d.statement := by
    have h := run'.statement
    rw [commitment] at h
    exact Except.ok.inj (h.symm.trans run.statement)
  have u : d'.u = d.u := by
    have h := run'.u
    rw [statement] at h
    exact Except.ok.inj (h.symm.trans run.u)
  rw [hu, hu'] at u
  have same : x' = x := by
    obtain ⟨base, hs, y, ins, outs, us⟩ := x
    obtain ⟨base', hs', y', ins', outs', us'⟩ := x'
    obtain ⟨rfl, rfl⟩ := gens
    obtain rfl := G.scalar_injective.list_map u
    obtain rfl := inputs
    obtain rfl := outputs
    obtain rfl := key
    rfl
  subst same
  obtain rfl : n' = n := hx'.h.symm.trans hx.h
  exact ⟨n', x', π, π', hn, hx, hπ, hπ', rfl, rfl, rfl, rfl, rfl, hgens, hu, ht, ht'⟩

/-! ## Extraction -/

/-- Two proofs with one commitment and one chain, different challenges and one announcement open
what the prover committed to, whatever the prover did. -/
theorem shuffle_extraction {ins outs : List Pair} {h : ℤ} {domain : Bytes} {threads threads' : ℕ}
    {proof proof' : CompleteProof} {d d' : Derivation}
    (run : Derives G ⟨some h⟩ (ins.map Pair.toCiphertext) (outs.map Pair.toCiphertext) proof
      ⟨domain, threads⟩ d)
    (run' : Derives G ⟨some h⟩ (ins.map Pair.toCiphertext) (outs.map Pair.toCiphertext) proof'
      ⟨domain, threads'⟩ d')
    (commitment : proof'.commitment = proof.commitment) (chain : proof'.chain = proof.chain)
    (same : d'.announcement = d.announcement) (differ : proof.challenge ≠ proof'.challenge) :
    Opens G h ins outs proof d (extract G.q proof proof') := by
  obtain ⟨n, x, π, π', hn, hx, hπ, hπ', hkey, hin, hout, rfl, rfl, hgens, hu, ht, ht'⟩ :=
    run.exists_logs₂ run' commitment
  obtain rfl : h = G.element x.key := by simpa using hkey
  obtain rfl := G.eq_map_pairOf hin
  obtain rfl := G.eq_map_pairOf hout
  have logs : recomputeLogs x π = recomputeLogs x π' := by
    apply announcementOf_injective G
    rw [← ht, ← ht', same]
  have commitments : π'.commitment = π.commitment := G.element_injective.list_map commitment
  have chains : π'.chain = π.chain := G.element_injective.list_map chain
  have challenges : π.challenge ≠ π'.challenge := fun h => differ (congrArg G.scalar h)
  obtain ⟨gens, T, u, t⟩ := d
  obtain rfl : gens = generatorsOf G x.base x.h := hgens
  obtain rfl : u = x.u.map G.scalar := hu
  rw [extract_proofOf]
  constructor
  all_goals simp only [Derivation.exponents, G.map_cast_scalars, G.map_c1_pairOf, G.map_c2_pairOf,
    generatorsOf, proofOf, powers_elements, prod_cast_elements, ← G.residue_one, ← G.residue_mul,
    ← G.residue_add, one_mul, G.cast_element]
  case sum => rw [sum_extractLogs logs challenges commitments]
  case links =>
    intro i hi
    rw [List.length_map, hx.inputs] at hi
    have inside : i < π.chain.length := by rwa [hπ.chain]
    have before : i < (x.base :: π.chain).length := by rw [List.length_cons]; omega
    rw [getD_elements G inside, ← List.map_cons, getD_elements G before, G.cast_element,
      G.cast_element, ← G.residue_mul, ← G.residue_add,
      link_extractLogs logs challenges hπ hπ' chains hi]
  case last =>
    have nonempty : π.chain ≠ [] := by
      rw [← List.length_pos_iff, hπ.chain]
      omega
    rw [getLastD_elements G nonempty, G.cast_element, last_extractLogs logs challenges chains]
  case weighted => rw [weighted_extractLogs logs challenges hπ hπ' commitments]
  case first => rw [first_extractLogs logs challenges hπ hπ']
  case second => rw [second_extractLogs logs challenges hπ hπ']
  case plain =>
    intro sk hsk
    rw [G.residue_one, ← G.residue_intCast] at hsk
    have key : x.key = sk := G.residue_injective hsk
    rw [hin, hout, G.mapM_decrypt, G.mapM_decrypt, ← key]
    refine ⟨_, _, rfl, rfl, ?_⟩
    rw [powers_elements, powers_elements, plain_extractLogs logs challenges hπ hπ']

/-- Two proofs of one shuffle of two ciphertexts, made with the same nonces: the first answers the
challenge of its transcript, the second the challenge one. -/
theorem shuffle_extraction_least :
    let ins : List Pair := [⟨4, 16⟩, ⟨4, 4⟩]
    let outs : List Pair := [⟨16, 16⟩, ⟨64, 256⟩]
    let inputs := ins.map Pair.toCiphertext
    let outputs := outs.map Pair.toCiphertext
    let proof : CompleteProof := ⟨1017236582, 678063711, 968645999, 521974396, 995678812,
      [621558406, 734569025], [172216171, 411731332], [1743314049, 329987194],
      [554208173, 1105395572]⟩
    let proof' : CompleteProof := ⟨1, 1073741882, 886907915, 101041054, 146675331,
      [1073741887, 1073741886], [83032247, 568692499], [1743314049, 329987194],
      [554208173, 1105395572]⟩
    verify Group.least ⟨some 4⟩ inputs outputs proof.toProof ⟨[], 1⟩ = .ok true ∧
    ∃ d, Derives Group.least ⟨some 4⟩ inputs outputs proof ⟨[], 1⟩ d ∧
      Derives Group.least ⟨some 4⟩ inputs outputs proof' ⟨[], 2⟩ d ∧
      Opens Group.least 4 ins outs proof d (extract 1073741891 proof proof') := by
  intro ins outs inputs outputs proof proof'
  have derived : (do
      let T ← statement Group.least [] ⟨some 4⟩ inputs outputs [1743314049, 329987194]
      weights Group.least T 2) = .ok [505049402, 990709653] := by decide +kernel
  obtain ⟨T, hT, hu⟩ := Result.bind_eq_ok_iff.1 derived
  let d : Derivation := ⟨⟨1130500430, [2034559821, 915644381]⟩, T, [505049402, 990709653],
    ⟨64, 256, 283217639, 1279257995, 1403603349, [2015653535, 217948029]⟩⟩
  have gens : generators Group.least [] 2 = .ok ⟨1130500430, [2034559821, 915644381]⟩ := by
    decide +kernel
  have run : Derives Group.least ⟨some 4⟩ inputs outputs proof ⟨[], 1⟩ d :=
    { lengths := by decide, key := by decide +kernel, scalars := by decide
      elements := by decide +kernel, gens, statement := hT, u := hu
      announcement := ⟨4, ins, outs, rfl, rfl, rfl, by dsimp only [d]; decide +kernel⟩ }
  have run' : Derives Group.least ⟨some 4⟩ inputs outputs proof' ⟨[], 2⟩ d :=
    { lengths := by decide, key := by decide +kernel, scalars := by decide
      elements := by decide +kernel, gens, statement := hT, u := hu
      announcement := ⟨4, ins, outs, rfl, rfl, rfl, by dsimp only [d]; decide +kernel⟩ }
  have opens : Opens Group.least 4 ins outs proof d _ :=
    shuffle_extraction run run' rfl rfl rfl (by decide)
  exact ⟨by decide +kernel, d, run, run', opens⟩

end BallotMix.Shuffle
