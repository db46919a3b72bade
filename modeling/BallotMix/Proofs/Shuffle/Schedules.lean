import BallotMix.Proofs.Entropy.Permutation
import BallotMix.Proofs.Workers
import BallotMix.Shuffle.Prove
import BallotMix.Shuffle.Verify
import Mathlib

/-!
# Shuffles on any number of threads

No loop of a shuffle has a task that fails.  Before the first loop of prover and verifier the
generators are derived, and without a modulus there are none (`modulus_ne_zero`); with a modulus
every product and every power has a value.  The only loop that comes before is the one that
re-encrypts, and what it is given has been checked (`exists_reencrypt`).  So every loop gives what
it gives in order, whoever goes next, and the whole runs as on one thread (`verify_eq_serial`,
`prove_eq_serial`, `shuffle_eq_serial`).  This holds of any group, checked or not.
-/

namespace BallotMix

/-! ## Steps that do not fail -/

namespace Group

variable {G : Group}

theorem modulus_ne_zero_of_generatorFrom {domain : Bytes} {index : UInt32} {tries : ℕ}
    {counter : UInt32} {h : ℤ} (found : G.generatorFrom domain index tries counter = .ok h) :
    G.p ≠ 0 := by
  cases tries with
  | zero => cases found
  | succ tries =>
    intro zero
    simp [generatorFrom, generatorCandidate, Modular.reduce, zero] at found

/-- Where there is a public key there is a second member, and a modulus of at least three. -/
theorem three_le_modulus {pk : PublicKey} {h : ℤ} (key : G.ensureKey pk = .ok h) : 3 ≤ G.p := by
  simp only [ensureKey, Result.bind_eq_ok_iff, ensureMember_eq_ok_iff] at key
  obtain ⟨v, ⟨member, found⟩, rest⟩ := key
  obtain ⟨w, hw, positive, small, -⟩ := G.exists_of_isMember member
  obtain rfl : v = w := Option.some.inj (found.symm.trans hw)
  by_cases one : v = 1
  · rw [if_pos one] at rest
    cases rest
  · omega

theorem isMember_one (large : 1 < G.p) : G.isMember (some 1) = true := by
  have power : Modular.powNat 1 G.q G.p = 1 := by
    rw [Modular.powNat_eq (by omega), one_pow, Nat.mod_eq_of_lt large]
  have above : (1 : ℤ) < G.p := by omega
  simp [isMember, power, above]

section Modulus

variable (nonzero : G.p ≠ 0)
include nonzero

theorem exists_pow (x e : ℤ) : ∃ y, G.pow x e = .ok y :=
  ⟨_, if_neg fun h => nonzero h.1⟩

theorem exists_genPow (e : ℤ) : ∃ y, G.genPow e = .ok y := exists_pow nonzero G.g e

theorem exists_mul (x y : ℤ) : ∃ z, G.mul x y = .ok z := ⟨_, if_neg nonzero⟩

theorem exists_mulPair (a b : Pair) : ∃ c, G.mulPair a b = .ok c :=
  Result.exists_bind (exists_mul nonzero _ _) fun _ =>
    Result.exists_bind (exists_mul nonzero _ _) fun _ => ⟨_, rfl⟩

end Modulus

/-- A checked ciphertext has a re-encryption under a checked key, with any nonce there is. -/
theorem exists_reencrypt {pk : PublicKey} {h r : ℤ} {ct : Ciphertext} {c : Pair}
    (key : G.ensureKey pk = .ok h) (checked : G.ensureCiphertext ct = .ok c)
    (scalar : G.isScalar (some r) = true) (ne : r ≠ 0) :
    ∃ c', G.reencrypt pk ct (some r) = .ok c' := by
  have large := three_le_modulus key
  have nonzero : G.p ≠ 0 := by omega
  have plaintext : G.ensureMember "plaintext" (some 1) = .ok 1 :=
    G.ensureMember_eq_ok_iff.2 ⟨isMember_one (by omega), rfl⟩
  have nonce : G.ensureExponent .nonceRange (some r) = .ok r := by
    simp [ensureExponent, scalar, ne]
  have blind : ∃ b, G.encrypt pk (some 1) (some r) = .ok b := by
    simp only [encrypt, key, plaintext, nonce, Result.ok_bind]
    exact Result.exists_bind (exists_genPow nonzero r) fun _ =>
      Result.exists_bind (exists_pow nonzero h r) fun _ =>
        Result.exists_bind (exists_mul nonzero _ _) fun _ => ⟨_, rfl⟩
  rw [reencrypt, checked, Result.ok_bind]
  exact Result.exists_bind blind fun _ => exists_mulPair nonzero _ _

theorem isScalar_of_randomExponent_returns {σ : Type} [Source σ] {r : ℤ} {s s' : σ}
    (h : G.randomExponent.Returns s r s') : G.isScalar (some r) = true ∧ r ≠ 0 := by
  obtain ⟨v, t, hv, rest⟩ := Draw.returns_bind_iff.1 h
  obtain ⟨rfl, -⟩ := Draw.returns_pure_iff.1 rest
  have bounds := uniform_bounds hv
  simp only [isScalar, Bool.and_eq_true, decide_eq_true_eq]
  omega

theorem isScalar_of_randomExponents_returns {σ : Type} [Source σ] {n : ℕ} {rs : List ℤ} {s s' : σ}
    (h : (G.randomExponents n).Returns s rs s') :
    ∀ r ∈ rs, G.isScalar (some r) = true ∧ r ≠ 0 := by
  induction n generalizing rs s with
  | zero =>
    obtain ⟨rfl, -⟩ := Draw.returns_pure_iff.1 h
    simp
  | succ n ih =>
    obtain ⟨r, t, hr, rest⟩ := Draw.returns_bind_iff.1 h
    obtain ⟨rs', t', hrs, last⟩ := Draw.returns_bind_iff.1 rest
    obtain ⟨rfl, rfl⟩ := Draw.returns_pure_iff.1 last
    exact List.forall_mem_cons.2 ⟨isScalar_of_randomExponent_returns hr, ih hrs⟩

end Group

namespace Shuffle

open Workers

variable {G : Group}

/-- Without a modulus there are no generators. -/
theorem modulus_ne_zero {domain : Bytes} {n : ℕ} {gens : Generators}
    (h : generators G domain n = .ok gens) : G.p ≠ 0 := by
  obtain ⟨base, found, -⟩ := Result.bind_eq_ok_iff.1 h
  exact Group.modulus_ne_zero_of_generatorFrom found

/-! ## Loops -/

section Loops

variable {scheduler : Scheduler} (nonzero : G.p ≠ 0)
include nonzero

theorem powProd_eq_mapM (threads : ℕ) (bases exponents : List ℤ) :
    powProd G threads bases exponents
      = (bases.zip exponents).mapM (fun be => G.pow be.1 be.2) >>= G.prod := by
  rw [powProd, forList_eq_mapM fun be _ => Group.exists_pow nonzero be.1 be.2]

theorem commitTo_eq_serial (threads : ℕ) (gens : Generators) (permutation : List ℕ)
    (exponents : List ℤ) :
    commitTo G threads gens permutation exponents
      = @commitTo .turns G 1 gens permutation exponents := by
  have committed : ∀ rh ∈ exponents.zip gens.h, ∃ y, G.genPow rh.1 >>= (G.mul · rh.2) = .ok y :=
    fun rh _ =>
      Result.exists_bind (Group.exists_genPow nonzero rh.1) fun _ => Group.exists_mul nonzero _ _
  simp only [commitTo, forList_eq_mapM committed]

theorem makeChain_eq_serial (threads : ℕ) (gens : Generators) (exponents permuted : List ℤ) :
    makeChain G threads gens exponents permuted
      = @makeChain .turns G 1 gens exponents permuted := by
  have blinded : ∀ e ∈ exponents, ∃ y, G.genPow e = .ok y := fun e _ =>
    Group.exists_genPow nonzero e
  simp only [makeChain, forList_eq_mapM blinded]

theorem announce_eq_serial (threads : ℕ) (gens : Generators) (h : ℤ) (outputs : List Pair)
    (chain : List ℤ) (nonces : Nonces) :
    announce G threads gens h outputs chain nonces
      = @announce .turns G 1 gens h outputs chain nonces := by
  have linked : ∀ link ∈ (previousLinks gens.base chain).zip (nonces.wHat.zip nonces.wTilde),
      ∃ y, (do
        G.mul (← G.genPow link.2.1) (← G.pow link.1 link.2.2)) = .ok y := fun link _ =>
    Result.exists_bind (Group.exists_genPow nonzero _) fun _ =>
      Result.exists_bind (Group.exists_pow nonzero _ _) fun _ => Group.exists_mul nonzero _ _
  simp only [announce, powProd_eq_mapM nonzero, forList_eq_mapM linked]

theorem recompute_eq_serial (threads : ℕ) (gens : Generators) (h : ℤ) (inputs outputs : List Pair)
    (u : List ℤ) (proof : CompleteProof) :
    recompute G threads gens h inputs outputs u proof
      = @recompute .turns G 1 gens h inputs outputs u proof := by
  have linked : ∀ link ∈ (previousLinks gens.base proof.chain).zip
        (proof.chain.zip (proof.sHat.zip proof.sTilde)),
      ∃ y, (do
        G.mul (← G.mul (← G.pow link.2.1 proof.challenge) (← G.genPow link.2.2.1))
          (← G.pow link.1 link.2.2.2)) = .ok y := fun link _ =>
    Result.exists_bind (Group.exists_pow nonzero _ _) fun _ =>
      Result.exists_bind (Group.exists_genPow nonzero _) fun _ =>
        Result.exists_bind (Group.exists_mul nonzero _ _) fun _ =>
          Result.exists_bind (Group.exists_pow nonzero _ _) fun _ => Group.exists_mul nonzero _ _
  simp only [recompute, powProd_eq_mapM nonzero, forList_eq_mapM linked]

theorem proveWith_eq_serial (pk : PublicKey) (inputs outputs : List Ciphertext)
    (permutation : List ℕ) (randomizers : List ℤ) (gens : Generators) (nonces : Nonces)
    (options : Options) :
    proveWith G pk inputs outputs permutation randomizers gens nonces options
      = @proveWith .turns G pk inputs outputs permutation randomizers gens nonces
          { options with threads := 1 } := by
  unfold proveWith
  rw [commitTo_eq_serial nonzero]
  simp only [makeChain_eq_serial nonzero options.threads, announce_eq_serial nonzero options.threads]

end Loops

variable {scheduler : Scheduler}

theorem elementsInGroup_eq_serial (threads : ℕ) (inputs outputs : List Ciphertext) (proof : Proof) :
    elementsInGroup G threads inputs outputs proof
      = @elementsInGroup .turns G 1 inputs outputs proof := by
  have answered : ∀ row ∈ (inputs.zip outputs).zip (proof.commitment.zip proof.chain),
      ∃ b, (pure ([row.1.1.c1, row.1.1.c2, row.1.2.c1, row.1.2.c2, row.2.1, row.2.2].all
        G.isMember) : Result Bool) = .ok b := fun row _ => ⟨_, rfl⟩
  simp only [elementsInGroup, forList_eq_mapM answered]

/-! ## Whole runs -/

/-- A verifier answers as on one thread. -/
theorem verify_eq_serial (pk : PublicKey) (inputs outputs : List Ciphertext) (proof : Proof)
    (options : Options) :
    verify G pk inputs outputs proof options
      = @verify .turns G pk inputs outputs proof { options with threads := 1 } := by
  simp only [verify, elementsInGroup_eq_serial options.threads]
  refine ite_congr rfl (fun _ => rfl) fun _ => ite_congr rfl (fun _ => rfl) fun _ =>
    ite_congr rfl (fun _ => rfl) fun _ => bind_congr fun inside =>
      ite_congr rfl (fun _ => rfl) fun _ => bind_congr fun proof => ?_
  refine Result.bind_congr_of_ok fun gens found => ?_
  simp only [recompute_eq_serial (modulus_ne_zero found) options.threads]

/-- A prover makes the same proof as on one thread, and leaves its source the same. -/
theorem prove_eq_serial {σ : Type} [Source σ] (pk : PublicKey) (inputs outputs : List Ciphertext)
    (permutation : List ℕ) (randomizers : List ℤ) (options : Options) :
    (prove G pk inputs outputs permutation randomizers options : Draw σ CompleteProof)
      = @prove .turns σ _ G pk inputs outputs permutation randomizers
          { options with threads := 1 } := by
  simp only [prove, ExceptT.bind_throw]
  refine ite_congr rfl (fun _ => rfl) fun _ => ite_congr rfl (fun _ => rfl) fun _ => ?_
  refine Draw.bind_congr_of_returns fun gens _ _ derived => bind_congr fun nonces => ?_
  have nonzero := modulus_ne_zero (Draw.returns_liftM_iff.1 derived).1
  rw [proveWith_eq_serial nonzero]

theorem permuteAndReencrypt_eq_serial {pk : PublicKey} {h : ℤ} {inputs : List Ciphertext}
    {pairs : List Pair} {permutation : List ℕ} {randomizers : List ℤ}
    (key : G.ensureKey pk = .ok h) (checked : G.ensureCiphertexts inputs = .ok pairs)
    (hp : permutation.Perm (List.range inputs.length))
    (scalars : ∀ r ∈ randomizers, G.isScalar (some r) = true ∧ r ≠ 0) (threads : ℕ) :
    permuteAndReencrypt G threads pk inputs permutation randomizers
      = @permuteAndReencrypt .turns G 1 pk inputs permutation randomizers := by
  have reencrypted : ∀ jr ∈ permutation.zip randomizers,
      ∃ c, G.reencrypt pk (inputs.getD jr.1 ⟨none, none⟩) (some jr.2) = .ok c := by
    intro jr hjr
    obtain ⟨hj, hr⟩ := List.of_mem_zip hjr
    have inside := Permutation.lt_of_mem hp hj
    obtain ⟨c, -, hc⟩ := Result.exists_of_mapM checked (List.getElem_mem inside)
    rw [List.getD_eq_getElem _ _ inside]
    exact Group.exists_reencrypt key hc (scalars _ hr).1 (scalars _ hr).2
  simp only [permuteAndReencrypt, forList_eq_mapM reencrypted]

/-- A shuffle has the same outcome as on one thread, and leaves its source the same. -/
theorem shuffle_eq_serial {σ : Type} [Source σ] (pk : PublicKey) (inputs : List Ciphertext)
    (options : Options) :
    (shuffle G pk inputs options : Draw σ (List Pair × CompleteProof))
      = @shuffle .turns σ _ G pk inputs { options with threads := 1 } := by
  simp only [shuffle, ExceptT.bind_throw, prove_eq_serial _ _ _ _ _ options]
  refine ite_congr rfl (fun _ => rfl) fun _ => ?_
  refine Draw.bind_congr_of_returns fun h _ _ key => ?_
  refine Draw.bind_congr_of_returns fun pairs _ _ checked => ?_
  refine Draw.bind_congr_of_returns fun permutation _ _ drawn => ?_
  refine Draw.bind_congr_of_returns fun randomizers _ _ drawn' => ?_
  rw [permuteAndReencrypt_eq_serial (Draw.returns_liftM_iff.1 key).1
    (Draw.returns_liftM_iff.1 checked).1 (Permutation.draw_returns drawn)
    (Group.isScalar_of_randomExponents_returns drawn')]

/-- Whoever goes next and however many threads there are, a shuffle, a proof and a verification end
with the result or the failure of one thread, and leave the source as on one thread.  Underneath, a
loop does every task exactly once and ends as in order, along every schedule at whose end all
workers have stopped, if no task fails; and in any case it does no task twice, and leaves one out
only after a failure on the same stripe.  The agenda of a loop is such a schedule, and the loop ends
as it does; without threads it is that of one worker, who does what the tasks in order put on
record. -/
theorem schedule_irrelevant (G : Group) :
    (∀ (scheduler : Scheduler) (domain : Bytes) (threads : ℕ) (pk : PublicKey)
        (inputs : List Ciphertext),
      (∀ (σ : Type) [Source σ],
        @shuffle scheduler σ _ G pk inputs ⟨domain, threads⟩
          = @shuffle .turns σ _ G pk inputs ⟨domain, 1⟩) ∧
      (∀ (σ : Type) [Source σ] (outputs : List Ciphertext) (permutation : List ℕ)
          (randomizers : List ℤ),
        @prove scheduler σ _ G pk inputs outputs permutation randomizers ⟨domain, threads⟩
          = @prove .turns σ _ G pk inputs outputs permutation randomizers ⟨domain, 1⟩) ∧
      ∀ (outputs : List Ciphertext) (proof : Proof),
        @verify scheduler G pk inputs outputs proof ⟨domain, threads⟩
          = @verify .turns G pk inputs outputs proof ⟨domain, 1⟩) ∧
    (∀ (α : Type) (n count : ℕ) (task : Fin n → Result α) (schedule : List ℕ), 0 < count →
      ((Pool.start α n count).run task schedule).isDone = true →
      (∀ i, (Pool.visits task schedule (Pool.start α n count)).count i = 1 ∨
        (Pool.visits task schedule (Pool.start α n count)).count i = 0 ∧
          Pool.Blocked task count i) ∧
      ((∀ i, ∃ a, task i = .ok a) →
        (∀ i, (Pool.visits task schedule (Pool.start α n count)).count i = 1) ∧
        ((Pool.start α n count).run task schedule).outcome = (List.finRange n).mapM task)) ∧
    ∀ [Scheduler] (α : Type) (n threads : ℕ) (task : Fin n → Result α),
      let pool := Pool.start α n (crew threads n)
      let visits := Pool.visits task (agenda threads task) pool
      forRange threads n task = (pool.run task (agenda threads task)).outcome ∧
      (threads ≤ 1 ∨ n < 2 →
        ((List.finRange n).mapM (Pool.recorded task)).run [] = (forRange threads n task, visits)) ∧
      (∀ i, visits.count i = 1 ∨
        visits.count i = 0 ∧ Pool.Blocked task (crew threads n) i) ∧
      ((∀ i, ∃ a, task i = .ok a) →
        (∀ i, visits.count i = 1) ∧ forRange threads n task = (List.finRange n).mapM task) := by
  refine ⟨fun scheduler domain threads pk inputs => ⟨?_, ?_, ?_⟩, ?_, ?_⟩
  · exact fun σ _ => shuffle_eq_serial pk inputs ⟨domain, threads⟩
  · exact fun σ _ outputs permutation randomizers =>
      prove_eq_serial pk inputs outputs permutation randomizers ⟨domain, threads⟩
  · exact fun outputs proof => verify_eq_serial pk inputs outputs proof ⟨domain, threads⟩
  · intro α n count task schedule positive done
    refine ⟨Pool.count_visits positive done, fun succeeds => ⟨?_, ?_⟩⟩
    · exact Pool.count_visits_eq_one positive done succeeds
    · exact Pool.outcome_eq_mapM positive done succeeds
  · intro scheduler α n threads task pool visits
    have positive := crew_pos threads n
    have done := isDone_agenda threads task
    refine ⟨forRange_eq_outcome threads task, run_mapM_recorded_of_serial,
      Pool.count_visits positive done, fun succeeds => ⟨?_, ?_⟩⟩
    · exact Pool.count_visits_eq_one positive done succeeds
    · rw [forRange_eq_outcome, Pool.outcome_eq_mapM positive done succeeds]

/-- A verification on four threads of which the last goes first, two workers on five tasks of whom
the second goes first, and the same tasks without threads, of which the third fails. -/
theorem schedule_irrelevant_least :
    let inputs : List Ciphertext := [⟨some 4, some 16⟩, ⟨some 4, some 4⟩]
    let outputs : List Ciphertext := [⟨some 16, some 64⟩, ⟨some 4, some 16⟩]
    let proof : Proof :=
      ⟨some 1, some 1, some 1, some 1, some 1, [some 1, some 2], [some 3, some 4],
        [some 4, some 16], [some 64, some 5]⟩
    let backwards : Scheduler := ⟨fun _ count => List.replicate 9 (count - 1)⟩
    let task : Fin 5 → Result ℕ := fun i => .ok (i.val * i.val)
    let failing : Fin 5 → Result ℕ := fun i =>
      if i = 2 then .error (.argument .statementShape) else .ok i
    let pool := Pool.start ℕ 5 2
    @verify backwards Group.least ⟨some 4⟩ inputs outputs proof ⟨[], 4⟩
      = @verify .turns Group.least ⟨some 4⟩ inputs outputs proof ⟨[], 1⟩ ∧
    (pool.run task [1, 1, 0, 0, 0]).isDone = true ∧
    (Pool.visits task [1, 1, 0, 0, 0] pool).count 3 = 1 ∧
    (pool.run task [1, 1, 0, 0, 0]).outcome = .ok [0, 1, 4, 9, 16] ∧
    @agenda _ _ backwards 2 task = [1, 1, 1, 1, 1, 1, 1, 1, 1, 0, 1, 0, 1, 0] ∧
    (Pool.visits task (@agenda _ _ backwards 2 task) pool).count 3 = 1 ∧
    @forRange backwards _ 2 5 task = .ok [0, 1, 4, 9, 16] ∧
    ((List.finRange 5).mapM (Pool.recorded failing)).run []
      = (.error (.argument .statementShape), [0, 1, 2]) := by
  intro inputs outputs proof backwards task failing pool
  obtain ⟨runs, schedules, loops⟩ := schedule_irrelevant Group.least
  have done : (pool.run task [1, 1, 0, 0, 0]).isDone = true := by decide
  obtain ⟨once, outcome⟩ := (schedules ℕ 5 2 task _ (by decide) done).2 fun i => ⟨_, rfl⟩
  obtain ⟨ended, -, -, all⟩ := @loops backwards ℕ 5 2 task
  obtain ⟨every, inOrder⟩ := all fun i => ⟨_, rfl⟩
  obtain ⟨-, serial, -⟩ := @loops backwards ℕ 5 1 failing
  refine ⟨(runs _ [] 4 _ inputs).2.2 outputs proof, done, once 3, outcome, by decide, every 3,
    inOrder, ?_⟩
  exact serial (.inl le_rfl)

end Shuffle

end BallotMix
