import BallotMix.Shuffle.Basic

/-!
# Verifying a shuffle

The verifier recomputes the announcement from the responses, as the one that satisfies every
equation, and accepts when the challenge for it is the challenge of the proof.  Before any
arithmetic it checks that all lists have one length, that every element lies in the group and that
every scalar is in range, so that a proof has only one accepted form.
-/

namespace BallotMix

namespace Shuffle

variable [Workers.Scheduler]

/-- Whether there are ciphertexts, and as many outputs and entries in each list of the proof as
inputs. -/
def sameLengths (inputs outputs : List Ciphertext) (proof : Proof) : Bool :=
  let n := inputs.length
  decide (n ≠ 0) && decide (outputs.length = n) && decide (proof.commitment.length = n) &&
    decide (proof.chain.length = n) && decide (proof.sHat.length = n) &&
    decide (proof.sTilde.length = n)

/-- Whether all responses and the challenge are scalars. -/
def scalarsInRange (G : Group) (proof : Proof) : Bool :=
  [proof.challenge, proof.s1, proof.s2, proof.s3, proof.s4].all G.isScalar &&
    proof.sHat.all G.isScalar && proof.sTilde.all G.isScalar

/-- Whether all ciphertexts, the commitment and the chain lie in the group. -/
def elementsInGroup (G : Group) (threads : Nat) (inputs outputs : List Ciphertext) (proof : Proof) :
    Result Bool := do
  let rows := (inputs.zip outputs).zip (proof.commitment.zip proof.chain)
  let members ← Workers.forList threads rows fun row => pure
    ([row.1.1.c1, row.1.1.c2, row.1.2.c1, row.1.2.c2, row.2.1, row.2.2].all G.isMember)
  pure (members.all id)

/-- The announcement that satisfies all equations under the challenge of the proof. -/
def recompute (G : Group) (threads : Nat) (gens : Generators) (h : Int) (inputs outputs : List Pair)
    (u : List Int) (proof : CompleteProof) : Result Announcement := do
  let c := proof.challenge
  let cBar ← G.div (← G.prod proof.commitment) (← G.prod gens.h)
  let cHat ← G.div (proof.chain.getLastD 0) (← G.pow gens.base (← G.scalarProd u))
  let cTilde ← powProd G threads proof.commitment u
  let a ← powProd G threads (inputs.map fun p => p.c1) u
  let b ← powProd G threads (inputs.map fun p => p.c2) u
  let s4 ← G.scalarNeg proof.s4
  let t1 ← G.mul (← G.pow cBar c) (← G.genPow proof.s1)
  let t2 ← G.mul (← G.pow cHat c) (← G.genPow proof.s2)
  let t3 ← G.mul (← G.mul (← G.pow cTilde c) (← G.genPow proof.s3))
    (← powProd G threads gens.h proof.sTilde)
  let t41 ← G.mul (← G.mul (← G.pow a c) (← G.genPow s4))
    (← powProd G threads (outputs.map fun p => p.c1) proof.sTilde)
  let t42 ← G.mul (← G.mul (← G.pow b c) (← G.pow h s4))
    (← powProd G threads (outputs.map fun p => p.c2) proof.sTilde)
  let links := (previousLinks gens.base proof.chain).zip
    (proof.chain.zip (proof.sHat.zip proof.sTilde))
  let tHat ← Workers.forList threads links fun link => do
    G.mul (← G.mul (← G.pow link.2.1 c) (← G.genPow link.2.2.1)) (← G.pow link.1 link.2.2.2)
  pure ⟨t1, t2, t3, t41, t42, tHat⟩

/-- Whether the proof shows that the outputs shuffle the inputs. -/
def verify (G : Group) (pk : PublicKey) (inputs outputs : List Ciphertext) (proof : Proof)
    (options : Options) : Result Bool := do
  if !sameLengths inputs outputs proof then return false
  if !G.isMember pk.h then return false
  if !scalarsInRange G proof then return false
  if !(← elementsInGroup G options.threads inputs outputs proof) then return false
  let proof ← proof.complete
  let gens ← generators G options.domain inputs.length
  let statement ← statement G options.domain pk inputs outputs proof.commitment
  let u ← weights G statement inputs.length
  let announcement ← recompute G options.threads gens (← present pk.h)
    (← inputs.mapM Ciphertext.pair) (← outputs.mapM Ciphertext.pair) u proof
  let expected ← finalChallenge G statement proof.chain announcement
  pure (decide (expected = proof.challenge))

/-- Fails unless the proof shows that the outputs shuffle the inputs. -/
def ensure (G : Group) (pk : PublicKey) (inputs outputs : List Ciphertext) (proof : Proof)
    (options : Options) : Result Unit := do
  if !(← verify G pk inputs outputs proof options) then throw (.invalidProof .shuffle)

end Shuffle

end BallotMix
