import BallotMix.ElGamal.Basic
import BallotMix.Proof.LogEquality

/-!
# Proofs of re-encryption

That one ciphertext re-encrypts another with nonce `r` means that the quotients of their components
are `g ^ r` and `h ^ r`.  The proof is one of equal logarithms to the bases `g` and `h`, bound to an
election by the domain.
-/

namespace BallotMix

namespace Reencryption

/-- A proof that one ciphertext re-encrypts another. -/
structure Proof where
  /-- The commitment to the base `g`. -/
  a : Option Int
  /-- The commitment to the base `h`. -/
  b : Option Int
  challenge : Option Int
  response : Option Int
deriving DecidableEq, Repr

namespace Proof

/-- The proof of equal logarithms that this is. -/
def toLogEquality (proof : Proof) : LogEquality.Proof :=
  ⟨[proof.a, proof.b], proof.challenge, proof.response⟩

/-- Whether no number of the proof is missing. -/
def isComplete (proof : Proof) : Bool :=
  proof.a.isSome && proof.b.isSome && proof.challenge.isSome && proof.response.isSome

/-- The proof, of which no number must be missing. -/
def complete (proof : Proof) : Result Proof := do
  let a ← present proof.a
  let b ← present proof.b
  let challenge ← present proof.challenge
  let response ← present proof.response
  pure ⟨some a, some b, some challenge, some response⟩

end Proof

def context (domain : Bytes) : Transcript :=
  (Transcript.start (Bytes.ofText "mixnet/reencryption")).push (Bytes.ofText "election") domain

def quotients (G : Group) (input output : Pair) : Result (List Int) := do
  let y1 ← G.div output.c1 input.c1
  let y2 ← G.div output.c2 input.c2
  pure [y1, y2]

/-- A proof that `output` re-encrypts `input` with nonce `r`. -/
def prove {σ : Type} [Source σ] (G : Group) (pk : PublicKey) (input output : Ciphertext)
    (r : Int) (domain : Bytes) : Draw σ Proof := do
  let h ← G.ensureKey pk
  let input ← G.ensureCiphertext input
  let output ← G.ensureCiphertext output
  let images ← quotients G input output
  let proof ← LogEquality.prove G (context domain) [G.g, h] images r
  pure ⟨proof.commitments.getD 0 none, proof.commitments.getD 1 none, proof.challenge,
    proof.response⟩

/-- A re-encryption with a fresh nonce and its proof. -/
def reencryptWithProof {σ : Type} [Source σ] (G : Group) (pk : PublicKey) (ct : Ciphertext)
    (domain : Bytes) : Draw σ (Pair × Proof) := do
  let r ← G.randomExponent
  let output ← G.reencrypt pk ct (some r)
  let proof ← prove G pk ct output.toCiphertext r domain
  pure (output, proof)

/-- Whether the proof shows that `output` re-encrypts `input`. -/
def verify (G : Group) (pk : PublicKey) (input output : Ciphertext) (proof : Proof)
    (domain : Bytes) : Result Bool := do
  if !([pk.h, input.c1, input.c2, output.c1, output.c2].all G.isMember) then
    return false
  if !proof.isComplete then return false
  let images ← quotients G (← input.pair) (← output.pair)
  LogEquality.verify G (context domain) [some G.g, pk.h] (images.map some) proof.toLogEquality

/-- Fails unless the proof shows that `output` re-encrypts `input`. -/
def ensure (G : Group) (pk : PublicKey) (input output : Ciphertext) (proof : Proof)
    (domain : Bytes) : Result Unit := do
  if !(← verify G pk input output proof domain) then
    throw (.invalidProof .reencryption)

end Reencryption

end BallotMix
