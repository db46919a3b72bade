import BallotMix.ElGamal.Basic
import BallotMix.Group.Generators
import BallotMix.Transcript
import BallotMix.Workers

/-!
# Shuffles

A shuffle turns a list of ciphertexts into re-encryptions of a permutation of them and proves that
it did.  This module holds what prover and verifier share: the proof, the announcement that is
hashed last, the generators, the two transcripts and the products of powers.

The prover commits to its permutation, entry by entry, takes a scalar `u j` for each input from a
transcript of the statement and the commitment, and links the permuted scalars in a chain.  The
announcement answers six kinds of equations at once under a single challenge.
-/

namespace BallotMix

namespace Shuffle

/-- What a shuffle is bound to and how it is carried out. -/
structure Options where
  /-- The election, which separates generators and challenges. -/
  domain : Bytes
  threads : Nat
deriving DecidableEq, Repr

/-- A proof of a shuffle as it is handed over. -/
structure Proof where
  challenge : Option Int
  /-- The response for the sum of the commitment's exponents. -/
  s1 : Option Int
  /-- The response for the end of the chain. -/
  s2 : Option Int
  /-- The response for the weighted sum of the commitment's exponents. -/
  s3 : Option Int
  /-- The response for the re-encryption nonces. -/
  s4 : Option Int
  /-- The responses for the links of the chain. -/
  sHat : List (Option Int)
  /-- The responses for the permuted scalars. -/
  sTilde : List (Option Int)
  /-- The commitment to the permutation. -/
  commitment : List (Option Int)
  /-- The chain of the permuted scalars. -/
  chain : List (Option Int)
deriving DecidableEq, Repr

/-- A proof of a shuffle with all its numbers. -/
structure CompleteProof where
  challenge : Int
  s1 : Int
  s2 : Int
  s3 : Int
  s4 : Int
  sHat : List Int
  sTilde : List Int
  commitment : List Int
  chain : List Int
deriving DecidableEq, Repr

def Proof.size (proof : Proof) : Nat := proof.commitment.length

/-- The numbers of a proof, which must not be missing. -/
def Proof.complete (proof : Proof) : Result CompleteProof := do
  pure {
    challenge := ← present proof.challenge
    s1 := ← present proof.s1
    s2 := ← present proof.s2
    s3 := ← present proof.s3
    s4 := ← present proof.s4
    sHat := ← proof.sHat.mapM present
    sTilde := ← proof.sTilde.mapM present
    commitment := ← proof.commitment.mapM present
    chain := ← proof.chain.mapM present }

/-- The proof with these numbers. -/
def CompleteProof.toProof (proof : CompleteProof) : Proof where
  challenge := some proof.challenge
  s1 := some proof.s1
  s2 := some proof.s2
  s3 := some proof.s3
  s4 := some proof.s4
  sHat := proof.sHat.map some
  sTilde := proof.sTilde.map some
  commitment := proof.commitment.map some
  chain := proof.chain.map some

/-- What the prover announces before the challenge, and the verifier recomputes from it. -/
structure Announcement where
  /-- For the product of the commitment. -/
  t1 : Int
  /-- For the end of the chain. -/
  t2 : Int
  /-- For the weighted product of the commitment. -/
  t3 : Int
  /-- For the weighted product of the first components. -/
  t41 : Int
  /-- For the weighted product of the second components. -/
  t42 : Int
  /-- For the links of the chain. -/
  tHat : List Int
deriving DecidableEq, Repr

/-! ## Generators -/

/-- The generators that a shuffle commits to. -/
structure Generators where
  /-- The start of the chain. -/
  base : Int
  /-- One generator for each place. -/
  h : List Int
deriving DecidableEq, Repr

/-- The generators for `n` ciphertexts in an election. -/
def generators (G : Group) (domain : Bytes) (n : Nat) : Result Generators := do
  let domain := domain ++ Bytes.ofText "/shuffle"
  let base ← G.derivedGenerator domain 0
  let h ← (List.range n).mapM fun i => G.derivedGenerator domain (i + 1)
  pure ⟨base, h⟩

/-! ## Transcripts -/

/-- The transcript of the statement and of the commitment to the permutation. -/
def statement (G : Group) (domain : Bytes) (pk : PublicKey) (inputs outputs : List Ciphertext)
    (commitment : List Int) : Result Transcript :=
  let opening := (Transcript.start (Bytes.ofText "mixnet/shuffle")).push
    (Bytes.ofText "election") domain
  opening.extend do
    Transcript.appendGroup G
    Transcript.appendElement G (Bytes.ofText "pk") (← present pk.h)
    Transcript.appendElements G (Bytes.ofText "in.c1") (← inputs.mapM fun ct => present ct.c1)
    Transcript.appendElements G (Bytes.ofText "in.c2") (← inputs.mapM fun ct => present ct.c2)
    Transcript.appendElements G (Bytes.ofText "out.c1") (← outputs.mapM fun ct => present ct.c1)
    Transcript.appendElements G (Bytes.ofText "out.c2") (← outputs.mapM fun ct => present ct.c2)
    Transcript.appendElements G (Bytes.ofText "perm") commitment

/-- The scalars that a statement gives to the first `n` inputs. -/
def weights (G : Group) (statement : Transcript) (n : Nat) : Result (List Int) :=
  let digest := statement.digest
  (List.range n).mapM fun j => Transcript.indexedScalar G digest (UInt64.ofNat j)

/-- The transcript from which the challenge is taken. -/
def finalTranscript (G : Group) (statement : Transcript) (chain : List Int) (t : Announcement) :
    Result Transcript :=
  statement.extend do
    Transcript.appendElements G (Bytes.ofText "chain") chain
    Transcript.appendElement G (Bytes.ofText "t1") t.t1
    Transcript.appendElement G (Bytes.ofText "t2") t.t2
    Transcript.appendElement G (Bytes.ofText "t3") t.t3
    Transcript.appendElement G (Bytes.ofText "t4.1") t.t41
    Transcript.appendElement G (Bytes.ofText "t4.2") t.t42
    Transcript.appendElements G (Bytes.ofText "t_hat") t.tHat

def finalChallenge (G : Group) (statement : Transcript) (chain : List Int) (t : Announcement) :
    Result Int := do
  (← finalTranscript G statement chain t).challenge G

/-! ## Products -/

variable [Workers.Scheduler]

/-- The product of the powers of the bases to the exponents at the same places. -/
def powProd (G : Group) (threads : Nat) (bases exponents : List Int) : Result Int := do
  G.prod (← Workers.forList threads (bases.zip exponents) fun be => G.pow be.1 be.2)

/-- The links that come before those of a chain: its start, then each link but the last. -/
def previousLinks (base : Int) (chain : List Int) : List Int := base :: chain.dropLast

end Shuffle

end BallotMix
