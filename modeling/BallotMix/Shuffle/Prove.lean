import BallotMix.Entropy.Permutation
import BallotMix.Shuffle.Basic

/-!
# Proving a shuffle

The prover knows the permutation and the nonces of the re-encryption.  All randomness is drawn
before the work starts (`drawNonces`); with it the proof is a plain function of what the prover
knows (`proveWith`).
-/

namespace BallotMix

namespace Shuffle

variable [Workers.Scheduler]

/-! ## Nonces -/

/-- The randomness of a proof about `n` ciphertexts. -/
structure Nonces where
  /-- The exponents of the commitment: entry `i` blinds the commitment to the place of
  output `i`. -/
  commit : List Int
  /-- The exponents of the links of the chain. -/
  link : List Int
  w1 : Int
  w2 : Int
  w3 : Int
  w4 : Int
  wHat : List Int
  wTilde : List Int
deriving DecidableEq, Repr

def drawNonces {σ : Type} [Source σ] (G : Group) (n : Nat) : Draw σ Nonces := do
  let commit ← G.randomExponents n
  let link ← G.randomExponents n
  let w1 ← G.randomExponent
  let w2 ← G.randomExponent
  let w3 ← G.randomExponent
  let w4 ← G.randomExponent
  let wHat ← G.randomExponents n
  let wTilde ← G.randomExponents n
  pure { commit, link, w1, w2, w3, w4, wHat, wTilde }

/-! ## The parts of a proof -/

/-- The commitment to the permutation: at the place that output `i` comes from stands
`g ^ r * h i`, for entry `i` of the exponents. -/
def commitTo (G : Group) (threads : Nat) (gens : Generators) (permutation : List Nat)
    (exponents : List Int) : Result (List Int) := do
  let committed ← Workers.forList threads (exponents.zip gens.h) fun rh => do
    G.mul (← G.genPow rh.1) rh.2
  pure (Permutation.scatter permutation committed)

/-- The chain from a link on: each link is its blinding factor times the power of the link before
it. -/
def chainFrom (G : Group) : Int → List (Int × Int) → Result (List Int)
  | _, [] => pure []
  | previous, (blinding, exponent) :: rest => do
    let link ← G.mul blinding (← G.pow previous exponent)
    let links ← chainFrom G link rest
    pure (link :: links)

def makeChain (G : Group) (threads : Nat) (gens : Generators) (exponents permuted : List Int) :
    Result (List Int) := do
  let blindings ← Workers.forList threads exponents G.genPow
  chainFrom G gens.base (blindings.zip permuted)

def announce (G : Group) (threads : Nat) (gens : Generators) (h : Int) (outputs : List Pair)
    (chain : List Int) (nonces : Nonces) : Result Announcement := do
  let t1 ← G.genPow nonces.w1
  let t2 ← G.genPow nonces.w2
  let t3 ← G.mul (← G.genPow nonces.w3) (← powProd G threads gens.h nonces.wTilde)
  let w4 ← G.scalarNeg nonces.w4
  let t41 ← G.mul (← G.genPow w4)
    (← powProd G threads (outputs.map fun c => c.c1) nonces.wTilde)
  let t42 ← G.mul (← G.pow h w4)
    (← powProd G threads (outputs.map fun c => c.c2) nonces.wTilde)
  let links := (previousLinks gens.base chain).zip (nonces.wHat.zip nonces.wTilde)
  let tHat ← Workers.forList threads links fun link => do
    G.mul (← G.genPow link.2.1) (← G.pow link.1 link.2.2)
  pure ⟨t1, t2, t3, t41, t42, tHat⟩

/-- For each place the product of the scalars at all later places. -/
def suffixProducts (G : Group) : List Int → Result (List Int)
  | [] => pure []
  | [_] => pure [1]
  | _ :: u :: rest => do
    let products ← suffixProducts G (u :: rest)
    let first ← G.scalarMul u (products.headD 1)
    pure (first :: products)

/-- The answer `w - c * x` to a challenge. -/
def respond (G : Group) (c w x : Int) : Result Int := do G.scalarSub w (← G.scalarMul c x)

/-! ## Proofs -/

/-- The proof that is made with the given nonces; `randomizers` are the nonces of the outputs. -/
def proveWith (G : Group) (pk : PublicKey) (inputs outputs : List Ciphertext)
    (permutation : List Nat) (randomizers : List Int) (gens : Generators) (nonces : Nonces)
    (options : Options) : Result CompleteProof := do
  let commitment ← commitTo G options.threads gens permutation nonces.commit
  let statement ← statement G options.domain pk inputs outputs commitment
  let u ← weights G statement inputs.length
  let permuted := Permutation.gather permutation u
  let chain ← makeChain G options.threads gens nonces.link permuted
  let announcement ← announce G options.threads gens (← present pk.h)
    (← outputs.mapM Ciphertext.pair) chain nonces
  let c ← finalChallenge G statement chain announcement
  let r := Permutation.scatter permutation nonces.commit
  let s1 ← respond G c nonces.w1 (← G.scalarSum r)
  let s2 ← respond G c nonces.w2 (← G.scalarDot nonces.link (← suffixProducts G permuted))
  let s3 ← respond G c nonces.w3 (← G.scalarDot r u)
  let s4 ← respond G c nonces.w4 (← G.scalarDot randomizers permuted)
  let sHat ← (nonces.wHat.zip nonces.link).mapM fun wx => respond G c wx.1 wx.2
  let sTilde ← (nonces.wTilde.zip permuted).mapM fun wx => respond G c wx.1 wx.2
  pure { challenge := c, s1, s2, s3, s4, sHat, sTilde, commitment, chain }

/-- A proof that output `i` re-encrypts the input at entry `i` of the permutation with entry `i` of
the randomizers. -/
def prove {σ : Type} [Source σ] (G : Group) (pk : PublicKey) (inputs outputs : List Ciphertext)
    (permutation : List Nat) (randomizers : List Int) (options : Options) :
    Draw σ CompleteProof := do
  let n := inputs.length
  if n = 0 || outputs.length ≠ n || permutation.length ≠ n || randomizers.length ≠ n then
    throw (.argument .shuffleLengths)
  if !Permutation.isPermutation permutation then throw (.argument .notPermutation)
  let gens ← generators G options.domain n
  let nonces ← drawNonces G n
  proveWith G pk inputs outputs permutation randomizers gens nonces options

/-- The re-encryptions, output `i` of the input at entry `i` of the permutation with entry `i` of
the randomizers. -/
def permuteAndReencrypt (G : Group) (threads : Nat) (pk : PublicKey) (inputs : List Ciphertext)
    (permutation : List Nat) (randomizers : List Int) : Result (List Pair) :=
  Workers.forList threads (permutation.zip randomizers) fun jr =>
    G.reencrypt pk (inputs.getD jr.1 ⟨none, none⟩) (some jr.2)

/-- Shuffles ciphertexts with a fresh permutation and fresh nonces, and proves it. -/
def shuffle {σ : Type} [Source σ] (G : Group) (pk : PublicKey) (inputs : List Ciphertext)
    (options : Options) : Draw σ (List Pair × CompleteProof) := do
  if inputs.isEmpty then throw (.argument .emptyShuffle)
  let _ ← G.ensureKey pk
  let _ ← G.ensureCiphertexts inputs
  let permutation ← Permutation.draw inputs.length
  let randomizers ← G.randomExponents inputs.length
  let outputs ← permuteAndReencrypt G options.threads pk inputs permutation randomizers
  let proof ← prove G pk inputs (outputs.map Pair.toCiphertext) permutation randomizers options
  pure (outputs, proof)

end Shuffle

end BallotMix
