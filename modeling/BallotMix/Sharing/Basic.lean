import BallotMix.ElGamal.Basic

/-!
# Sharing a key

A secret key is shared by a polynomial whose value at zero it is: share `i` is the value at `i`, and
as many shares as the polynomial has coefficients determine it.  The dealer publishes the generator
to the power of every coefficient, the commitments, from which anybody can compute the public half
`g ^ f(i)` of every share and so check the share.
-/

namespace BallotMix

namespace Sharing

structure KeyShare where
  /-- The place of the share, from one on. -/
  index : UInt64
  /-- The value of the polynomial. -/
  secret : Option Int
  /-- The generator to the power of that value. -/
  publicShare : Option Int
deriving DecidableEq, Repr

/-- The commitments to the coefficients, lowest first. -/
structure Commitments where
  coefficients : List (Option Int)
deriving DecidableEq, Repr

namespace Commitments

/-- A list of commitments, of which there must be one. -/
def ofList (coefficients : List (Option Int)) : Result Commitments :=
  if coefficients.isEmpty then .error (.argument .noCommitments) else .ok ⟨coefficients⟩

def threshold (commitments : Commitments) : Nat := commitments.coefficients.length

/-- The commitments, of which none must be missing and there must be one. -/
def complete (commitments : Commitments) : Result Commitments := do
  ofList ((← commitments.coefficients.mapM present).map some)

end Commitments

/-- All that a dealer makes. -/
structure Dealing where
  electionKey : PublicKey
  commitments : Commitments
  /-- The shares, in the order of their places. -/
  shares : List KeyShare
deriving DecidableEq, Repr

/-! ## Dealing -/

/-- The value at `x` of the polynomial with the given coefficients, lowest first. -/
def evalPoly (G : Group) (coefficients : List Int) (x : Int) : Result Int :=
  coefficients.foldrM (fun a value => do G.scalarAdd (← G.scalarMul value x) a) 0

def shareAt (G : Group) (coefficients : List Int) (index : UInt64) : Result KeyShare := do
  let secret ← evalPoly G coefficients index.toNat
  let publicShare ← G.genPow secret
  pure ⟨index, some secret, some publicShare⟩

/-- The dealing of `total` shares of the polynomial with the given coefficients. -/
def dealPoly (G : Group) (coefficients : List Int) (total : Nat) : Result Dealing := do
  let commitments ← coefficients.mapM G.genPow
  let shares ← (List.range total).mapM fun i => shareAt G coefficients (UInt64.ofNat (i + 1))
  pure ⟨⟨commitments.head?⟩, ⟨commitments.map some⟩, shares⟩

/-- Deals `total` shares of a secret, of which `threshold` are needed. -/
def dealSecret {σ : Type} [Source σ] (G : Group) (secret : SecretKey) (threshold total : UInt64) :
    Draw σ Dealing := do
  if threshold = 0 ∨ total < threshold then throw (.argument .thresholdRange)
  let x ← G.ensureExponent .sharedSecretRange secret.x
  let others ← G.randomExponents (threshold.toNat - 1)
  dealPoly G (x :: others) total.toNat

/-- Deals `total` shares of a fresh secret, of which `threshold` are needed. -/
def deal {σ : Type} [Source σ] (G : Group) (threshold total : UInt64) : Draw σ Dealing := do
  let x ← G.randomExponent
  dealSecret G ⟨some x⟩ threshold total

/-! ## Checking shares -/

/-- The product of `acc` and the commitments, each to the power that `power` times a power of `x`
gives. -/
def publicShareFrom (G : Group) (x : Int) : Int → Int → List (Option Int) → Result Int
  | acc, _, [] => pure acc
  | acc, power, c :: cs => do
    let c ← G.ensureMember "share commitment" c
    let acc ← G.mul acc (← G.pow c power)
    let power ← G.scalarMul power x
    publicShareFrom G x acc power cs

/-- The public half of the share at a place. -/
def publicShare (G : Group) (commitments : Commitments) (index : UInt64) : Result Int :=
  publicShareFrom G index.toNat 1 1 commitments.coefficients

/-- Whether a share is one of the polynomial committed to. -/
def verifyShare (G : Group) (commitments : Commitments) (share : KeyShare) : Result Bool := do
  if share.index = 0 || !G.isScalar share.secret then return false
  if !commitments.coefficients.all G.isMember then return false
  let expected ← publicShare G commitments share.index
  let own ← G.genPow (← present share.secret)
  pure (decide (own = expected) && decide (share.publicShare = some expected))

end Sharing

end BallotMix
