import BallotMix.Transcript

/-!
# Proofs of equal logarithms

A statement lists bases `b` and images `y` of one length; its witness is the one exponent `x` with
`y = b ^ x` for all of them.  The prover commits to `a = b ^ w` for a fresh `w`, takes the challenge
`c` from a transcript of bases, images and commitments, and answers `s = w + c * x`.  The verifier
recomputes the challenge and checks `b ^ s = a * y ^ c` for every base.  With a single base this
proves knowledge of a logarithm.
-/

namespace BallotMix

namespace LogEquality

/-- A proof that the images have one logarithm to their bases. -/
structure Proof where
  /-- The commitments, one for each base. -/
  commitments : List (Option Int)
  challenge : Option Int
  response : Option Int
deriving DecidableEq, Repr

/-- The numbers of a proof, which must not be missing, as a proof. -/
def Proof.complete (proof : Proof) : Result Proof := do
  let commitments ← proof.commitments.mapM present
  let challenge ← present proof.challenge
  let response ← present proof.response
  pure ⟨commitments.map some, some challenge, some response⟩

/-- The transcript from which the challenge is taken. -/
def transcript (G : Group) (context : Transcript) (bases images commitments : List Int) :
    Result Transcript :=
  context.extend do
    Transcript.appendGroup G
    Transcript.appendElements G (Bytes.ofText "bases") bases
    Transcript.appendElements G (Bytes.ofText "images") images
    Transcript.appendElements G (Bytes.ofText "commitments") commitments

def challenge (G : Group) (context : Transcript) (bases images commitments : List Int) :
    Result Int := do
  (← transcript G context bases images commitments).challenge G

/-! ## Proving -/

/-- The proof that is made with the given nonce. -/
def proveWith (G : Group) (context : Transcript) (bases images : List Int) (witness nonce : Int) :
    Result Proof := do
  let commitments ← bases.mapM fun b => G.pow b nonce
  let c ← challenge G context bases images commitments
  let response ← G.scalarAdd nonce (← G.scalarMul c witness)
  pure ⟨commitments.map some, some c, some response⟩

def prove {σ : Type} [Source σ] (G : Group) (context : Transcript) (bases images : List Int)
    (witness : Int) : Draw σ Proof := do
  if bases.isEmpty || bases.length ≠ images.length then throw (.argument .statementShape)
  let nonce ← G.randomExponent
  proveWith G context bases images witness nonce

/-! ## Verifying -/

/-- Whether the statement and the proof have one length, the statement is not empty, all elements
lie in the group, and challenge and response are scalars. -/
def wellFormed (G : Group) (bases images : List (Option Int)) (proof : Proof) : Bool :=
  !bases.isEmpty && decide (bases.length = images.length) &&
    decide (proof.commitments.length = bases.length) &&
    G.isScalar proof.challenge && G.isScalar proof.response &&
    bases.all G.isMember && images.all G.isMember && proof.commitments.all G.isMember

/-- Whether `b ^ s = a * y ^ c`. -/
def equationHolds (G : Group) (c s b y a : Int) : Result Bool := do
  let left ← G.pow b s
  let right ← G.mul a (← G.pow y c)
  pure (decide (left = right))

/-- Whether the proof shows that the images have one logarithm to their bases. -/
def verify (G : Group) (context : Transcript) (bases images : List (Option Int)) (proof : Proof) :
    Result Bool := do
  if !wellFormed G bases images proof then return false
  let bases ← bases.mapM present
  let images ← images.mapM present
  let commitments ← proof.commitments.mapM present
  let c ← present proof.challenge
  let s ← present proof.response
  let expected ← challenge G context bases images commitments
  if expected ≠ c then return false
  (bases.zip (images.zip commitments)).allM fun e => equationHolds G c s e.1 e.2.1 e.2.2

end LogEquality

end BallotMix
