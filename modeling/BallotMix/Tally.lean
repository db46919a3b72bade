import BallotMix.ElGamal.Encoding

/-!
# Tallies

Votes are 64-bit values, encoded as group elements in one of two ways.  Decrypted ballots are
decoded and counted by value; with the exponential encoding the ballots can also be multiplied
unopened, and their product decrypts to the sum of the votes.
-/

namespace BallotMix

/-- How votes are encoded. -/
inductive Encoding
  | exponential
  | residue
deriving DecidableEq, Repr

namespace Encoding

def ofName (name : String) : Result Encoding :=
  if name = "exp" ∨ name = "exponential" then .ok exponential
  else if name = "residue" then .ok residue
  else .error (.argument (.unknownEncoding name))

def name : Encoding → String
  | exponential => "exponential"
  | residue => "residue"

end Encoding

namespace Tally

variable (G : Group)

/-- The element that encodes a vote. -/
def encode (encoding : Encoding) (value : UInt64) : Result Int :=
  match encoding with
  | .exponential => G.encodeExponential value
  | .residue => G.encodeResidue value

/-- The vote that an element encodes; the bound is for the exponential encoding. -/
def decode (encoding : Encoding) (element : Option Int) (bound : UInt64) : Result UInt64 :=
  match encoding with
  | .exponential => G.decodeExponential element bound
  | .residue => G.decodeResidue element

/-! ## Counting -/

/-- The counts with one more vote for a value, in ascending order of the values. -/
def increment (value : UInt64) : List (UInt64 × Nat) → List (UInt64 × Nat)
  | [] => [(value, 1)]
  | (v, n) :: rest =>
    if value < v then (value, 1) :: (v, n) :: rest
    else if value = v then (v, n + 1) :: rest
    else (v, n) :: increment value rest

/-- How often each value is encoded by the listed elements, in ascending order of the values. -/
def count (encoding : Encoding) (elements : List (Option Int)) (bound : UInt64) :
    Result (List (UInt64 × Nat)) :=
  elements.foldlM (fun counts x => do pure (increment (← decode G encoding x bound) counts)) []

/-! ## Adding up unopened ballots -/

def accumulate (cts : List Ciphertext) : Result Pair :=
  match cts with
  | [] => .error (.argument .nothingToAccumulate)
  | ct :: rest => do
    let first ← ct.pair
    let _ ← G.ensureCiphertext first.toCiphertext
    rest.foldlM (fun product ct => G.combine product.toCiphertext ct) first

end Tally

end BallotMix
