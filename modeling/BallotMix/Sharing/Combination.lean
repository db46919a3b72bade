import BallotMix.Sharing.Decryption
import BallotMix.Sharing.Lagrange

/-!
# Combining contributions

Contributions arrive in any order and of any quality.  They are sifted first: a contribution is
accepted if its index is not zero, no accepted one before it has the same index, and its proof
holds; the others are rejected, and their indices are reported.  With enough accepted contributions
the plaintext is the second component divided by the interpolated power of the first.
-/

namespace BallotMix

namespace Sharing

/-- What is told about a rejected contribution. -/
def rejectionText (index : UInt64) : String :=
  "invalid partial decryption from share " ++ toString index.toNat

/-! ## Sifting -/

/-- Contributions divided into good and bad ones, each in the order of arrival. -/
structure Sifted (α : Type) where
  accepted : List α
  /-- The indices of those rejected. -/
  rejected : List UInt64

variable {α : Type}

/-- Decides about one more contribution; `check` is asked only if the index is usable. -/
def siftOne (index : α → UInt64) (check : α → Result Bool) (sifted : Sifted α) (share : α) :
    Result (Sifted α) := do
  let i := index share
  let usable := decide (i ≠ 0) && !(sifted.accepted.map index).contains i
  let good ← if usable then check share else pure false
  if good then pure ⟨sifted.accepted ++ [share], sifted.rejected⟩
  else pure ⟨sifted.accepted, sifted.rejected ++ [i]⟩

/-- Divides contributions into good and bad ones, and fails unless there are enough good ones. -/
def sift (index : α → UInt64) (check : α → Result Bool) (threshold : Nat) (shares : List α) :
    Result (Sifted α) := do
  if threshold = 0 then throw (.argument .noThreshold)
  let sifted ← shares.foldlM (siftOne index check) ⟨[], []⟩
  if sifted.accepted.length < threshold then
    throw (.insufficientShares sifted.accepted.length threshold sifted.rejected)
  pure sifted

/-! ## One ciphertext -/

/-- A plaintext, and the indices of the contributions rejected on the way to it. -/
structure Combined where
  plaintext : Int
  rejected : List UInt64
deriving DecidableEq, Repr

/-- The plaintext that the values at the given places give to a ciphertext. -/
def openWith (G : Group) (c : Pair) (indices : List UInt64) (values : List (Option Int)) :
    Result Int := do
  let mask ← interpolateInExponent G indices (← values.mapM present)
  G.div c.c2 mask

/-- The plaintext of a ciphertext, from contributions under the given commitments. -/
def combine (G : Group) (commitments : Commitments) (ct : Ciphertext)
    (shares : List DecryptionShare) (domain : Bytes) : Result Combined := do
  let c ← G.ensureCiphertext ct
  let check := fun share : DecryptionShare => do
    verifyPartial G (some (← publicShare G commitments share.index)) ct share domain
  let sifted ← sift DecryptionShare.index check commitments.threshold shares
  let indices := sifted.accepted.map DecryptionShare.index
  let plaintext ← openWith G c indices (sifted.accepted.map DecryptionShare.value)
  pure ⟨plaintext, sifted.rejected⟩

/-! ## Batches -/

/-- The plaintexts of a batch, and the indices of the contributions rejected on the way to them. -/
structure CombinedBatch where
  /-- The plaintexts, in the order of the ciphertexts. -/
  plaintexts : List Int
  rejected : List UInt64
deriving DecidableEq, Repr

/-- The plaintexts of a batch of ciphertexts, from contributions under the given commitments. -/
def combineBatch (G : Group) (commitments : Commitments) (cts : List Ciphertext)
    (shares : List BatchShare) (domain : Bytes) : Result CombinedBatch := do
  let cs ← G.ensureCiphertexts cts
  let check := fun share : BatchShare => do
    verifyPartialBatch G (some (← publicShare G commitments share.index)) cts share domain
  let sifted ← sift BatchShare.index check commitments.threshold shares
  let indices := sifted.accepted.map BatchShare.index
  let plaintexts ← cs.zipIdx.mapM fun ck =>
    openWith G ck.1 indices (sifted.accepted.map fun share => share.values.getD ck.2 none)
  pure ⟨plaintexts, sifted.rejected⟩

end Sharing

end BallotMix
