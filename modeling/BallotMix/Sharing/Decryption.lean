import BallotMix.Proof.LogEquality
import BallotMix.Sharing.Basic

/-!
# Partial decryption

The holder of a share contributes the first component of a ciphertext to the power of the share, and
proves that this is the share whose public half is known.  One proof serves for a whole batch of
ciphertexts.  Holders also prove that they know their share, bound to their name.
-/

namespace BallotMix

namespace Sharing

/-- The contribution of one holder to the decryption of a ciphertext. -/
structure DecryptionShare where
  index : UInt64
  /-- The first component to the power of the share. -/
  value : Option Int
  proof : LogEquality.Proof
deriving DecidableEq, Repr

/-- The contribution of one holder to the decryption of a batch of ciphertexts. -/
structure BatchShare where
  index : UInt64
  values : List (Option Int)
  proof : LogEquality.Proof
deriving DecidableEq, Repr

/-! ## Contexts -/

/-- The context of the proofs of a holder's contributions. -/
def decryptionContext (domain : Bytes) (index : UInt64) : Transcript :=
  ((Transcript.start (Bytes.ofText "mixnet/decryption")).push (Bytes.ofText "election") domain).push
    (Bytes.ofText "sealer") (Bytes.ofUInt64 index)

def keyShareContext (domain holder : Bytes) : Transcript :=
  ((Transcript.start (Bytes.ofText "mixnet/keygen")).push (Bytes.ofText "election") domain).push
    (Bytes.ofText "sealer") holder

/-! ## Knowledge of a share -/

def proveKeyShare {σ : Type} [Source σ] (G : Group) (share : KeyShare) (holder domain : Bytes) :
    Draw σ LogEquality.Proof := do
  let publicShare ← present share.publicShare
  let secret ← present share.secret
  LogEquality.prove G (keyShareContext domain holder) [G.g] [publicShare] secret

/-- Whether the proof shows knowledge of the share with the given public half. -/
def verifyKeyShare (G : Group) (publicShare : Option Int) (proof : LogEquality.Proof)
    (holder domain : Bytes) : Result Bool :=
  if publicShare.isNone then pure false
  else LogEquality.verify G (keyShareContext domain holder) [some G.g] [publicShare] proof

/-! ## One ciphertext -/

/-- The contribution of a share to the decryption of a ciphertext. -/
def partialDecrypt {σ : Type} [Source σ] (G : Group) (share : KeyShare) (ct : Ciphertext)
    (domain : Bytes) : Draw σ DecryptionShare := do
  let c ← G.ensureCiphertext ct
  let secret ← present share.secret
  let value ← G.pow c.c1 secret
  let publicShare ← present share.publicShare
  let proof ← LogEquality.prove G (decryptionContext domain share.index) [G.g, c.c1]
    [publicShare, value] secret
  pure ⟨share.index, some value, proof⟩

/-- Whether the contribution is the one of the share with the given public half. -/
def verifyPartial (G : Group) (publicShare : Option Int) (ct : Ciphertext) (share : DecryptionShare)
    (domain : Bytes) : Result Bool :=
  if publicShare.isNone || share.value.isNone || ct.c1.isNone then pure false
  else
    LogEquality.verify G (decryptionContext domain share.index) [some G.g, ct.c1]
      [publicShare, share.value] share.proof

/-! ## Batches -/

/-- The first components of ciphertexts, each with its power to a secret, which is not read before
the first ciphertext is checked. -/
def contributions (G : Group) (secret : Option Int) (cts : List Ciphertext) :
    Result (List (Int × Int)) :=
  cts.mapM fun ct => do
    let c ← G.ensureCiphertext ct
    pure (c.c1, ← G.pow c.c1 (← present secret))

/-- The contribution of a share to the decryption of a batch of ciphertexts. -/
def partialDecryptBatch {σ : Type} [Source σ] (G : Group) (share : KeyShare)
    (cts : List Ciphertext) (domain : Bytes) : Draw σ BatchShare := do
  let publicShare ← present share.publicShare
  let powers ← contributions G share.secret cts
  let bases := powers.map Prod.fst
  let values := powers.map Prod.snd
  let secret ← present share.secret
  let proof ← LogEquality.prove G (decryptionContext domain share.index) (G.g :: bases)
    (publicShare :: values) secret
  pure ⟨share.index, values.map some, proof⟩

/-- Whether the contribution is the one of the share with the given public half. -/
def verifyPartialBatch (G : Group) (publicShare : Option Int) (cts : List Ciphertext)
    (share : BatchShare) (domain : Bytes) : Result Bool :=
  if publicShare.isNone || decide (share.values.length ≠ cts.length) then pure false
  else if cts.any (fun ct => ct.c1.isNone) || share.values.any Option.isNone then pure false
  else
    LogEquality.verify G (decryptionContext domain share.index)
      (some G.g :: cts.map fun ct => ct.c1) (publicShare :: share.values) share.proof

end Sharing

end BallotMix
