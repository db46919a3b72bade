import BallotMix.Proof.Reencryption
import BallotMix.Sharing.Decryption
import BallotMix.Shuffle.Basic
import BallotMix.Wire.Reader
import BallotMix.Wire.Writer

/-!
# Blob formats

The blobs of elements, scalars, ciphertexts, proofs and contributions.  Every format is the bare
sequence of its parts; lists stand behind a count, and a shuffle proof has one count for its four
lists.  A blob is read to its last byte or refused.
-/

namespace BallotMix

namespace Wire

variable (G : Group)

/-! ## Elements and scalars -/

def encodeElement (x : Option Int) : Result Bytes := (Writer.element G x).blob

def decodeElement (data : Bytes) : Result Int := (Reader.element G).whole data

def encodeScalar (s : Option Int) : Result Bytes := (Writer.scalar G s).blob

def decodeScalar (data : Bytes) : Result Int := (Reader.scalar G).whole data

/-! ## Counted elements -/

def encodeElements (xs : List (Option Int)) : Result Bytes := (Writer.elements G xs).blob

def decodeElements (data : Bytes) : Result (List Int) := (Reader.elements G).whole data

/-! ## Ciphertexts -/

def writeCiphertext (ct : Ciphertext) : Writer Unit := do
  Writer.element G ct.c1
  Writer.element G ct.c2

def readCiphertext : Reader Pair := do
  let c1 ← Reader.element G
  let c2 ← Reader.element G
  pure ⟨c1, c2⟩

def encodeCiphertext (ct : Ciphertext) : Result Bytes := (writeCiphertext G ct).blob

def decodeCiphertext (data : Bytes) : Result Pair := (readCiphertext G).whole data

def encodeCiphertexts (cts : List Ciphertext) : Result Bytes :=
  Writer.blob do
    Writer.word (UInt32.ofNat cts.length)
    cts.forM (writeCiphertext G)

/-- Reads a list of ciphertexts, whose count must not exceed what the blob, of `size` bytes, could
hold. -/
def readCiphertexts (size : Nat) : Reader (List Pair) := do
  let n ← Reader.word
  if size / (2 * G.elementBytes) < n.toNat then throw (.argument .ciphertextCount)
  Reader.times n.toNat (readCiphertext G)

def decodeCiphertexts (data : Bytes) : Result (List Pair) :=
  (readCiphertexts G data.length).whole data

/-! ## Proofs of re-encryption -/

def encodeReencryption (proof : Reencryption.Proof) : Result Bytes :=
  Writer.blob do
    Writer.element G proof.a
    Writer.element G proof.b
    Writer.scalar G proof.challenge
    Writer.scalar G proof.response

def readReencryption : Reader Reencryption.Proof := do
  let a ← Reader.element G
  let b ← Reader.element G
  let challenge ← Reader.scalar G
  let response ← Reader.scalar G
  pure ⟨some a, some b, some challenge, some response⟩

def decodeReencryption (data : Bytes) : Result Reencryption.Proof :=
  (readReencryption G).whole data

/-! ## Proofs of equal logarithms -/

def writeLogEquality (proof : LogEquality.Proof) : Writer Unit := do
  Writer.elements G proof.commitments
  Writer.scalar G proof.challenge
  Writer.scalar G proof.response

def readLogEquality : Reader LogEquality.Proof := do
  let commitments ← Reader.elements G
  let challenge ← Reader.scalar G
  let response ← Reader.scalar G
  pure ⟨commitments.map some, some challenge, some response⟩

def encodeLogEquality (proof : LogEquality.Proof) : Result Bytes := (writeLogEquality G proof).blob

def decodeLogEquality (data : Bytes) : Result LogEquality.Proof := (readLogEquality G).whole data

/-! ## Shuffle proofs -/

/-- The blob of a shuffle proof; the one count is that of the commitment. -/
def encodeShuffle (proof : Shuffle.Proof) : Result Bytes :=
  Writer.blob do
    Writer.word (UInt32.ofNat proof.size)
    Writer.scalar G proof.challenge
    Writer.scalar G proof.s1
    Writer.scalar G proof.s2
    Writer.scalar G proof.s3
    Writer.scalar G proof.s4
    proof.sHat.forM (Writer.scalar G)
    proof.sTilde.forM (Writer.scalar G)
    proof.commitment.forM (Writer.element G)
    proof.chain.forM (Writer.element G)

/-- Reads a shuffle proof, whose count must be positive and must not exceed what the blob, of `size`
bytes, could hold. -/
def readShuffle (size : Nat) : Reader Shuffle.CompleteProof := do
  let n := (← Reader.word).toNat
  if n = 0 || size / (2 * G.scalarBytes + 2 * G.elementBytes) < n then
    throw (.argument .shuffleProofSize)
  let challenge ← Reader.scalar G
  let s1 ← Reader.scalar G
  let s2 ← Reader.scalar G
  let s3 ← Reader.scalar G
  let s4 ← Reader.scalar G
  let sHat ← Reader.times n (Reader.scalar G)
  let sTilde ← Reader.times n (Reader.scalar G)
  let commitment ← Reader.times n (Reader.element G)
  let chain ← Reader.times n (Reader.element G)
  pure { challenge, s1, s2, s3, s4, sHat, sTilde, commitment, chain }

def decodeShuffle (data : Bytes) : Result Shuffle.CompleteProof :=
  (readShuffle G data.length).whole data

/-! ## Contributions -/

/-- The blob of a contribution to a decryption, whose index has to fit in four bytes. -/
def encodeShare (share : Sharing.DecryptionShare) : Result Bytes :=
  if UInt32.size ≤ share.index.toNat then .error (.argument .shareIndexWidth)
  else Writer.blob do
    Writer.word (UInt32.ofNat share.index.toNat)
    Writer.element G share.value
    writeLogEquality G share.proof

def readShare : Reader Sharing.DecryptionShare := do
  let index ← Reader.word
  let value ← Reader.element G
  let proof ← readLogEquality G
  pure ⟨UInt64.ofNat index.toNat, some value, proof⟩

def decodeShare (data : Bytes) : Result Sharing.DecryptionShare := (readShare G).whole data

end Wire

end BallotMix
