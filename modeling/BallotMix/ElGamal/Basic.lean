import BallotMix.Group.Basic
import BallotMix.Hex

/-!
# ElGamal encryption

A secret key is a scalar `x` and its public key is `g ^ x`.  A ciphertext of `m` with nonce `r` is
`(g ^ r, m * h ^ r)`; it decrypts to `c2 * c1 ^ (-x)`.  Ciphertexts are multiplied component by
component, which multiplies their plaintexts, and re-encryption multiplies by a ciphertext of one.

Keys and ciphertexts come from outside, so their numbers may be missing or lie anywhere.  Each
operation checks what it is given and fails with the first component that is not in the group.
-/

namespace BallotMix

structure PublicKey where
  h : Option Int
deriving DecidableEq, Repr

structure SecretKey where
  x : Option Int
deriving DecidableEq, Repr

structure KeyPair where
  publicKey : PublicKey
  secretKey : SecretKey
deriving DecidableEq, Repr

structure Ciphertext where
  /-- The nonce in the exponent, `g ^ r`. -/
  c1 : Option Int
  /-- The masked plaintext, `m * h ^ r`. -/
  c2 : Option Int
deriving DecidableEq, Repr

/-- The numbers of a ciphertext, when both are there. -/
structure Pair where
  c1 : Int
  c2 : Int
deriving DecidableEq, Repr

namespace Pair

def toCiphertext (c : Pair) : Ciphertext := ⟨some c.c1, some c.c2⟩

end Pair

namespace Ciphertext

/-- The numbers of a ciphertext, which must not be missing. -/
def pair (ct : Ciphertext) : Result Pair := do pure ⟨← present ct.c1, ← present ct.c2⟩

/-- The text of a ciphertext: both numbers in hexadecimal, in parentheses. -/
def text (ct : Ciphertext) : Result String := do
  let c ← ct.pair
  pure ("(" ++ Hex.ofNumber c.c1 ++ ", " ++ Hex.ofNumber c.c2 ++ ")")

end Ciphertext

namespace Group

variable (G : Group)

/-! ## Checks -/

/-- The number of a public key, which must lie in the group and not be one. -/
def ensureKey (pk : PublicKey) : Result Int := do
  let h ← G.ensureMember "public key" pk.h
  if h = 1 then throw (.notInSubgroup "public key is the identity")
  pure h

/-- The numbers of a ciphertext, which must lie in the group. -/
def ensureCiphertext (ct : Ciphertext) : Result Pair := do
  let c1 ← G.ensureMember "ciphertext c1" ct.c1
  let c2 ← G.ensureMember "ciphertext c2" ct.c2
  pure ⟨c1, c2⟩

def ensureCiphertexts (cts : List Ciphertext) : Result (List Pair) := cts.mapM G.ensureCiphertext

/-! ## Keys -/

/-- The public key of a secret key in `[1, q - 1]`. -/
def derivePublicKey (sk : SecretKey) : Result PublicKey := do
  let x ← G.ensureExponent .secretKeyRange sk.x
  pure ⟨some (← G.genPow x)⟩

def generateKeyPair {σ : Type} [Source σ] : Draw σ KeyPair := do
  let sk : SecretKey := ⟨some (← G.randomExponent)⟩
  let pk ← G.derivePublicKey sk
  pure ⟨pk, sk⟩

/-- The public key for which all holders of the listed keys are needed: their product. -/
def combineKeys (shares : List PublicKey) : Result PublicKey := do
  if shares.isEmpty then throw (.argument .noKeyShares)
  let h ← shares.foldlM (fun h share => do G.mul h (← G.ensureKey share)) 1
  pure ⟨some h⟩

/-! ## Encryption -/

/-- The encryption of a group element with a nonce in `[1, q - 1]`. -/
def encrypt (pk : PublicKey) (m r : Option Int) : Result Pair := do
  let h ← G.ensureKey pk
  let m ← G.ensureMember "plaintext" m
  let r ← G.ensureExponent .nonceRange r
  let c1 ← G.genPow r
  let mask ← G.pow h r
  pure ⟨c1, ← G.mul m mask⟩

/-- The encryption of a group element with a fresh nonce, together with the nonce. -/
def encryptWithNonce {σ : Type} [Source σ] (pk : PublicKey) (m : Option Int) :
    Draw σ (Pair × Int) := do
  let r ← G.randomExponent
  let c ← G.encrypt pk m (some r)
  pure (c, r)

def encryptFresh {σ : Type} [Source σ] (pk : PublicKey) (m : Option Int) : Draw σ Pair := do
  let encrypted ← G.encryptWithNonce pk m
  pure encrypted.1

def decrypt (sk : SecretKey) (ct : Ciphertext) : Result Int := do
  let c ← G.ensureCiphertext ct
  let unmask ← G.pow c.c1 (← G.scalarNeg (← present sk.x))
  G.mul c.c2 unmask

/-! ## Products of ciphertexts -/

/-- The product of two pairs, component by component. -/
def mulPair (a b : Pair) : Result Pair := do
  let c1 ← G.mul a.c1 b.c1
  let c2 ← G.mul a.c2 b.c2
  pure ⟨c1, c2⟩

/-- The product of two ciphertexts, which encrypts the product of the plaintexts. -/
def combine (a b : Ciphertext) : Result Pair := do
  let a ← G.ensureCiphertext a
  let b ← G.ensureCiphertext b
  G.mulPair a b

/-- Another ciphertext of the same plaintext: the product with an encryption of one. -/
def reencrypt (pk : PublicKey) (ct : Ciphertext) (r : Option Int) : Result Pair := do
  let c ← G.ensureCiphertext ct
  let blind ← G.encrypt pk (some 1) r
  G.mulPair c blind

def reencryptFresh {σ : Type} [Source σ] (pk : PublicKey) (ct : Ciphertext) : Draw σ Pair := do
  let r ← G.randomExponent
  G.reencrypt pk ct (some r)

end Group

end BallotMix
