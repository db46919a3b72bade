/-!
# Failures

Every operation of the library that can fail returns a `Result`: a value, or an `Error` that says
what was wrong.  The causes are grouped by what a caller can do about them: a number outside the
group, a proof that does not hold, too few shares, an entropy source that ran dry, an argument that
breaks a rule, a value too large to represent, an arithmetic step without a result.
`Error.message` is the only place that holds wording.
-/

namespace BallotMix

/-- The arithmetic steps that have no result on some operands. -/
inductive ArithmeticFault
  | copy
  | residue
  | sum
  | difference
  | product
  | square
  /-- A power modulo zero, to an exponent other than zero. -/
  | power
  | inverse
  | root
  | padding
  /-- A prime of a size that no prime of the wanted kind has. -/
  | primeSearch
deriving DecidableEq, Repr

/-- The arguments that break a rule, checked before any work is done on them. -/
inductive ArgumentFault
  | hexNumber (text : String)
  | oddHexLength
  | nonHexDigit
  | modulusTooShort
  | modulusNotPrime
  /-- A group modulus `p` for which `(p - 1) / 2` is not prime. -/
  | modulusNotSafe
  | notGenerator
  | unknownPreset (name : String)
  | emptyRange
  | nonceRange
  | secretKeyRange
  | noKeyShares
  | searchBound
  /-- A statement without bases, or with another number of images than bases. -/
  | statementShape
  | emptyShuffle
  | shuffleLengths
  | notPermutation
  | thresholdRange
  | sharedSecretRange
  | noCommitments
  /-- A combination under a sharing that commits to no coefficient. -/
  | noThreshold
  /-- Indices at which no polynomial can be interpolated. -/
  | interpolationIndices
  | truncated
  | scalarTooLarge
  | elementCount
  | ciphertextCount
  | shuffleProofSize
  | trailingBytes
  /-- A share index above the four bytes it is written in. -/
  | shareIndexWidth
  | unknownEncoding (name : String)
  | nothingToAccumulate
  | commandShape (synopsis : String)
  /-- A command that goes on to an argument beyond the last. -/
  | missingArgument
  /-- A decimal numeral without digits or with a value of `2 ^ 64` or more; `reader` names the
  width it was read at. -/
  | numeral (reader : String)
deriving DecidableEq, Repr

/-- The values that are sound but too large for their place. -/
inductive RangeFault
  | word
  | plaintext (bound : UInt64)
  | residueValue
deriving DecidableEq, Repr

/-- The ways in which a draw of fresh randomness fails. -/
inductive EntropyFault
  | exhausted
  /-- The source has been through all it can give and nothing fitted. -/
  | unending
deriving DecidableEq, Repr

/-- What a proof claims. -/
inductive ProofKind
  /-- One ciphertext re-encrypts another. -/
  | reencryption
  /-- One list of ciphertexts re-encrypts a permutation of another. -/
  | shuffle
deriving DecidableEq, Repr

/-- The causes of failure. -/
inductive Error
  /-- A value outside the subgroup, named by `what`. -/
  | notInSubgroup (what : String)
  | invalidProof (kind : ProofKind)
  /-- Fewer valid shares than the threshold, with the indices of those refused. -/
  | insufficientShares (available required : Nat) (rejected : List UInt64)
  | entropy (fault : EntropyFault)
  | argument (fault : ArgumentFault)
  | range (fault : RangeFault)
  | arithmetic (fault : ArithmeticFault)
deriving DecidableEq, Repr

/-- A value, or the reason why there is none. -/
abbrev Result := Except Error

instance Result.decEq {α : Type} [DecidableEq α] : DecidableEq (Result α)
  | .ok a, .ok b => decidable_of_iff (a = b) (by simp)
  | .error e, .error f => decidable_of_iff (e = f) (by simp)
  | .ok _, .error _ => isFalse (by simp)
  | .error _, .ok _ => isFalse (by simp)

/-! ## Wording -/

namespace ArithmeticFault

def step : ArithmeticFault → String
  | copy => "BN_dup"
  | residue => "BN_nnmod"
  | sum => "BN_mod_add"
  | difference => "BN_mod_sub"
  | product => "BN_mod_mul"
  | square => "BN_mod_sqr"
  | power => "BN_mod_exp"
  | inverse => "BN_mod_inverse"
  | root => "BN_mod_sqrt"
  | padding => "BN_bn2binpad"
  | primeSearch => "BN_generate_prime_ex"

end ArithmeticFault

namespace ArgumentFault

def text : ArgumentFault → String
  | hexNumber text => "invalid hex: " ++ text
  | oddHexLength => "odd-length hex string"
  | nonHexDigit => "non-hex character"
  | modulusTooShort => "modulus below 32 bits"
  | modulusNotPrime => "p is not prime"
  | modulusNotSafe => "p is not a safe prime"
  | notGenerator => "g does not generate the order-q subgroup"
  | unknownPreset name => "unknown parameter set: " ++ name
  | emptyRange => "uniform: bound must be positive"
  | nonceRange => "randomness must lie in [1, q-1]"
  | secretKeyRange => "secret key must lie in [1, q-1]"
  | noKeyShares => "no public key shares"
  | searchBound => "decode: search bound above 2^40"
  | statementShape => "sigma: bases and images must be non-empty and of equal size"
  | emptyShuffle => "shuffle: empty input"
  | shuffleLengths => "shuffle proof: length mismatch"
  | notPermutation => "shuffle proof: not a permutation"
  | thresholdRange => "deal: require 1 <= t <= n"
  | sharedSecretRange => "deal: secret must lie in [1, q-1]"
  | noCommitments => "share commitments: empty"
  | noThreshold => "combine: empty share commitments"
  | interpolationIndices => "lagrange: indices must be distinct, non-zero and contain i"
  | truncated => "truncated blob"
  | scalarTooLarge => "decoded scalar not below q"
  | elementCount => "bad element count"
  | ciphertextCount => "bad ciphertext count"
  | shuffleProofSize => "bad shuffle proof size"
  | trailingBytes => "trailing bytes in blob"
  | shareIndexWidth => "share index does not fit in 4 bytes"
  | unknownEncoding name => "unknown encoding: " ++ name
  | nothingToAccumulate => "accumulate: no ciphertexts"
  | commandShape synopsis => synopsis
  | missingArgument => "argument expected"
  | numeral reader => reader

end ArgumentFault

namespace RangeFault

def text : RangeFault → String
  | word => "BIGNUM does not fit in 64 bits"
  | plaintext bound => "plaintext outside [0, " ++ toString bound.toNat ++ "]"
  | residueValue => "value too large for residue encoding"

end RangeFault

namespace EntropyFault

def text : EntropyFault → String
  | exhausted => "exhausted"
  | unending => "no draw in range"

end EntropyFault

namespace ProofKind

def text : ProofKind → String
  | reencryption => "re-encryption"
  | shuffle => "shuffle"

end ProofKind

/-- The part of a text before its first NUL character: messages are shown up to there. -/
def beforeNul (text : String) : String :=
  String.ofList (text.toList.takeWhile (· ≠ '\x00'))

namespace Error

/-- The full wording, with whatever names and texts it quotes. -/
def wording : Error → String
  | notInSubgroup what => "invalid group element: " ++ what
  | invalidProof kind => "invalid proof: " ++ kind.text
  | insufficientShares available required _ =>
    "insufficient shares: " ++ toString available ++ " of " ++ toString required
  | entropy fault => "randomness failure: " ++ fault.text
  | argument fault => fault.text
  | range fault => fault.text
  | arithmetic fault => fault.step ++ " failed"

/-- The message shown for an error. -/
def message (e : Error) : String := beforeNul e.wording

end Error

end BallotMix
