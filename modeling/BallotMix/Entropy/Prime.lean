import BallotMix.Entropy.Uniform
import BallotMix.Number.Prime

/-!
# Random primes

A prime of a wanted size is found by drawing numbers of that size until one is prime.  A safe prime
`p` is one for which `(p - 1) / 2` is prime too.  Some sizes have no prime of the wanted kind, and
asking for them is a fault.
-/

namespace BallotMix

namespace RandomPrime

/-- Whether there are primes, or safe primes, of the given number of binary digits. -/
def sizeExists (bits : Int) (safe : Bool) : Bool :=
  decide (2 ≤ bits) && (!safe || decide (bits = 3) || decide (6 ≤ bits))

/-- Whether `p` is a prime, or a safe prime; what is quick to rule out is looked at first. -/
def isWanted (safe : Bool) (p : Nat) : Bool :=
  if safe then
    Number.noSmallDivisor p && Number.noSmallDivisor ((p - 1) / 2) &&
      Number.isPrime p && Number.isPrime ((p - 1) / 2 : Nat)
  else Number.isPrime p

variable {σ : Type} [Source σ]

/-- Draws numbers of `bits` binary digits until one is wanted, giving up after `tries`. -/
def search (bits : Nat) (safe : Bool) : Nat → Draw σ Nat
  | 0 => throw (.entropy .unending)
  | tries + 1 => do
    let low ← uniform (1 <<< (bits - 1) : Nat)
    let p := (1 <<< (bits - 1)) + low.toNat
    if isWanted safe p then pure p else search bits safe tries

/-- A prime, or a safe prime, of the given number of binary digits. -/
def draw (bits : Int) (safe : Bool) : Draw σ Nat :=
  if sizeExists bits safe then do search bits.toNat safe (Source.patience (← get))
  else throw (.arithmetic .primeSearch)

end RandomPrime

end BallotMix
