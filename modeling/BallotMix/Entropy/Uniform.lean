import BallotMix.Entropy.Source
import BallotMix.Number.Basic

/-!
# Uniform draws

A number below a bound is drawn by taking as many bytes as the bound has, keeping as many bits as
the bound has, and drawing again until the number is below the bound.  Every number below the bound
is met by the same number of byte strings, and at least half of all byte strings are accepted.
-/

namespace BallotMix

variable {σ : Type} [Source σ]

/-- The low `bits` bits of a byte string. -/
def maskedValue (bits : Nat) (chunk : Bytes) : Nat := Bytes.toNat chunk % (1 <<< bits)

/-- Draws chunks until the masked value of one is below the bound, giving up after `tries`. -/
def firstBelow (bound : Nat) : Nat → Draw σ Nat
  | 0 => throw (.entropy .unending)
  | tries + 1 => do
    let chunk ← Source.fill (Number.byteLength bound)
    let value := maskedValue (Number.bitLength bound) chunk
    if value < bound then pure value else firstBelow bound tries

/-- A number in `[0, bound)`. -/
def uniform (bound : Int) : Draw σ Int :=
  if bound ≤ 0 then throw (.argument .emptyRange)
  else do
    let value ← firstBelow bound.toNat (Source.patience (← get))
    pure value

/-- A word in `[0, bound)`. -/
def uniformIndex (bound : UInt64) : Draw σ UInt64 := do
  let value ← uniform bound.toNat
  pure (UInt64.ofNat value.toNat)

end BallotMix
