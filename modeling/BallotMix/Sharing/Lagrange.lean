import BallotMix.Sharing.Basic

/-!
# Interpolation at zero

The value at zero of a polynomial is a sum of its values at the places of enough shares, each with a
coefficient that depends on the places alone.  The same coefficients, taken as exponents, combine
powers of one element.
-/

namespace BallotMix

namespace Sharing

/-- Whether the places are distinct, none is zero, and `i` is one of them. -/
def canInterpolate (indices : List UInt64) (i : UInt64) : Bool :=
  decide indices.Nodup && !indices.contains 0 && indices.contains i

/-- The coefficient of place `i`: the product of `j / (j - i)` over the other places `j`. -/
def lagrangeCoefficient (G : Group) (indices : List UInt64) (i : UInt64) : Result Int := do
  if !canInterpolate indices i then throw (.argument .interpolationIndices)
  let others := (indices.filter fun j => j ≠ i).map fun j => (j.toNat : Int)
  let numerator ← others.foldlM G.scalarMul 1
  let denominator ← others.foldlM
    (fun product j => do G.scalarMul product (← G.scalarSub j i.toNat)) 1
  G.scalarMul numerator (← Modular.inverse denominator G.q)

/-- The secret that the shares determine. -/
def reconstruct (G : Group) (shares : List KeyShare) : Result Int :=
  let indices := shares.map fun s => s.index
  shares.foldlM
    (fun sum share => do
      let coefficient ← lagrangeCoefficient G indices share.index
      G.scalarAdd sum (← G.scalarMul (← present share.secret) coefficient))
    0

/-- The product of the values, each to the power of the coefficient of its place. -/
def interpolateInExponent (G : Group) (indices : List UInt64) (values : List Int) : Result Int :=
  (indices.zip values).foldlM
    (fun product entry => do
      let coefficient ← lagrangeCoefficient G indices entry.1
      G.mul product (← G.pow entry.2 coefficient))
    1

end Sharing

end BallotMix
