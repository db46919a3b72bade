/-!
# Integer square roots

`isqrt n` is the largest number whose square is at most `n`.  It is found one binary digit at a
time, from the highest that the root can have.
-/

namespace BallotMix.Number

/-- Adds the `digits` low binary digits of the square root of `n` to the higher ones in `root`. -/
def rootDigits (n : Nat) : Nat → Nat → Nat
  | 0, root => root
  | digits + 1, root =>
    let larger := root + (1 <<< digits)
    rootDigits n digits (if larger * larger ≤ n then larger else root)

/-- The largest number whose square is at most `n`. -/
def isqrt (n : Nat) : Nat := rootDigits n (n.log2 / 2 + 1) 0

end BallotMix.Number
