/-!
# Jacobi symbols

The Jacobi symbol of `a` over an odd `n` is zero if the two have a common divisor, and one if `a`
is a square modulo `n` prime to it; over a prime it is minus one for all that are not squares.  A
factor two of `a` is taken out by the residue of `n` modulo eight, and the symbol of an odd `a` is
turned around by the law of reciprocity, so that `a` becomes smaller at every step.
-/

namespace BallotMix.Number

/-- The Jacobi symbol of `a` over an odd `n`. -/
def jacobi (a n : Nat) : Int :=
  if a = 0 then (if n = 1 then 1 else 0)
  else if a % 2 = 0 then
    (if n % 8 = 3 ∨ n % 8 = 5 then -1 else 1) * jacobi (a / 2) n
  else
    (if a % 4 = 3 ∧ n % 4 = 3 then -1 else 1) * jacobi (n % a) a
termination_by a
decreasing_by
  · omega
  · exact Nat.mod_lt n (by omega)

end BallotMix.Number
