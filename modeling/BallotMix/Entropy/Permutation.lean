import BallotMix.Entropy.Uniform

/-!
# Random permutations

A permutation of `[0, n)` is the list of the values it takes.  Each is drawn as the outcome of a
sequence of exchanges: the last place is exchanged with one of `n` places, the last but one with one
of `n - 1`, and so on.  The drawing of the places and the exchanges are kept apart, so that what the
draws stand for, `Permutation.ofExchanges`, can be studied without any source.
-/

namespace BallotMix

namespace Permutation

/-- The list with the entries at places `i` and `j` exchanged. -/
def exchange (i j : Nat) (values : List Nat) : List Nat :=
  (values.set i (values.getD j 0)).set j (values.getD i 0)

/-- Carries out exchanges of the places `n - 1`, `n - 2`, …, `1`, each with the next listed
place. -/
def exchangeAll : Nat → List Nat → List Nat → List Nat
  | n + 2, j :: places, values => exchangeAll (n + 1) places (exchange (n + 1) j values)
  | _, _, values => values

/-- The permutation of `[0, n)` that the listed places stand for. -/
def ofExchanges (n : Nat) (places : List Nat) : List Nat :=
  exchangeAll n places (List.range n)

variable {σ : Type} [Source σ]

/-- Draws a place below `n`, one below `n - 1`, and so on down to one below two. -/
def drawPlaces : Nat → Draw σ (List Nat)
  | n + 2 => do
    let j ← uniformIndex (UInt64.ofNat (n + 2))
    let places ← drawPlaces (n + 1)
    pure (j.toNat :: places)
  | _ => pure []

/-- A permutation of `[0, n)`, each equally likely. -/
def draw (n : Nat) : Draw σ (List Nat) := do
  let places ← drawPlaces n
  pure (ofExchanges n places)

/-! ## Using a permutation -/

/-- Whether the list takes every value of `[0, n)`, for its length `n`, exactly once. -/
def isPermutation (values : List Nat) : Bool :=
  values.all (· < values.length) && values.Nodup

/-- The entries of `xs` at the places that the permutation lists. -/
def gather {α : Type} [Inhabited α] (values : List Nat) (xs : List α) : List α :=
  values.map fun j => xs.getD j default

/-- The list that has entry `i` of `xs` at place `i` of the permutation's values. -/
def scatter {α : Type} [Inhabited α] (values : List Nat) (xs : List α) : List α :=
  (List.range values.length).map fun j => xs.getD (values.idxOf j) default

end Permutation

end BallotMix
