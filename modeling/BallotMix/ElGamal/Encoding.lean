import BallotMix.ElGamal.Basic
import BallotMix.Number.Root
import Std.Data.HashMap

/-!
# Plaintext encodings

Values are turned into group elements in two ways.  The exponential encoding of `v` is `g ^ v`;
products of elements add the values up, and decoding searches the logarithm in an interval.  The
residue encoding of `v` is `(v + 1) ^ 2`; decoding takes a square root, or the other one if it is
above `q`.  In a group of squares exactly one of the two roots is at most `q`, so it does not matter
which of them is found first.

The search tabulates the powers `g ^ j` for all `j` below a step of about the square root of the
bound, then divides the element by `g ^ step` again and again until it meets the table.  The table
keeps the first exponent of each power, so the exponent found is the least.
-/

namespace BallotMix

/-- The bound of a logarithm search for which none is given. -/
def defaultSearchBound : UInt64 := 0x100000

/-- The largest bound of a logarithm search. -/
def largestSearchBound : UInt64 := 0x10000000000

namespace Group

variable (G : Group)

/-! ## Exponential encoding -/

/-- The element `g ^ value`. -/
def encodeExponential (value : UInt64) : Result Int := G.genPow value.toNat

/-- Adds the `count` powers of the generator from exponent `j` on, of which `power` is the first. -/
def tabulate : Nat → Nat → Int → Std.HashMap Int Nat → Result (Std.HashMap Int Nat)
  | 0, _, _, table => pure table
  | count + 1, j, power, table => do
    let table := table.insertIfNew power j
    tabulate count (j + 1) (← G.mul power G.g) table

/-- The least exponent that the table gives for `element`, `element * factor`, and so on, with
`step` added for each factor. -/
def meetTable (table : Std.HashMap Int Nat) (step : Nat) (factor : Int) :
    Nat → Nat → Int → Result (Option Nat)
  | 0, _, _ => pure none
  | rounds + 1, passed, element =>
    match table[element]? with
    | some j => pure (some (passed + j))
    | none => do meetTable table step factor rounds (passed + step) (← G.mul element factor)

/-- The least value in `[0, bound]` whose exponential encoding is the element. -/
def decodeExponential (element : Option Int) (bound : UInt64) : Result UInt64 := do
  if largestSearchBound < bound then throw (.argument .searchBound)
  let element ← G.ensureMember "encoded plaintext" element
  let step := Number.isqrt bound.toNat + 1
  let table ← G.tabulate step 0 1 ∅
  let factor ← G.inv (← G.genPow step)
  match ← G.meetTable table step factor (step + 1) 0 element with
  | some value =>
    if value ≤ bound.toNat then pure (UInt64.ofNat value) else throw (.range (.plaintext bound))
  | none => throw (.range (.plaintext bound))

/-! ## Residue encoding -/

/-- The element `(value + 1) ^ 2`, for a value below `q`. -/
def encodeResidue (value : UInt64) : Result Int :=
  let base := value.toNat + 1
  if G.q < base then .error (.range .residueValue) else Modular.square base G.p

/-- The value whose residue encoding is the element. -/
def decodeResidue (element : Option Int) : Result UInt64 := do
  let element ← G.ensureMember "encoded plaintext" element
  let root ← Modular.sqrt element G.p
  let root ← if G.q < root then Modular.sub G.p root G.p else pure root
  Number.toWord (root - 1)

end Group

end BallotMix
