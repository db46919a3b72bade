import BallotMix.Number.Jacobi
import BallotMix.Number.Modular
import BallotMix.Number.Sqrt

/-!
# Primality

`isPrime` decides numbers below `2 ^ 40` by trial division.  A larger number has to have no small
divisor, to be a strong probable prime to thirteen bases, and to be a strong Lucas probable prime;
no composite number is known that passes the first of these bases and the last test together.
-/

namespace BallotMix.Number

/-! ## Trial division -/

/-- Whether no number of `d`, `d + 2`, `d + 4`, … up to the square root of `n` divides `n`. -/
def noDivisorFrom (n : Nat) : Nat → Nat → Bool
  | 0, _ => true
  | fuel + 1, d =>
    if n < d * d then true
    else if n % d = 0 then false
    else noDivisorFrom n fuel (d + 2)

/-- Whether `n` is prime, by trying all divisors. -/
def isPrimeByDivision (n : Nat) : Bool :=
  decide (n = 2) || (decide (1 < n) && decide (n % 2 = 1) && noDivisorFrom n n 3)

def smallPrimes : List Nat := (List.range 1000).filter isPrimeByDivision

/-- Whether no small prime divides `n`, unless it is `n`. -/
def noSmallDivisor (n : Nat) : Bool := smallPrimes.all fun r => decide (n % r ≠ 0) || decide (n = r)

/-! ## Strong probable primes -/

/-- Whether `n - 1` appears among `x` and its next squares modulo `n`. -/
def reachesMinusOne (n : Nat) : Nat → Nat → Bool
  | 0, _ => false
  | squarings + 1, x => decide (x = n - 1) || reachesMinusOne n squarings (x * x % n)

/-- Whether the powers of `base` behave modulo `n` as they do modulo a prime: the first in the chain
of squarings up to the exponent `n - 1` is one, or some is minus one. -/
def isStrongProbablePrime (n base : Nat) : Bool :=
  let split := Modular.splitTwos (bitLength n) (n - 1)
  let x := Modular.powNat base split.2 n
  decide (x = 1) || reachesMinusOne n split.1 x

/-! ## Lucas probable primes -/

/-- A term of the Lucas sequences of parameters `1` and `Q`, with the power of `Q` at its index. -/
structure LucasTerm where
  /-- The term of the sequence that starts 0, 1. -/
  u : Int
  /-- The term of the sequence that starts 2, 1. -/
  v : Int
  /-- The power of `Q`. -/
  power : Int

def halfMod (x : Int) (n : Nat) : Int :=
  let r := x % n
  if r % 2 = 0 then r / 2 else (r + n) / 2

/-- The term at index `k`, for a `k` of at most `bits` binary digits; `disc` is the discriminant. -/
def lucasTerm (n : Nat) (disc q : Int) : Nat → Nat → LucasTerm
  | 0, _ => ⟨0, 2, 1⟩
  | bits + 1, k =>
    let t := lucasTerm n disc q bits (k / 2)
    let u := t.u * t.v % n
    let v := (t.v * t.v - 2 * t.power) % n
    let power := t.power * t.power % n
    if k % 2 = 1 then ⟨halfMod (u + v) n, halfMod (disc * u + v) n, power * q % n⟩
    else ⟨u, v, power⟩

/-- Whether `v` vanishes modulo `n` at the index of `t` or at one of the next doubled indices. -/
def reachesZero (n : Nat) : Nat → LucasTerm → Bool
  | 0, _ => false
  | doublings + 1, t =>
    decide (t.v % n = 0) ||
      reachesZero n doublings ⟨0, (t.v * t.v - 2 * t.power) % n, t.power * t.power % n⟩

/-- The first of 5, -7, 9, -11, … whose Jacobi symbol over `n` is minus one. -/
def lucasDiscriminant (n : Nat) : Nat → Int → Option Int
  | 0, _ => none
  | fuel + 1, disc =>
    if jacobi (disc % n).toNat n = -1 then some disc
    else lucasDiscriminant n fuel (if 0 < disc then -(disc + 2) else -(disc - 2))

/-- Whether the Lucas sequences behave modulo `n` as they do modulo a prime. -/
def isStrongLucas (n : Nat) : Bool :=
  if isqrt n * isqrt n = n then false
  else
    match lucasDiscriminant n (1 <<< 16) 5 with
    | none => false
    | some disc =>
      let split := Modular.splitTwos (bitLength n + 1) (n + 1)
      let t := lucasTerm n disc ((1 - disc) / 4) (bitLength split.2) split.2
      decide (t.u % n = 0) || reachesZero n split.1 t

/-! ## The test -/

/-- Below this bound primality is decided by trial division. -/
def divisionBound : Nat := 1 <<< 40

def strongBases : List Nat := [2, 3, 5, 7, 11, 13, 17, 19, 23, 29, 31, 37, 41]

def isPrime (x : Int) : Bool :=
  let n := x.toNat
  if n < divisionBound then isPrimeByDivision n
  else
    noSmallDivisor n && strongBases.all (isStrongProbablePrime n) && isStrongLucas n

end BallotMix.Number
