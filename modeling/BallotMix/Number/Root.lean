import BallotMix.Number.Jacobi
import BallotMix.Number.Modular
import BallotMix.Number.Sqrt

/-!
# Square roots modulo a prime

A number that is a square modulo an odd prime `m` has two roots there, `r` and `m - r`.  `sqrt`
chooses one of them by a rule that depends on the residue of `m` modulo eight, and `leastSqrt` the
smaller.  The rules make sense for each odd `m`; where it is not a prime they may miss a root, but a
root that they give is checked by squaring.

* For `m = 4 k + 3` the root of `x` is `x ^ (k + 1)`.
* For `m = 8 k + 5` a root `i` of minus one is found with it: if `b = (2 x) ^ k` and
  `i = 2 x b ^ 2`, then the root is `x b (i - 1)`, whose square is `x` times `- i ^ 2`.
* For `m = 8 k + 1` a root of `x` up to an error is improved with a number of known order until no
  error is left.
-/

namespace BallotMix.Modular

/-! ## The first two rules -/

/-- The root of `x` modulo `m = 4 k + 3`. -/
def rootThreeModFour (x m : Nat) : Nat := powNat x (m / 4 + 1) m

/-- The root of `x` modulo `m = 8 k + 5`. -/
def rootFiveModEight (x m : Nat) : Nat :=
  let b := powNat (2 * x % m) (m / 8) m
  let i := 2 * x * (b * b) % m
  x * b * (i + (m - 1)) % m

/-! ## The third rule -/

/-- The first number from `y` on whose Jacobi symbol over `m` is not one, if it is minus one. -/
def nonSquareFrom (m : Nat) : Nat → Nat → Option Nat
  | 0, _ => none
  | fuel + 1, y =>
    let symbol := Number.jacobi y m
    if symbol = 1 then nonSquareFrom m fuel (y + 1)
    else if symbol = -1 then some y
    else none

/-- The least number of Jacobi symbol minus one over `m`, unless a smaller one from two on divides
`m`.  Over a square there is none. -/
def leastNonSquare (m : Nat) : Option Nat :=
  if Number.isqrt m * Number.isqrt m = m then none else nonSquareFrom m m 2

/-- How often `t` has to be squared to reach one, up to `bound`. -/
def squaringsToOne (m : Nat) : Nat → Nat → Nat
  | 0, _ => 0
  | bound + 1, t => if t = 1 then 0 else squaringsToOne m bound (t * t % m) + 1

/-- A root of `x` up to an error: `root ^ 2 = x * error`. -/
structure RootState where
  /-- The order of `twist` is `2 ^ level`, and that of `error` is smaller. -/
  level : Nat
  /-- A number of known order, with which errors are made smaller. -/
  twist : Nat
  error : Nat
  /-- The root up to the error. -/
  root : Nat

/-- Halves the order of the error until the error is one; there is no root if the order of the error
is not smaller than that of the twist. -/
def rootSearch (m : Nat) : Nat → RootState → Option Nat
  | 0, _ => none
  | fuel + 1, s =>
    if s.error = 1 then some s.root
    else
      let level := squaringsToOne m s.level s.error
      if s.level ≤ level then none
      else
        let factor := powNat s.twist (1 <<< (s.level - level - 1)) m
        let twist := factor * factor % m
        rootSearch m fuel ⟨level, twist, s.error * twist % m, s.root * factor % m⟩

/-- The root of `x` modulo `m = 8 k + 1`. -/
def rootOneModEight (x m : Nat) : Option Nat := do
  let y ← leastNonSquare m
  let split := splitTwos m (m - 1)
  let twist := powNat y split.2 m
  if twist = 1 then none
  else if x = 0 then some 0
  else
    let half := powNat x (split.2 / 2) m
    rootSearch m (split.1 + 1) ⟨split.1, twist, x * (half * half) % m, x * half % m⟩

/-! ## Roots -/

/-- The root of a residue `x` that the rule for the odd number `m` gives. -/
def rootCandidate (x m : Nat) : Option Nat :=
  if m % 4 = 3 then some (rootThreeModFour x m)
  else if m % 8 = 5 then some (rootFiveModEight x m)
  else rootOneModEight x m

/-- A square root of `x` modulo a prime `m`.  Zero and one are their own roots. -/
def sqrt (x : Int) (m : Nat) : Result Int :=
  if m = 2 then .ok (x % 2)
  else if m ≤ 1 ∨ m % 2 = 0 then .error (.arithmetic .root)
  else if x = 0 ∨ x = 1 then .ok x
  else
    let residue := (x % m).toNat
    match rootCandidate residue m with
    | some root =>
      if root * root % m = residue then .ok root else .error (.arithmetic .root)
    | none => .error (.arithmetic .root)

/-- The smaller square root of `x` modulo a prime `m`. -/
def leastSqrt (x : Int) (m : Nat) : Result Int := do
  let root ← sqrt x m
  pure (min root (-root % m))

/-- The square of a root is congruent to the number. -/
theorem sqrt_mul_self {x r : Int} {m : Nat} (h : sqrt x m = .ok r) : r * r % m = x % m := by
  unfold sqrt at h
  split at h
  · next two =>
    cases h
    subst two
    rcases (by omega : x % 2 = 0 ∨ x % 2 = 1) with even | odd <;> simp [*]
  · split at h
    · cases h
    · next odd =>
      split at h
      · next unit => cases h; rcases unit with rfl | rfl <;> rfl
      · dsimp only at h
        split at h
        · next root _ =>
          split at h
          · next square =>
            cases h
            have nonneg : 0 ≤ x % (m : Int) := Int.emod_nonneg _ (by omega)
            rw [← Int.natCast_mul, ← Int.natCast_emod, square, Int.toNat_of_nonneg nonneg]
          · cases h
        · cases h

end BallotMix.Modular
