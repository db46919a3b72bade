import BallotMix.Number.Basic

/-!
# Modular arithmetic

Arithmetic on integers modulo a natural number.  Every result modulo `m > 0` lies in `[0, m)`.
Modulo zero each operation reports its own fault, but the power to the exponent zero is the empty
product there too, which is one.  Powers take the magnitude of the exponent.  An inverse exists
modulo `m > 1` for numbers prime to `m`.
-/

namespace BallotMix.Modular

/-- The residue of `x`. -/
def reduce (x : Int) (m : Nat) : Result Int :=
  if m = 0 then .error (.arithmetic .residue) else .ok (x % m)

/-- The residue of `x + y`. -/
def add (x y : Int) (m : Nat) : Result Int :=
  if m = 0 then .error (.arithmetic .sum) else .ok ((x + y) % m)

/-- The residue of `x - y`. -/
def sub (x y : Int) (m : Nat) : Result Int :=
  if m = 0 then .error (.arithmetic .difference) else .ok ((x - y) % m)

/-- The residue of `x * y`. -/
def mul (x y : Int) (m : Nat) : Result Int :=
  if m = 0 then .error (.arithmetic .product) else .ok ((x * y) % m)

/-- The residue of `x * x`. -/
def square (x : Int) (m : Nat) : Result Int :=
  if m = 0 then .error (.arithmetic .square) else .ok ((x * x) % m)

/-! ## Powers -/

/-- The product of `acc` and `a ^ n` modulo `m`, by squaring, for an `n` of at most `bits` binary
digits. -/
def powBits (m : Nat) : Nat → Nat → Nat → Nat → Nat
  | 0, acc, _, _ => acc
  | bits + 1, acc, a, n =>
    powBits m bits (if n % 2 = 1 then acc * a % m else acc) (a * a % m) (n / 2)

/-- The power `a ^ n` modulo `m`. -/
def powNat (a n m : Nat) : Nat := powBits m (Number.bitLength n) (1 % m) a n

theorem powBits_lt {m : Nat} (hm : 0 < m) (bits : Nat) {acc : Nat} (h : acc < m) (a n : Nat) :
    powBits m bits acc a n < m := by
  induction bits generalizing acc a n with
  | zero => exact h
  | succ bits ih =>
    rw [powBits]
    split
    · exact ih (Nat.mod_lt _ hm) _ _
    · exact ih h _ _

/-- The residue of `x` to the magnitude of `e`.  It needs a residue of `x` unless `e` is zero. -/
def pow (x e : Int) (m : Nat) : Result Int :=
  if m = 0 ∧ e ≠ 0 then .error (.arithmetic .power) else .ok (powNat (x % m).toNat e.natAbs m)

/-! ## Inverses -/

/-- Euclid's algorithm on two remainders, each with the multiple of `x` that it is congruent to;
ends with the last remainder that is not zero. -/
def euclid : Nat → Nat × Int → Nat × Int → Nat × Int
  | 0, last, _ => last
  | fuel + 1, last, next =>
    if next.1 = 0 then last
    else euclid fuel next (last.1 % next.1, last.2 - (last.1 / next.1 : Nat) * next.2)

/-- The inverse of `x`. -/
def inverse (x : Int) (m : Nat) : Result Int :=
  let residue := (x % m).toNat
  let last := euclid (residue + 1) (m, 0) (residue, 1)
  if m ≤ 1 ∨ last.1 ≠ 1 then .error (.arithmetic .inverse) else .ok (last.2 % m)

/-! ## Factors of two -/

/-- The exponent of two in `n`, and the rest of `n`. -/
def splitTwos : Nat → Nat → Nat × Nat
  | 0, n => (0, n)
  | fuel + 1, n =>
    if n % 2 = 1 then (0, n)
    else
      let rest := splitTwos fuel (n / 2)
      (rest.1 + 1, rest.2)

end BallotMix.Modular
