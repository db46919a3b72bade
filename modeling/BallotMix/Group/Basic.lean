import BallotMix.Entropy.Uniform
import BallotMix.Number.Prime

/-!
# Groups

A `Group` is the subgroup of order `q` of the residues modulo `p`, generated by `g`.  For a safe
prime `p = 2 q + 1` it is the group of squares, and `Group.ofSafePrime` builds it after checking
that this is so.  A group may also be put together unchecked; then the arithmetic still answers for
all numbers, with a fault where a modulus is zero.

Elements are multiplied modulo `p`, scalars, the exponents, are added and multiplied modulo `q`.
-/

namespace BallotMix

/-- The residues modulo `p` that are powers of `g`, of order `q`. -/
structure Group where
  /-- The modulus of the elements. -/
  p : Nat
  /-- The order of the group, the modulus of the scalars. -/
  q : Nat
  g : Int
deriving DecidableEq, Repr

namespace Group

variable (G : Group)

/-- The number of bytes in which every element fits. -/
def elementBytes : Nat := Number.byteLength G.p

/-- The number of bytes in which every scalar fits. -/
def scalarBytes : Nat := Number.byteLength G.q

/-! ## Elements -/

def pow (x e : Int) : Result Int := Modular.pow x e G.p

def genPow (e : Int) : Result Int := G.pow G.g e

def mul (x y : Int) : Result Int := Modular.mul x y G.p

def inv (x : Int) : Result Int := Modular.inverse x G.p

def div (x y : Int) : Result Int := do G.mul x (← G.inv y)

def prod (xs : List Int) : Result Int := xs.foldlM G.mul 1

/-! ## Scalars -/

def scalarAdd (x y : Int) : Result Int := Modular.add x y G.q

def scalarSub (x y : Int) : Result Int := Modular.sub x y G.q

def scalarMul (x y : Int) : Result Int := Modular.mul x y G.q

/-- The scalar that a number stands for. -/
def toScalar (x : Int) : Result Int := Modular.reduce x G.q

/-- The scalar that cancels a scalar. -/
def scalarNeg (x : Int) : Result Int := G.scalarSub 0 x

def scalarSum (xs : List Int) : Result Int := xs.foldlM G.scalarAdd 0

def scalarProd (xs : List Int) : Result Int := xs.foldlM G.scalarMul 1

/-- The sum of the products of the scalars of two lists. -/
def scalarDot (xs ys : List Int) : Result Int := do
  G.scalarSum (← (xs.zip ys).mapM fun xy => G.scalarMul xy.1 xy.2)

/-! ## Membership -/

/-- Whether a number is there and lies in the group: `0 < x < p` and `x ^ q = 1` modulo `p`. -/
def isMember : Option Int → Bool
  | none => false
  | some x => decide (0 < x) && decide (x < G.p) && decide (Modular.powNat x.toNat G.q G.p = 1)

/-- Whether a number is there and lies in `[0, q)`. -/
def isScalar : Option Int → Bool
  | none => false
  | some s => decide (0 ≤ s) && decide (s < G.q)

/-- The number in a field, which must lie in the group; `what` names the field. -/
def ensureMember (what : String) (x : Option Int) : Result Int :=
  if G.isMember x then present x else .error (.notInSubgroup what)

/-- The number in a field, which must lie in `[1, q - 1]`; `fault` is what is wrong if not. -/
def ensureExponent (fault : ArgumentFault) (s : Option Int) : Result Int :=
  if G.isScalar s && decide (s ≠ some 0) then present s else .error (.argument fault)

theorem exists_of_isMember {x : Option Int} (h : G.isMember x = true) :
    ∃ v : Int, x = some v ∧ 0 < v ∧ v < G.p ∧ Modular.powNat v.toNat G.q G.p = 1 := by
  cases x with
  | none => simp [isMember] at h
  | some v => simpa [isMember, and_assoc] using h

theorem ensureMember_eq_ok_iff {what : String} {x : Option Int} {v : Int} :
    G.ensureMember what x = .ok v ↔ G.isMember x = true ∧ x = some v := by
  unfold ensureMember
  split
  · next h =>
    obtain ⟨w, rfl, -⟩ := G.exists_of_isMember h
    simp [h]
  · next h => simp [h]

/-! ## Random scalars -/

/-- A scalar in `[1, q - 1]`, each equally likely. -/
def randomExponent {σ : Type} [Source σ] : Draw σ Int := do
  let r ← uniform (G.q - 1)
  pure (r + 1)

/-- A list of `n` scalars in `[1, q - 1]`. -/
def randomExponents {σ : Type} [Source σ] : Nat → Draw σ (List Int)
  | 0 => pure []
  | n + 1 => do
    let r ← G.randomExponent
    let rs ← randomExponents n
    pure (r :: rs)

/-! ## Checked construction -/

/-- The fewest binary digits of a modulus. -/
def minimumBits : Nat := 32

/-- The group of squares modulo a safe prime, with a generator. -/
def ofSafePrime (p g : Int) : Result Group :=
  let G : Group := ⟨p.toNat, ((p - 1) / 2).toNat, g⟩
  if Number.bitLength p.natAbs < minimumBits then .error (.argument .modulusTooShort)
  else if !Number.isPrime p then .error (.argument .modulusNotPrime)
  else if !Number.isPrime G.q then .error (.argument .modulusNotSafe)
  else if !G.isMember (some g) || decide (g = 1) then .error (.argument .notGenerator)
  else .ok G

end Group

end BallotMix
