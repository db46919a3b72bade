import BallotMix.Group.Basic
import BallotMix.Hash.Expand

/-!
# Derived generators

Group elements that nobody knows a logarithm of are derived by hashing.  The seed of element `i`
holds the length and the bytes of the domain, a fixed tag, `i`, and a counter; its expansion,
reduced modulo `p` and squared, is the element, unless that is zero or one, and then the counter is
raised.  So element `i` depends on the domain and on `i` alone.
-/

namespace BallotMix.Group

variable (G : Group)

/-- The byte string hashed for a domain, an index and a counter. -/
def generatorSeed (domain : Bytes) (index counter : UInt32) : Bytes :=
  Bytes.ofUInt32 domain.length32 ++ domain ++ Bytes.ofText "ggen" ++ Bytes.ofUInt32 index ++
    Bytes.ofUInt32 counter

/-- The square that a seed gives.  Its root is read from sixteen bytes more than an element has, so
that it is close to uniform. -/
def generatorCandidate (seed : Bytes) : Result Int := do
  let x ← Modular.reduce (Bytes.toNat (expand (sha256 seed) (G.elementBytes + 16))) G.p
  Modular.square x G.p

/-- The first candidate from a counter on that is neither zero nor one, giving up after `tries`. -/
def generatorFrom (domain : Bytes) (index : UInt32) : Nat → UInt32 → Result Int
  | 0, _ => .error (.entropy .unending)
  | tries + 1, counter => do
    let h ← G.generatorCandidate (generatorSeed domain index counter)
    if h = 0 ∨ h = 1 then generatorFrom domain index tries (counter + 1) else pure h

/-- Element `index` of a domain; all counters are tried. -/
def derivedGenerator (domain : Bytes) (index : Nat) : Result Int :=
  G.generatorFrom domain (UInt32.ofNat index) UInt32.size 0

/-- The first `count` elements of a domain. -/
def derivedGenerators (domain : Bytes) (count : Nat) : Result (List Int) :=
  (List.range count).mapM (G.derivedGenerator domain)

end BallotMix.Group
