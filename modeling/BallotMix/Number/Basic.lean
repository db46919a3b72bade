import BallotMix.Error
import BallotMix.Bytes

/-!
# Numbers

Numbers are integers.  A field of a message may lack its number, so fields are `Option Int` and
`present` is the way from a field to its number.  Sizes, byte forms and 64-bit words look at the
magnitude alone: a sign is not written.
-/

namespace BallotMix

/-- The number in a field, which must not be missing. -/
def present : Option Int → Result Int
  | some x => .ok x
  | none => .error (.arithmetic .copy)

@[simp]
theorem present_some (x : Int) : present (some x) = .ok x := rfl

namespace Number

/-! ## Order -/

/-- The order of two fields: that of their numbers, with a missing number after all others. -/
def compareFields : Option Int → Option Int → Ordering
  | some x, some y => compare x y
  | some _, none => .lt
  | none, some _ => .gt
  | none, none => .eq

/-! ## Sizes -/

/-- The number of binary digits of `n`; zero has none. -/
def bitLength (n : Nat) : Nat := if n = 0 then 0 else n.log2 + 1

/-- The number of bytes that hold `n`; zero needs none. -/
def byteLength (n : Nat) : Nat := (bitLength n + 7) / 8

/-! ## Byte forms and words -/

/-- The magnitude of `x` in exactly `width` bytes. -/
def toBytes (x : Int) (width : Nat) : Result Bytes :=
  if byteLength x.natAbs ≤ width then .ok (Bytes.ofNat width x.natAbs)
  else .error (.arithmetic .padding)

/-- The magnitude of `x` as a 64-bit word. -/
def toWord (x : Int) : Result UInt64 :=
  if bitLength x.natAbs ≤ 64 then .ok (UInt64.ofNat x.natAbs) else .error (.range .word)

/-- Half of `x`, rounded toward zero. -/
def half (x : Int) : Int := x.tdiv 2

end Number

end BallotMix
