import BallotMix.Group.Basic

/-!
# Reading blobs

A `Reader` is a computation that takes bytes off the front of a blob.  Elements have to lie in the
group and scalars below the order, so whatever is read can be used as it is.  A piece that the blob
is too short for is a fault and nothing is taken; a piece that was read and then refused is taken.
-/

namespace BallotMix

namespace Wire

/-- A computation that takes bytes off the front of a blob. -/
abbrev Reader := ExceptT Error (StateM Bytes)

namespace Reader

def take (n : Nat) : Reader Bytes := do
  let data ← get
  if data.length < n then throw (.argument .truncated)
  set (data.drop n)
  pure (data.take n)

/-- Takes a count or an index of four bytes. -/
def word : Reader UInt32 := do
  pure (UInt32.ofNat (Bytes.toNat (← take 4)))

def element (G : Group) : Reader Int := do
  let x := Bytes.toNat (← take G.elementBytes)
  G.ensureMember "decoded element" (some x)

def scalar (G : Group) : Reader Int := do
  let s := Bytes.toNat (← take G.scalarBytes)
  if !G.isScalar (some s) then throw (.argument .scalarTooLarge)
  pure s

def times {α : Type} (n : Nat) (piece : Reader α) : Reader (List α) :=
  match n with
  | 0 => pure []
  | n + 1 => do
    let first ← piece
    let others ← times n piece
    pure (first :: others)

/-- Takes elements with their count in front, which must not exceed what is left of the blob. -/
def elements (G : Group) : Reader (List Int) := do
  let n ← word
  if (← get).length / G.elementBytes < n.toNat then throw (.argument .elementCount)
  times n.toNat (element G)

/-- Nothing must be left. -/
def finish : Reader Unit := do
  if !(← get).isEmpty then throw (.argument .trailingBytes)

/-- What a reader makes of a whole blob. -/
def whole {α : Type} (reader : Reader α) (data : Bytes) : Result α :=
  let complete : Reader α := do
    let a ← reader
    finish
    pure a
  (complete.run data).1

end Reader

end Wire

end BallotMix
