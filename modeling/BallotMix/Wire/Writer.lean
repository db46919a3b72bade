import BallotMix.Group.Basic

/-!
# Writing blobs

A blob is written piece by piece: elements at the width of the modulus, scalars at the width of the
order, counts in four bytes.  A `Writer` is a computation that adds to a blob.  A number that does
not fit is a fault, and the blob keeps what was written before it.
-/

namespace BallotMix

namespace Wire

/-- A computation that adds to a blob. -/
abbrev Writer := ExceptT Error (StateM Bytes)

namespace Writer

/-- The blob that a writer makes. -/
def blob (writer : Writer Unit) : Result Bytes :=
  match writer.run [] with
  | (.ok (), data) => .ok data
  | (.error e, _) => .error e

def bytes (data : Bytes) : Writer Unit := modify fun written => written ++ data

/-- Adds a count or an index in four bytes. -/
def word (w : UInt32) : Writer Unit := bytes (Bytes.ofUInt32 w)

def element (G : Group) (x : Option Int) : Writer Unit := do
  bytes (← Number.toBytes (← present x) G.elementBytes)

def scalar (G : Group) (s : Option Int) : Writer Unit := do
  bytes (← Number.toBytes (← present s) G.scalarBytes)

/-- Adds elements, with their count in front. -/
def elements (G : Group) (xs : List (Option Int)) : Writer Unit := do
  word (UInt32.ofNat xs.length)
  xs.forM (element G)

end Writer

end Wire

end BallotMix
