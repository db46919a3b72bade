import BallotMix.Error
import BallotMix.Hash.Expand

/-!
# Entropy sources

A `Draw` is a computation that consumes randomness: it runs on a source, may fail, and leaves the
source where it stopped, also when it fails.  A `Source` is anything that hands out byte strings of
a wanted length.  Two sources are given: a `Tape` of fixed bytes, which runs dry, and a `Keystream`,
which hashes a seed and never does.
-/

namespace BallotMix

/-- A computation that draws from a source of type `σ`. -/
abbrev Draw (σ : Type) := ExceptT Error (StateM σ)

/-- A supply of random bytes. -/
class Source (σ : Type) where
  /-- Hands out `n` bytes, or reports that it cannot. -/
  fill : Nat → Draw σ Bytes
  /-- How many times it is worth asking for bytes until some fit: after that many the source has
  failed, or has come back to a state it was in before. -/
  patience : σ → Nat

/-! ## Tapes -/

/-- A source that hands out the given bytes in order and then fails. -/
structure Tape where
  /-- The bytes not yet handed out. -/
  bytes : Bytes
deriving DecidableEq

namespace Tape

def fill (n : Nat) (t : Tape) : Result Bytes × Tape :=
  if n ≤ t.bytes.length then (.ok (t.bytes.take n), ⟨t.bytes.drop n⟩)
  else (.error (.entropy .exhausted), t)

instance : Source Tape where
  fill n := fill n
  patience t := t.bytes.length + 1

end Tape

/-! ## Keystreams -/

/-- A source that hands out the sequence that a seed stands for. -/
structure Keystream where
  seed : Bytes
  /-- The place reached. -/
  cursor : Cursor
deriving DecidableEq

namespace Keystream

/-- The whole sequence of a seed. -/
def ofSeed (seed : Bytes) : Keystream := ⟨seed, Cursor.start⟩

def fill (n : Nat) (k : Keystream) : Result Bytes × Keystream :=
  let taken := Cursor.take (hashBlock k.seed) n k.cursor
  (.ok taken.1, ⟨k.seed, taken.2⟩)

/-- The sequence has `2 ^ 32` blocks of 32 bytes and then repeats itself. -/
instance : Source Keystream where
  fill n := fill n
  patience _ := 32 * UInt32.size

end Keystream

/-! ## Either of two sources -/

namespace Source

variable {σ τ : Type} [Source σ] [Source τ]

/-- Takes `n` bytes from the source in use. -/
def fillEither (n : Nat) : σ ⊕ τ → Result Bytes × (σ ⊕ τ)
  | .inl s =>
    let taken := (Source.fill n : Draw σ Bytes).run s
    (taken.1, .inl taken.2)
  | .inr t =>
    let taken := (Source.fill n : Draw τ Bytes).run t
    (taken.1, .inr taken.2)

instance : Source (σ ⊕ τ) where
  fill n := fillEither n
  patience
    | .inl s => Source.patience s
    | .inr t => Source.patience t

end Source

end BallotMix
