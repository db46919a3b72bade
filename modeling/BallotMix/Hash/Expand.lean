import BallotMix.Hash.Sha256

/-!
# Hash expansion

A seed is stretched to any length by hashing it with a 32-bit block number behind it, block after
block.  `expand` gives the first bytes of that sequence at once; a `Keystream` hands it out in
pieces.  Both are built on a block function, of which they need only that its blocks have 32 bytes.
-/

namespace BallotMix

/-- Block `i` of the sequence that a seed stands for. -/
def hashBlock (seed : Bytes) (i : UInt32) : Bytes := sha256 (seed ++ Bytes.ofUInt32 i)

theorem length_hashBlock (seed : Bytes) (i : UInt32) : (hashBlock seed i).length = 32 :=
  length_sha256 _

/-- The first `length` bytes of blocks of 32 bytes, the block numbers starting over at `2 ^ 32`. -/
def expandBlocks (block : UInt32 → Bytes) (length : Nat) : Bytes :=
  ((List.range ((length + 31) / 32)).flatMap fun i => block (UInt32.ofNat i)).take length

/-- The first `length` bytes of the sequence that a seed stands for. -/
def expand (seed : Bytes) (length : Nat) : Bytes := expandBlocks (hashBlock seed) length

theorem length_expandBlocks {block : UInt32 → Bytes} (h : ∀ i, (block i).length = 32)
    (length : Nat) : (expandBlocks block length).length = length := by
  have hsum (n : Nat) :
      ((List.range n).flatMap fun i => block (UInt32.ofNat i)).length = 32 * n := by
    induction n with
    | zero => rfl
    | succ n ih => simp [List.range_succ, ih, h]; omega
  rw [expandBlocks, List.length_take, hsum]
  omega

theorem length_expand (seed : Bytes) (length : Nat) : (expand seed length).length = length :=
  length_expandBlocks (length_hashBlock seed) length

/-! ## Reading the sequence piece by piece -/

/-- A place in a sequence of blocks: the number of the next block, and what is left of the last. -/
structure Cursor where
  /-- The number of the block to be made next. -/
  next : UInt32
  /-- The bytes already made and not yet handed out. -/
  rest : Bytes
deriving DecidableEq

namespace Cursor

def start : Cursor := ⟨0, []⟩

def byte (block : UInt32 → Bytes) (c : Cursor) : UInt8 × Cursor :=
  match c.rest with
  | b :: rest => (b, ⟨c.next, rest⟩)
  | [] =>
    let fresh := block c.next
    (fresh.headD 0, ⟨c.next + 1, fresh.tail⟩)

def take (block : UInt32 → Bytes) : Nat → Cursor → Bytes × Cursor
  | 0, c => ([], c)
  | n + 1, c =>
    let first := c.byte block
    let others := take block n first.2
    (first.1 :: others.1, others.2)

theorem length_take (block : UInt32 → Bytes) (n : Nat) (c : Cursor) :
    (take block n c).1.length = n := by
  induction n generalizing c with
  | zero => rfl
  | succ n ih => simp [take, ih]

end Cursor

end BallotMix
