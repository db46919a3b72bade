import BallotMix.Entropy.Source
import BallotMix.Proofs.Computation
import Mathlib

/-!
# Hash sequences in pieces

The blocks that a seed is hashed to make one endless sequence of bytes (`sequence`), in which block
numbers start over after `2 ^ 32` blocks.  Expansion gives its first bytes, and a cursor hands out its
bytes from the place that it has reached (`At`), whatever the pieces are.  So how a sequence is cut
into pieces does not show (`expand_cut`).
-/

namespace BallotMix

variable {block : UInt32 → Bytes}

/-- Byte `i` of the sequence that the blocks make, each of 32 bytes. -/
def sequence (block : UInt32 → Bytes) (i : ℕ) : UInt8 :=
  (block (UInt32.ofNat (i / 32))).getD (i % 32) 0

/-- The `n` bytes of a sequence from place `p` on. -/
def stretch (f : ℕ → UInt8) (p n : ℕ) : Bytes := (List.range' p n).map f

@[simp]
theorem length_stretch (f : ℕ → UInt8) (p n : ℕ) : (stretch f p n).length = n := by
  simp [stretch]

@[simp]
theorem stretch_zero (f : ℕ → UInt8) (p : ℕ) : stretch f p 0 = [] := rfl

theorem stretch_succ (f : ℕ → UInt8) (p n : ℕ) :
    stretch f p (n + 1) = f p :: stretch f (p + 1) n := by
  rw [stretch, List.range'_succ, List.map_cons, stretch]

theorem stretch_add (f : ℕ → UInt8) (p m n : ℕ) :
    stretch f p (m + n) = stretch f p m ++ stretch f (p + m) n := by
  rw [stretch, stretch, stretch, ← List.map_append, List.range'_append_1]

theorem stretch_eq_take (f : ℕ → UInt8) (p : ℕ) {m n : ℕ} (h : m ≤ n) :
    stretch f p m = (stretch f p n).take m := by
  obtain ⟨k, rfl⟩ := Nat.exists_eq_add_of_le h
  rw [stretch_add, List.take_left' (length_stretch f p m)]

/-! ## Blocks -/

theorem stretch_block (blocks : ∀ i, (block i).length = 32) (k : ℕ) :
    stretch (sequence block) (32 * k) 32 = block (UInt32.ofNat k) := by
  refine List.ext_getElem (by rw [length_stretch, blocks]) fun j low low' => ?_
  rw [length_stretch] at low
  have number : (32 * k + j) / 32 = k := by omega
  have inside : (32 * k + j) % 32 = j := by omega
  simp [stretch, sequence, number, inside, low']

/-- Block numbers start over at `2 ^ 32`. -/
theorem sequence_add_period (block : UInt32 → Bytes) (i : ℕ) :
    sequence block (i + 32 * UInt32.size) = sequence block i := by
  have number : UInt32.ofNat ((i + 32 * UInt32.size) / 32) = UInt32.ofNat (i / 32) := by
    rw [Nat.add_mul_div_left i UInt32.size (by decide)]
    exact UInt32.toNat_inj.1 (by simp [UInt32.toNat_ofNat'])
  rw [sequence, number, Nat.add_mul_mod_self_left, sequence]

theorem sequence_add_periods (block : UInt32 → Bytes) (i m : ℕ) :
    sequence block (i + 32 * UInt32.size * m) = sequence block i := by
  induction m with
  | zero => rfl
  | succ m ih => rw [Nat.mul_succ, ← Nat.add_assoc, sequence_add_period, ih]

theorem stretch_add_period (block : UInt32 → Bytes) (p m n : ℕ) :
    stretch (sequence block) (p + 32 * UInt32.size * m) n = stretch (sequence block) p n := by
  refine List.ext_getElem (by simp) fun j low low' => ?_
  simp only [stretch, List.getElem_map, List.getElem_range', Nat.one_mul]
  rw [Nat.add_right_comm, sequence_add_periods]

theorem flatMap_blocks (blocks : ∀ i, (block i).length = 32) (k : ℕ) :
    ((List.range k).flatMap fun i => block (UInt32.ofNat i)) = stretch (sequence block) 0 (32 * k) := by
  induction k with
  | zero => rfl
  | succ k ih =>
    rw [List.range_succ, List.flatMap_append, ih, List.flatMap_singleton, ← stretch_block blocks,
      Nat.mul_succ, stretch_add, Nat.zero_add]

/-- Expansion gives the first bytes of the sequence. -/
theorem expandBlocks_eq (blocks : ∀ i, (block i).length = 32) (n : ℕ) :
    expandBlocks block n = stretch (sequence block) 0 n := by
  rw [expandBlocks, flatMap_blocks blocks, ← stretch_eq_take]
  omega

/-! ## Cursors -/

namespace Cursor

/-- The cursor has come to place `p` of the sequence: what is left of the last block goes from there
to the block that is made next. -/
def At (block : UInt32 → Bytes) (p : ℕ) (c : Cursor) : Prop :=
  ∃ next, c.next = UInt32.ofNat next ∧ p + c.rest.length = 32 * next ∧
    c.rest = stretch (sequence block) p c.rest.length

theorem at_start (block : UInt32 → Bytes) : At block 0 start := ⟨0, rfl, rfl, rfl⟩

/-- One byte is handed out; where the last block is used up the next is made first. -/
theorem At.byte (blocks : ∀ i, (block i).length = 32) {p : ℕ} {c : Cursor} (h : At block p c) :
    (c.byte block).1 = sequence block p ∧ At block (p + 1) (c.byte block).2 := by
  obtain ⟨number, rest⟩ := c
  obtain ⟨next, rfl, place, left⟩ := h
  cases rest with
  | cons b rest =>
    rw [List.length_cons, stretch_succ, List.cons.injEq] at left
    rw [List.length_cons] at place
    exact ⟨left.1, next, rfl, by dsimp only [Cursor.byte]; omega, left.2⟩
  | nil =>
    obtain rfl : p = 32 * next := place
    have fresh := stretch_block blocks next
    rw [stretch_succ] at fresh
    refine ⟨by simp [Cursor.byte, ← fresh], next + 1, (UInt32.ofNat_add next 1).symm, ?_, ?_⟩
    · simp [Cursor.byte, ← fresh]
      omega
    · simp [Cursor.byte, ← fresh]

theorem At.take (blocks : ∀ i, (block i).length = 32) (n : ℕ) {p : ℕ} {c : Cursor}
    (h : At block p c) :
    (Cursor.take block n c).1 = stretch (sequence block) p n ∧
      At block (p + n) (Cursor.take block n c).2 := by
  induction n generalizing p c with
  | zero => exact ⟨rfl, h⟩
  | succ n ih =>
    obtain ⟨first, next⟩ := h.byte blocks
    obtain ⟨others, last⟩ := ih next
    rw [Nat.add_right_comm] at last
    exact ⟨by rw [Cursor.take, stretch_succ, first, others], last⟩

/-- To take bytes twice is to take them at once. -/
theorem take_add (block : UInt32 → Bytes) (m n : ℕ) (c : Cursor) :
    (Cursor.take block (m + n) c).2 = (Cursor.take block n (Cursor.take block m c).2).2 := by
  induction m generalizing c with
  | zero => rw [Nat.zero_add, Cursor.take]
  | succ m ih => rw [Nat.succ_add, Cursor.take, ih, Cursor.take]

/-- Pieces of the given lengths, one after the other, and the cursor after them. -/
def pieces (block : UInt32 → Bytes) : List ℕ → Cursor → List Bytes × Cursor
  | [], c => ([], c)
  | n :: lengths, c =>
    let first := Cursor.take block n c
    let others := pieces block lengths first.2
    (first.1 :: others.1, others.2)

theorem map_length_pieces (block : UInt32 → Bytes) (lengths : List ℕ) (c : Cursor) :
    (pieces block lengths c).1.map List.length = lengths := by
  induction lengths generalizing c with
  | nil => rfl
  | cons n lengths ih => rw [pieces, List.map_cons, length_take, ih]

/-- Together the pieces are one stretch of the sequence. -/
theorem At.pieces (blocks : ∀ i, (block i).length = 32) (lengths : List ℕ) {p : ℕ} {c : Cursor}
    (h : At block p c) :
    (Cursor.pieces block lengths c).1.flatten = stretch (sequence block) p lengths.sum := by
  induction lengths generalizing p c with
  | nil => rfl
  | cons n lengths ih =>
    obtain ⟨first, next⟩ := h.take blocks n
    rw [Cursor.pieces, List.flatten_cons, first, ih next, List.sum_cons, stretch_add]

end Cursor

/-! ## Keystreams -/

namespace Keystream

/-- The keystream of a seed after `p` bytes. -/
def after (seed : Bytes) (p : ℕ) : Keystream :=
  ⟨seed, (Cursor.take (hashBlock seed) p Cursor.start).2⟩

theorem at_after (seed : Bytes) (p : ℕ) : (after seed p).cursor.At (hashBlock seed) p := by
  have reached := (Cursor.at_start (hashBlock seed)).take (length_hashBlock seed) p
  rw [Nat.zero_add] at reached
  exact reached.2

open Draw

theorem fills_returns (lengths : List ℕ) (k : Keystream) :
    (lengths.mapM (Source.fill : ℕ → Draw Keystream Bytes)).Returns k
      (Cursor.pieces (hashBlock k.seed) lengths k.cursor).1
      ⟨k.seed, (Cursor.pieces (hashBlock k.seed) lengths k.cursor).2⟩ := by
  induction lengths generalizing k with
  | nil => exact returns_pure_iff.2 ⟨rfl, rfl⟩
  | cons n lengths ih =>
    rw [List.mapM_cons]
    refine returns_bind_iff.2 ⟨_, _, rfl, returns_bind_iff.2 ⟨_, _, ih _, ?_⟩⟩
    exact returns_pure_iff.2 ⟨rfl, rfl⟩

end Keystream

/-- How a sequence is cut does not show, whatever function hashes its blocks: pieces of any lengths
make up the expansion to their total length, and the expansion to a smaller length is the front of
that to a larger one.  So it is for keystreams. -/
theorem expand_cut (hash : Bytes → Bytes) (digests : ∀ text, (hash text).length = 32)
    (seed : Bytes) :
    let block := fun i : UInt32 => hash (seed ++ Bytes.ofUInt32 i)
    (∀ lengths, (Cursor.pieces block lengths Cursor.start).1.map List.length = lengths ∧
      (Cursor.pieces block lengths Cursor.start).1.flatten = expandBlocks block lengths.sum) ∧
    (∀ m n, m ≤ n → expandBlocks block m = (expandBlocks block n).take m) ∧
    (∀ lengths : List ℕ, ∃ (pieces : List Bytes) (k : Keystream),
      Draw.Returns (lengths.mapM Source.fill) (Keystream.ofSeed seed) pieces k ∧
        pieces.map List.length = lengths ∧ pieces.flatten = expand seed lengths.sum) ∧
    ∀ m n, m ≤ n → expand seed m = (expand seed n).take m := by
  have cut {block : UInt32 → Bytes} (blocks : ∀ i, (block i).length = 32) (lengths : List ℕ) :
      (Cursor.pieces block lengths Cursor.start).1.flatten = expandBlocks block lengths.sum := by
    rw [(Cursor.at_start block).pieces blocks, expandBlocks_eq blocks]
  have front {block : UInt32 → Bytes} (blocks : ∀ i, (block i).length = 32) (m n : ℕ) (h : m ≤ n) :
      expandBlocks block m = (expandBlocks block n).take m := by
    rw [expandBlocks_eq blocks, expandBlocks_eq blocks, ← stretch_eq_take _ _ h]
  intro block
  have blocks (i : UInt32) : (block i).length = 32 := digests _
  refine ⟨fun lengths => ⟨Cursor.map_length_pieces block lengths _, cut blocks lengths⟩,
    front blocks, fun lengths => ?_, front (length_hashBlock seed)⟩
  exact ⟨_, _, Keystream.fills_returns lengths _, Cursor.map_length_pieces _ lengths _,
    cut (length_hashBlock seed) lengths⟩

/-- Three pieces, one of them empty, of blocks that repeat their own number. -/
theorem expand_cut_three :
    let hash : Bytes → Bytes := fun text => List.replicate 32 (text.getLastD 0)
    let block := fun i : UInt32 => hash ([7] ++ Bytes.ofUInt32 i)
    (∀ text, (hash text).length = 32) ∧
      (Cursor.pieces block [33, 0, 2] Cursor.start).1.flatten = expandBlocks block 35 ∧
      expandBlocks block 33 = List.replicate 32 0 ++ [1] := by
  intro hash block
  have digests (text : Bytes) : (hash text).length = 32 := List.length_replicate
  exact ⟨digests, ((expand_cut hash digests [7]).1 [33, 0, 2]).2, by decide⟩

end BallotMix
