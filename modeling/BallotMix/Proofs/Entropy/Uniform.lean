import BallotMix.Proofs.Entropy.Rejection
import Mathlib

/-!
# Draws are exactly uniform

The mask on the first byte keeps as many bits as the bound has, so that each number below the bound is
read from the same number of chunks (`ncard_readAs`), and at least half of all chunks are kept
(`le_two_mul_ncard_kept`).  A chunk that is refused says nothing about the next.  So among the byte
strings of any length each number is drawn from the same number of them, also if it matters what is
left of them (`ncard_drawing_congr`), and every further chunk halves those that are refused altogether
(`two_pow_mul_ncard_failing_le`).
-/

namespace BallotMix

open Draw Number

/-! ## Masks -/

/-- The bits that a number of `bits` binary digits takes up in its first byte. -/
def firstByteMask (bits : ℕ) : UInt8 :=
  if bits % 8 = 0 then 0xFF else UInt8.ofNat (2 ^ (bits % 8) - 1)

/-- The byte string without the bits of its first byte that are outside the mask. -/
def maskFirst (bits : ℕ) : Bytes → Bytes
  | [] => []
  | b :: rest => (b &&& firstByteMask bits) :: rest

theorem toNat_and_firstByteMask {bits high : ℕ} (positive : 0 < high) (one : high ≤ 8)
    (whole : (bits - high) % 8 = 0) (le : high ≤ bits) (b : UInt8) :
    (b &&& firstByteMask bits).toNat = b.toNat % 2 ^ high := by
  have mask : (firstByteMask bits).toNat = 2 ^ high - 1 := by
    unfold firstByteMask
    split
    · obtain rfl : high = 8 := by omega
      rfl
    · have same : bits % 8 = high := by omega
      have small : 2 ^ high < 2 ^ 8 := Nat.pow_lt_pow_right (by decide) (by omega)
      rw [same, UInt8.toNat_ofNat', Nat.mod_eq_of_lt (by omega)]
  rw [UInt8.toNat_and, mask, Nat.and_two_pow_sub_one_eq_mod]

/-- What is read with the mask is the big-endian number of the masked byte string. -/
theorem maskedValue_eq {bits : ℕ} {chunk : Bytes} (width : chunk.length = (bits + 7) / 8) :
    maskedValue bits chunk = Bytes.toNat (maskFirst bits chunk) := by
  cases chunk with
  | nil =>
    rw [List.length_nil] at width
    obtain rfl : bits = 0 := by omega
    rfl
  | cons b rest =>
    rw [List.length_cons] at width
    have high : (b &&& firstByteMask bits).toNat = b.toNat % 2 ^ (bits - 8 * rest.length) :=
      toNat_and_firstByteMask (by omega) (by omega) (by omega) (by omega) b
    have split : 2 ^ bits = 256 ^ rest.length * 2 ^ (bits - 8 * rest.length) := by
      rw [show (256 : ℕ) = 2 ^ 8 from rfl, ← pow_mul, ← pow_add]
      congr 1
      omega
    have low := Bytes.toNat_lt rest
    have remainder : (b.toNat * 256 ^ rest.length + Bytes.toNat rest) % 256 ^ rest.length
        = Bytes.toNat rest := by
      rw [Nat.mul_add_mod', Nat.mod_eq_of_lt low]
    have quotient : (b.toNat * 256 ^ rest.length + Bytes.toNat rest) / 256 ^ rest.length
        = b.toNat := by
      rw [Nat.add_comm, Nat.add_mul_div_right _ _ (by positivity), Nat.div_eq_of_lt low,
        Nat.zero_add]
    rw [maskFirst, Bytes.toNat_cons, high, maskedValue, Nat.one_shiftLeft, split, Nat.mod_mul,
      Bytes.toNat_cons, remainder, quotient, Nat.add_comm, Nat.mul_comm (256 ^ _)]

/-! ## Chunks -/

section

variable {width bits v h : ℕ}

/-- The chunk with `v` under the mask and `h` outside it. -/
def chunkOf (width bits : ℕ) (vh : ℕ × ℕ) : Bytes := Bytes.ofNat width (vh.1 + 2 ^ bits * vh.2)

theorem add_two_pow_mul_lt (fits : bits ≤ 8 * width) (hv : v < 2 ^ bits)
    (hh : h < 2 ^ (8 * width - bits)) : v + 2 ^ bits * h < 256 ^ width := by
  calc v + 2 ^ bits * h < 2 ^ bits * (h + 1) := by rw [Nat.mul_succ]; omega
    _ ≤ 2 ^ bits * 2 ^ (8 * width - bits) := Nat.mul_le_mul_left _ hh
    _ = 256 ^ width := by
      rw [← pow_add, Nat.add_sub_cancel' fits, pow_mul]
      rfl

theorem toNat_chunkOf (fits : bits ≤ 8 * width) (hv : v < 2 ^ bits)
    (hh : h < 2 ^ (8 * width - bits)) :
    Bytes.toNat (chunkOf width bits (v, h)) = v + 2 ^ bits * h := by
  rw [chunkOf, Bytes.toNat_ofNat, Nat.mod_eq_of_lt (add_two_pow_mul_lt fits hv hh)]

theorem maskedValue_chunkOf (fits : bits ≤ 8 * width) (hv : v < 2 ^ bits)
    (hh : h < 2 ^ (8 * width - bits)) : maskedValue bits (chunkOf width bits (v, h)) = v := by
  rw [maskedValue, toNat_chunkOf fits hv hh, Nat.one_shiftLeft, Nat.add_mul_mod_self_left,
    Nat.mod_eq_of_lt hv]

/-- Every chunk is that of its number cut in two. -/
theorem chunkOf_maskedValue (bits : ℕ) (chunk : Bytes) :
    chunkOf chunk.length bits (maskedValue bits chunk, Bytes.toNat chunk / 2 ^ bits) = chunk := by
  rw [chunkOf, maskedValue, Nat.one_shiftLeft, Nat.mod_add_div, Bytes.ofNat_toNat]

variable {values : Set ℕ}

theorem injOn_chunkOf (fits : bits ≤ 8 * width) (small : ∀ v ∈ values, v < 2 ^ bits) :
    Set.InjOn (chunkOf width bits) (values ×ˢ Set.Iio (2 ^ (8 * width - bits))) := by
  rintro ⟨v, h⟩ ⟨hv, hh⟩ ⟨v', h'⟩ ⟨hv', hh'⟩ same
  have number := congrArg Bytes.toNat same
  rw [toNat_chunkOf fits (small v hv) hh, toNat_chunkOf fits (small v' hv') hh'] at number
  have low := congrArg (maskedValue bits) same
  rw [maskedValue_chunkOf fits (small v hv) hh, maskedValue_chunkOf fits (small v' hv') hh'] at low
  subst low
  rw [Nat.add_left_cancel_iff, Nat.mul_left_cancel_iff (Nat.two_pow_pos bits)] at number
  exact congrArg (Prod.mk v) number

theorem setOf_masked_eq_image (fits : bits ≤ 8 * width) (small : ∀ v ∈ values, v < 2 ^ bits) :
    {chunk : Bytes | chunk.length = width ∧ maskedValue bits chunk ∈ values}
      = chunkOf width bits '' (values ×ˢ Set.Iio (2 ^ (8 * width - bits))) := by
  ext chunk
  constructor
  · rintro ⟨rfl, member⟩
    refine ⟨_, ⟨member, ?_⟩, chunkOf_maskedValue bits chunk⟩
    refine Nat.div_lt_of_lt_mul ?_
    rw [← pow_add, Nat.add_sub_cancel' fits, pow_mul]
    exact Bytes.toNat_lt chunk
  · rintro ⟨⟨v, h⟩, ⟨hv, hh⟩, rfl⟩
    refine ⟨Bytes.length_ofNat _ _, ?_⟩
    rw [maskedValue_chunkOf fits (small v hv) hh]
    exact hv

/-- The chunks whose low bits write a number of a set are as many for each number. -/
theorem ncard_masked (fits : bits ≤ 8 * width) (small : ∀ v ∈ values, v < 2 ^ bits) :
    {chunk : Bytes | chunk.length = width ∧ maskedValue bits chunk ∈ values}.ncard
      = values.ncard * 2 ^ (8 * width - bits) := by
  rw [setOf_masked_eq_image fits small, (injOn_chunkOf fits small).ncard_image, Set.ncard_prod,
    Set.ncard_Iio_nat]

end

/-- The byte strings of a length. -/
def strings (n : ℕ) : Set Bytes := {bytes | bytes.length = n}

theorem ncard_strings (n : ℕ) : (strings n).ncard = 256 ^ n := by
  have small : ∀ v ∈ ({0} : Set ℕ), v < 2 ^ 0 := by simp
  have all := ncard_masked (Nat.zero_le (8 * n)) small
  rw [Set.ncard_singleton, Nat.one_mul, Nat.sub_zero, pow_mul] at all
  rw [show (256 : ℕ) = 2 ^ 8 from rfl, ← all]
  congr 1
  ext bytes
  simp [strings, maskedValue, Nat.mod_one]

theorem finite_strings (n : ℕ) : (strings n).Finite :=
  Set.finite_of_ncard_ne_zero (by rw [ncard_strings]; positivity)

/-- Byte strings of one length followed by others are as many as the pairs. -/
theorem ncard_append {n : ℕ} {fronts : Set Bytes} (front : fronts ⊆ strings n) (rests : Set Bytes) :
    (Set.image2 (· ++ ·) fronts rests).ncard = fronts.ncard * rests.ncard := by
  have apart : Set.InjOn (fun pair : Bytes × Bytes => pair.1 ++ pair.2) (fronts ×ˢ rests) := by
    rintro ⟨a, c⟩ ⟨ha, -⟩ ⟨b, d⟩ ⟨hb, -⟩ same
    obtain ⟨rfl, rfl⟩ := List.append_inj same ((front ha).trans (front hb).symm)
    rfl
  rw [← Set.image_prod, apart.ncard_image, Set.ncard_prod]

/-! ## Kept and refused chunks -/

variable {bound : ℕ}

/-- The chunks from which a draw below the bound reads the number. -/
def readAs (bound v : ℕ) : Set Bytes :=
  {chunk | chunk.length = byteLength bound ∧ candidate bound chunk = v}

/-- The chunks that a draw below the bound keeps. -/
def kept (bound : ℕ) : Set Bytes :=
  {chunk | chunk.length = byteLength bound ∧ candidate bound chunk < bound}

/-- The chunks that a draw below the bound refuses. -/
def refused (bound : ℕ) : Set Bytes :=
  {chunk | chunk.length = byteLength bound ∧ bound ≤ candidate bound chunk}

theorem bitLength_le_byteLength (n : ℕ) : bitLength n ≤ 8 * byteLength n := by
  rw [byteLength]
  omega

theorem ncard_readAs {v : ℕ} (low : v < bound) :
    (readAs bound v).ncard = 2 ^ (8 * byteLength bound - bitLength bound) := by
  have small : ∀ w ∈ ({v} : Set ℕ), w < 2 ^ bitLength bound := by
    rintro w rfl
    exact low.trans (lt_two_pow_bitLength bound)
  have all := ncard_masked (bitLength_le_byteLength bound) small
  rwa [Set.ncard_singleton, Nat.one_mul] at all

theorem ncard_kept (bound : ℕ) :
    (kept bound).ncard = bound * 2 ^ (8 * byteLength bound - bitLength bound) := by
  have small : ∀ w ∈ Set.Iio bound, w < 2 ^ bitLength bound := fun w low =>
    (Set.mem_Iio.1 low).trans (lt_two_pow_bitLength bound)
  have all := ncard_masked (bitLength_le_byteLength bound) small
  rwa [Set.ncard_Iio_nat] at all

/-- At least half of all chunks are kept. -/
theorem le_two_mul_ncard_kept (positive : 0 < bound) :
    256 ^ byteLength bound ≤ 2 * (kept bound).ncard := by
  have width := bitLength_le_byteLength bound
  have digits : 0 < bitLength bound := by
    by_contra none
    have small := (bitLength_le_iff bound 0).1 (by omega)
    rw [pow_zero] at small
    omega
  have high : 2 ^ (bitLength bound - 1) ≤ bound := by
    by_contra low
    have fewer := (bitLength_le_iff bound (bitLength bound - 1)).2 (not_le.1 low)
    omega
  calc 256 ^ byteLength bound = 2 ^ (8 * byteLength bound) := (pow_mul 2 8 _).symm
    _ = 2 * (2 ^ (bitLength bound - 1) * 2 ^ (8 * byteLength bound - bitLength bound)) := by
      rw [← pow_add, ← pow_succ']
      congr 1
      omega
    _ ≤ 2 * (bound * 2 ^ (8 * byteLength bound - bitLength bound)) :=
      Nat.mul_le_mul_left _ (Nat.mul_le_mul_right _ high)
    _ = 2 * (kept bound).ncard := by rw [ncard_kept]

theorem two_mul_ncard_refused_le (positive : 0 < bound) :
    2 * (refused bound).ncard ≤ 256 ^ byteLength bound := by
  have all : strings (byteLength bound) = kept bound ∪ refused bound := by
    ext chunk
    constructor
    · intro length
      rcases lt_or_ge (candidate bound chunk) bound with fits | not
      · exact Or.inl ⟨length, fits⟩
      · exact Or.inr ⟨length, not⟩
    · rintro (⟨length, -⟩ | ⟨length, -⟩)
      · exact length
      · exact length
  have apart : Disjoint (kept bound) (refused bound) :=
    Set.disjoint_left.2 fun chunk fits not => not_le.2 fits.2 not.2
  have finite := finite_strings (byteLength bound)
  have total := Set.ncard_union_eq apart (finite.subset fun _ h => h.1)
    (finite.subset fun _ h => h.1)
  rw [← all, ncard_strings] at total
  have half := le_two_mul_ncard_kept positive
  omega

/-! ## Tapes -/

/-- The tapes of `n` bytes from which the computation gives the value. -/
def Tape.giving {α : Type} (d : Draw Tape α) (a : α) (n : ℕ) : Set Bytes :=
  {bytes | bytes.length = n ∧ ∃ s, d.Returns ⟨bytes⟩ a s}

/-- The tapes of `n` bytes from which the computation gives nothing. -/
def Tape.failing {α : Type} (d : Draw Tape α) (n : ℕ) : Set Bytes :=
  {bytes | bytes.length = n ∧ ∀ a s, ¬ d.Returns ⟨bytes⟩ a s}

/-- The tapes of `n` bytes from which the draw returns the value and leaves one of `rests`. -/
def drawing (bound : ℕ) (value : ℤ) (rests : Set Bytes) (n : ℕ) : Set Bytes :=
  {bytes | bytes.length = n ∧
    ∃ rest ∈ rests, (uniform (bound : ℤ)).Returns (⟨bytes⟩ : Tape) value ⟨rest⟩}

/-- A tape of `n` bytes has a first chunk, if it is not shorter. -/
theorem exists_append {width n : ℕ} {bytes : Bytes} (length : bytes.length = width + n) :
    ∃ chunk rest : Bytes, bytes = chunk ++ rest ∧ chunk.length = width ∧ rest.length = n := by
  refine ⟨bytes.take width, bytes.drop width, (List.take_append_drop _ _).symm, ?_, ?_⟩
  · rw [List.length_take]
    omega
  · rw [List.length_drop]
    omega

theorem drawing_eq_empty (positive : 0 < bound) {n : ℕ} (short : n < byteLength bound) (value : ℤ)
    (rests : Set Bytes) : drawing bound value rests n = ∅ := by
  refine Set.eq_empty_of_forall_notMem fun bytes => ?_
  rintro ⟨rfl, rest, -, drawn⟩
  exact Tape.not_uniform_returns positive short drawn

/-- The first chunk gives the value, or it is refused and the draw goes on. -/
theorem drawing_eq_union (positive : 0 < bound) {v : ℕ} (low : v < bound) (rests : Set Bytes)
    (n : ℕ) :
    drawing bound v rests (byteLength bound + n) =
      Set.image2 (· ++ ·) (readAs bound v) (rests ∩ strings n) ∪
        Set.image2 (· ++ ·) (refused bound) (drawing bound v rests n) := by
  ext bytes
  constructor
  · rintro ⟨total, rest, member, drawn⟩
    obtain ⟨chunk, others, rfl, width, length⟩ := exists_append total
    rcases (Tape.uniform_returns_append_iff positive width).1 drawn with
      ⟨-, value, same⟩ | ⟨not, drawn⟩
    · obtain rfl : rest = others := congrArg Tape.bytes same
      exact Or.inl ⟨chunk, ⟨width, by exact_mod_cast value.symm⟩, rest, ⟨member, length⟩, rfl⟩
    · exact Or.inr ⟨chunk, ⟨width, not⟩, others, ⟨length, rest, member, drawn⟩, rfl⟩
  · rintro (⟨chunk, ⟨width, rfl⟩, rest, ⟨member, length⟩, rfl⟩ |
      ⟨chunk, ⟨width, not⟩, others, ⟨length, rest, member, drawn⟩, rfl⟩)
    · refine ⟨by rw [List.length_append, width, length], rest, member, ?_⟩
      exact Tape.uniform_returns_append low width rest
    · refine ⟨by rw [List.length_append, width, length], rest, member, ?_⟩
      exact (Tape.uniform_returns_append_iff positive width).2 (Or.inr ⟨not, drawn⟩)

theorem ncard_drawing (positive : 0 < bound) {v : ℕ} (low : v < bound) (rests : Set Bytes) (n : ℕ) :
    (drawing bound v rests (byteLength bound + n)).ncard =
      2 ^ (8 * byteLength bound - bitLength bound) * (rests ∩ strings n).ncard
        + (refused bound).ncard * (drawing bound v rests n).ncard := by
  have finite := finite_strings (byteLength bound + n)
  have union := drawing_eq_union positive low rests n
  have within : drawing bound v rests (byteLength bound + n) ⊆ strings (byteLength bound + n) :=
    fun _ h => h.1
  have apart : Disjoint (Set.image2 (· ++ ·) (readAs bound v) (rests ∩ strings n))
      (Set.image2 (· ++ ·) (refused bound) (drawing bound v rests n)) := by
    refine Set.disjoint_left.2 ?_
    rintro _ ⟨chunk, ⟨width, rfl⟩, rest, -, rfl⟩ ⟨chunk', ⟨width', not⟩, others, -, same⟩
    obtain ⟨rfl, -⟩ := List.append_inj same (width'.trans width.symm)
    exact not_le.2 low not
  rw [union] at within ⊢
  rw [Set.ncard_union_eq apart (finite.subset (Set.subset_union_left.trans within))
    (finite.subset (Set.subset_union_right.trans within)), ncard_append (fun _ h => h.1),
    ncard_append (fun _ h => h.1), ncard_readAs low]

/-- Which number below the bound is drawn does not matter for how many tapes it is drawn from, if what
may be left of them is as many byte strings of every length. -/
theorem ncard_drawing_congr (positive : 0 < bound) {v v' : ℕ} (low : v < bound) (low' : v' < bound)
    {rests rests' : Set Bytes} (same : ∀ n, (rests ∩ strings n).ncard = (rests' ∩ strings n).ncard)
    (n : ℕ) : (drawing bound v rests n).ncard = (drawing bound v' rests' n).ncard := by
  induction n using Nat.strong_induction_on with
  | _ n ih =>
    rcases lt_or_ge n (byteLength bound) with short | long
    · rw [drawing_eq_empty positive short, drawing_eq_empty positive short]
    · obtain ⟨m, rfl⟩ := Nat.exists_eq_add_of_le long
      have shorter := ih m (Nat.lt_add_of_pos_left (byteLength_pos positive))
      rw [ncard_drawing positive low, ncard_drawing positive low', same, shorter]

theorem giving_uniform (bound : ℕ) (value : ℤ) (n : ℕ) :
    Tape.giving (uniform (bound : ℤ)) value n = drawing bound value Set.univ n := by
  ext bytes
  refine and_congr_right fun _ => ?_
  constructor
  · rintro ⟨s, drawn⟩
    exact ⟨s.bytes, Set.mem_univ _, drawn⟩
  · rintro ⟨rest, -, drawn⟩
    exact ⟨⟨rest⟩, drawn⟩

theorem ncard_failing (positive : 0 < bound) (n : ℕ) :
    (Tape.failing (uniform (bound : ℤ)) (byteLength bound + n)).ncard
      = (refused bound).ncard * (Tape.failing (uniform (bound : ℤ)) n).ncard := by
  rw [← ncard_append (fun _ h => h.1)]
  congr 1
  ext bytes
  constructor
  · rintro ⟨total, never⟩
    obtain ⟨chunk, rest, rfl, width, length⟩ := exists_append total
    have not : bound ≤ candidate bound chunk := not_lt.1 fun fits =>
      never (candidate bound chunk) ⟨rest⟩ (Tape.uniform_returns_append fits width rest)
    refine ⟨chunk, ⟨width, not⟩, rest, ⟨length, fun value s drawn => never value s ?_⟩, rfl⟩
    exact (Tape.uniform_returns_append_iff positive width).2 (Or.inr ⟨not, drawn⟩)
  · rintro ⟨chunk, ⟨width, not⟩, rest, ⟨length, never⟩, rfl⟩
    refine ⟨by rw [List.length_append, width, length], fun value s drawn => ?_⟩
    rcases (Tape.uniform_returns_append_iff positive width).1 drawn with ⟨fits, -⟩ | ⟨-, drawn⟩
    · exact not_le.2 fits not
    · exact never value s drawn

/-- Every further chunk leaves a draw without a number on at most half as many tapes. -/
theorem two_pow_mul_ncard_failing_le (positive : 0 < bound) (k : ℕ) :
    2 ^ k * (Tape.failing (uniform (bound : ℤ)) (k * byteLength bound)).ncard
      ≤ 256 ^ (k * byteLength bound) := by
  induction k with
  | zero =>
    rw [Nat.zero_mul, pow_zero, Nat.one_mul, ← ncard_strings]
    exact Set.ncard_le_ncard (fun _ h => h.1) (finite_strings 0)
  | succ k ih =>
    rw [Nat.succ_mul, Nat.add_comm (k * _), ncard_failing positive, pow_succ, pow_add 256]
    calc 2 ^ k * 2 * ((refused bound).ncard
          * (Tape.failing (uniform (bound : ℤ)) (k * byteLength bound)).ncard)
        = 2 * (refused bound).ncard
          * (2 ^ k * (Tape.failing (uniform (bound : ℤ)) (k * byteLength bound)).ncard) := by ring
      _ ≤ 256 ^ byteLength bound * 256 ^ (k * byteLength bound) :=
        Nat.mul_le_mul (two_mul_ncard_refused_le positive) ih

/-! ## Random exponents -/

namespace Group

variable {σ : Type} [Source σ]

theorem randomExponent_returns_iff (G : Group) (positive : 0 < G.q) {r : ℤ} {s s' : σ} :
    G.randomExponent.Returns s r s' ↔
      (uniform ((G.q - 1 : ℕ) : ℤ)).Returns s (r - 1) s' := by
  rw [randomExponent, Nat.cast_pred positive]
  simp only [returns_bind_iff, returns_pure_iff]
  constructor
  · rintro ⟨v, _, drawn, rfl, rfl⟩
    rwa [Int.add_sub_cancel]
  · intro drawn
    exact ⟨_, _, drawn, Int.sub_add_cancel r 1, rfl⟩

variable (G : Group) [accepted : G.Accepted]

/-- Random exponents lie in `[1, q - 1]`. -/
theorem randomExponent_bounds {r : ℤ} {s s' : σ} (drawn : G.randomExponent.Returns s r s') :
    1 ≤ r ∧ r ≤ G.q - 1 := by
  have positive := accepted.prime_order.pos
  have bounds := uniform_bounds ((G.randomExponent_returns_iff positive).1 drawn)
  omega

/-- A random exponent comes from the tapes from which its predecessor is drawn. -/
theorem giving_randomExponent (r : ℤ) (n : ℕ) :
    Tape.giving G.randomExponent r n = Tape.giving (uniform ((G.q - 1 : ℕ) : ℤ)) (r - 1) n := by
  ext bytes
  exact and_congr_right fun _ => exists_congr fun s =>
    G.randomExponent_returns_iff accepted.prime_order.pos

theorem failing_randomExponent (n : ℕ) :
    Tape.failing G.randomExponent n = Tape.failing (uniform ((G.q - 1 : ℕ) : ℤ)) n := by
  ext bytes
  refine and_congr_right fun _ => ?_
  simp only [G.randomExponent_returns_iff accepted.prime_order.pos]
  constructor
  · intro never r s drawn
    exact never (r + 1) s (by rwa [Int.add_sub_cancel])
  · intro never r s
    exact never (r - 1) s

end Group

/-- Uniform draws are exactly that.  Each number below the bound is read from the same number of
chunks, and at least half of the chunks are kept.  Whatever source hands out the chunks, the first that
fits gives the number, and nothing after it is taken; a tape fails only where no complete chunk on it
fits.  So each number is drawn from the same number of tapes of any length, and the share of tapes
without a number is halved by every chunk.  The same holds of the random exponents of a group, which
are the numbers from one to `q - 1`. -/
theorem uniform_exact {bound : ℕ} (positive : 0 < bound) :
    (∀ chunk : Bytes, chunk.length = byteLength bound →
      candidate bound chunk = Bytes.toNat (maskFirst (bitLength bound) chunk)) ∧
    (∀ v < bound, (readAs bound v).ncard = 2 ^ (8 * byteLength bound - bitLength bound)) ∧
    256 ^ byteLength bound ≤ 2 * (kept bound).ncard ∧
    (∀ {σ : Type} [Source σ] (t : ℕ → σ) (c : ℕ → Bytes) (k : ℕ),
      (∀ j ≤ k, (Source.fill (byteLength bound)).Returns (t j) (c j) (t (j + 1))) →
      IsLeast {j | candidate bound (c j) < bound} k → k < Source.patience (t 0) →
        (uniform (bound : ℤ)).Returns (t 0) (candidate bound (c k) : ℤ) (t (k + 1))) ∧
    (∀ bytes k, IsLeast (Tape.fitting bound bytes) k →
      (uniform (bound : ℤ)).Returns (⟨bytes⟩ : Tape)
        (candidate bound (chunkAt (byteLength bound) bytes k) : ℤ)
        ⟨bytes.drop ((k + 1) * byteLength bound)⟩) ∧
    (∀ bytes, Tape.fitting bound bytes = ∅ →
      (uniform (bound : ℤ)).Fails (⟨bytes⟩ : Tape) (.entropy .exhausted)
        ⟨bytes.drop (bytes.length / byteLength bound * byteLength bound)⟩) ∧
    (∀ seed p k, IsLeast {j | candidate bound (stretch (sequence (hashBlock seed))
        (p + j * byteLength bound) (byteLength bound)) < bound} k →
      (uniform (bound : ℤ)).Returns (Keystream.after seed p)
        (candidate bound (stretch (sequence (hashBlock seed)) (p + k * byteLength bound)
          (byteLength bound)) : ℤ)
        (Keystream.after seed (p + (k + 1) * byteLength bound))) ∧
    (∀ v < bound, ∀ v' < bound, ∀ n, (Tape.giving (uniform (bound : ℤ)) (v : ℤ) n).ncard
      = (Tape.giving (uniform (bound : ℤ)) (v' : ℤ) n).ncard) ∧
    (∀ k, 2 ^ k * (Tape.failing (uniform (bound : ℤ)) (k * byteLength bound)).ncard
      ≤ 256 ^ (k * byteLength bound)) ∧
    ∀ (G : Group) [G.Accepted],
      (∀ {σ : Type} [Source σ] (r : ℤ) (s s' : σ),
        G.randomExponent.Returns s r s' → 1 ≤ r ∧ r ≤ G.q - 1) ∧
      (∀ r r' : ℤ, 1 ≤ r → r ≤ G.q - 1 → 1 ≤ r' → r' ≤ G.q - 1 → ∀ n,
        (Tape.giving G.randomExponent r n).ncard = (Tape.giving G.randomExponent r' n).ncard) ∧
      ∀ k, 2 ^ k * (Tape.failing G.randomExponent (k * byteLength (G.q - 1))).ncard
        ≤ 256 ^ (k * byteLength (G.q - 1)) := by
  have equal {bound : ℕ} (positive : 0 < bound) (v : ℕ) (low : v < bound) (v' : ℕ)
      (low' : v' < bound) (n : ℕ) : (Tape.giving (uniform (bound : ℤ)) (v : ℤ) n).ncard
        = (Tape.giving (uniform (bound : ℤ)) (v' : ℤ) n).ncard := by
    rw [giving_uniform, giving_uniform]
    exact ncard_drawing_congr positive low low' (fun _ => rfl) n
  refine ⟨fun chunk width => maskedValue_eq width, fun v low => ncard_readAs low,
    le_two_mul_ncard_kept positive, fun t c k fills => uniform_returns_first fills,
    fun bytes k => Tape.uniform_returns, fun bytes => Tape.uniform_fails positive,
    fun seed p k => Keystream.uniform_returns, equal positive,
    two_pow_mul_ncard_failing_le positive, fun G accepted => ?_⟩
  have order := accepted.prime_order.two_le
  refine ⟨fun r s s' => G.randomExponent_bounds, fun r r' one below one' below' n => ?_, fun k => ?_⟩
  · obtain ⟨v, hv⟩ := Int.eq_ofNat_of_zero_le (show 0 ≤ r - 1 by omega)
    obtain ⟨v', hv'⟩ := Int.eq_ofNat_of_zero_le (show 0 ≤ r' - 1 by omega)
    rw [G.giving_randomExponent, G.giving_randomExponent, hv, hv']
    exact equal (by omega) v (by omega) v' (by omega) n
  · rw [G.failing_randomExponent]
    exact two_pow_mul_ncard_failing_le (by omega) k

/-- A bound of nine binary digits: the first chunk of the tape is refused and the second is kept. -/
theorem uniform_exact_two_chunks :
    0 < 300 ∧ (uniform 300).Returns (⟨[255, 255, 129, 43, 5]⟩ : Tape) 299 ⟨[5]⟩ ∧
      (Tape.giving Group.least.randomExponent 1 9).ncard
        = (Tape.giving Group.least.randomExponent 7 9).ncard := by
  have positive : 0 < 300 := by decide
  obtain ⟨-, -, -, -, tapes, -, -, -, -, groups⟩ := uniform_exact positive
  refine ⟨positive, tapes [255, 255, 129, 43, 5] 1 ⟨⟨by decide, by decide⟩, ?_⟩, ?_⟩
  · rintro j ⟨-, fits⟩
    refine Nat.one_le_iff_ne_zero.2 fun zero => ?_
    subst zero
    exact absurd fits (by decide)
  · exact (groups Group.least).2.1 1 7 (by decide) (by decide) (by decide) (by decide) 9

end BallotMix
