import BallotMix.Proofs.Entropy.Draws
import BallotMix.Proofs.Hash.Expand
import Mathlib

/-!
# The first chunk that fits

A uniform draw takes chunk after chunk, each as wide as the bound, until the masked value of one is
below the bound.  Whatever the source, the chunks before it are taken and nothing after it
(`uniform_returns_first`).  On a tape the draw fails only where no complete chunk is left
(`Tape.uniform_fails`).  A keystream never ends: it comes back to its beginning before the patience
with it runs out, so that any chunk that fits is found (`Keystream.uniform_returns`).
-/

namespace BallotMix

variable {σ : Type} [Source σ]

open Draw Number

/-- The number that a draw below the bound reads from a chunk. -/
def candidate (bound : ℕ) (chunk : Bytes) : ℕ := maskedValue (bitLength bound) chunk

variable {bound : ℕ}

theorem byteLength_pos (positive : 0 < bound) : 0 < byteLength bound := by
  by_contra none
  have small := (byteLength_le_iff bound 0).1 (by omega)
  rw [pow_zero] at small
  omega

/-! ## Any source -/

theorem firstBelow_returns {s t : σ} {chunk : Bytes}
    (filled : (Source.fill (byteLength bound)).Returns s chunk t)
    (fits : candidate bound chunk < bound) (tries : ℕ) :
    (firstBelow bound (tries + 1)).Returns s (candidate bound chunk) t := by
  rw [firstBelow]
  refine returns_bind_iff.2 ⟨chunk, t, filled, ?_⟩
  dsimp only
  rw [if_pos (show maskedValue (bitLength bound) chunk < bound from fits)]
  exact returns_pure_iff.2 ⟨rfl, rfl⟩

/-- A chunk that does not fit is taken, and the draw goes on. -/
theorem firstBelow_run_refused {s t : σ} {chunk : Bytes}
    (filled : (Source.fill (byteLength bound)).Returns s chunk t)
    (refused : bound ≤ candidate bound chunk) (tries : ℕ) :
    @Eq (Result ℕ × σ) ((firstBelow bound (tries + 1)).run s) ((firstBelow bound tries).run t) := by
  have taken : ((Source.fill (byteLength bound)).run s : Result Bytes × σ) = (.ok chunk, t) := filled
  rw [firstBelow, run_bind, taken]
  dsimp only
  rw [if_neg (show ¬ maskedValue (bitLength bound) chunk < bound from not_lt.2 refused)]

/-- So it is with any number of chunks; `t` are the states of the source between them. -/
theorem firstBelow_run_skip {t : ℕ → σ} {c : ℕ → Bytes} {k : ℕ}
    (fills : ∀ j < k, (Source.fill (byteLength bound)).Returns (t j) (c j) (t (j + 1)))
    (refused : ∀ j < k, bound ≤ candidate bound (c j)) (tries : ℕ) :
    @Eq (Result ℕ × σ) ((firstBelow bound (tries + k)).run (t 0))
      ((firstBelow bound tries).run (t k)) := by
  induction k generalizing tries with
  | zero => rfl
  | succ k ih =>
    have before := ih (fun j hj => fills j (by omega)) (fun j hj => refused j (by omega)) (tries + 1)
    rw [Nat.add_right_comm] at before
    exact before.trans
      (firstBelow_run_refused (fills k (Nat.lt_succ_self k)) (refused k (Nat.lt_succ_self k)) tries)

theorem firstBelow_returns_first {t : ℕ → σ} {c : ℕ → Bytes} {k tries : ℕ}
    (fills : ∀ j ≤ k, (Source.fill (byteLength bound)).Returns (t j) (c j) (t (j + 1)))
    (first : IsLeast {j | candidate bound (c j) < bound} k) (patient : k < tries) :
    (firstBelow bound tries).Returns (t 0) (candidate bound (c k)) (t (k + 1)) := by
  obtain ⟨more, rfl⟩ := Nat.exists_eq_add_of_lt patient
  have refused (j : ℕ) (hj : j < k) : bound ≤ candidate bound (c j) :=
    not_lt.1 fun fits => (first.2 fits).not_gt hj
  have skip := firstBelow_run_skip (fun j hj => fills j (le_of_lt hj)) refused (more + 1)
  rw [show more + 1 + k = k + more + 1 by omega] at skip
  exact skip.trans (firstBelow_returns (fills k le_rfl) first.1 more)

theorem uniform_returns_of_firstBelow {s s' : σ} {value : ℕ} (positive : 0 < bound)
    (h : (firstBelow bound (Source.patience s)).Returns s value s') :
    (uniform (bound : ℤ)).Returns s (value : ℤ) s' := by
  rw [uniform, returns_ite_throw_iff]
  refine ⟨by omega, returns_bind_iff.2 ⟨s, s, returns_get_iff.2 ⟨rfl, rfl⟩, ?_⟩⟩
  exact returns_bind_iff.2 ⟨value, s', h, returns_pure_iff.2 ⟨rfl, rfl⟩⟩

theorem exists_firstBelow_returns {s s' : σ} {value : ℤ}
    (h : (uniform (bound : ℤ)).Returns s value s') :
    ∃ n : ℕ, value = n ∧ (firstBelow bound (Source.patience s)).Returns s n s' := by
  rw [uniform, returns_ite_throw_iff] at h
  obtain ⟨-, h⟩ := h
  simp only [returns_bind_iff, returns_get_iff, returns_pure_iff] at h
  obtain ⟨_, _, ⟨rfl, rfl⟩, n, _, drawn, rfl, rfl⟩ := h
  exact ⟨n, rfl, drawn⟩

theorem uniform_fails_of_firstBelow {s s' : σ} {e : Error} (positive : 0 < bound)
    (h : (firstBelow bound (Source.patience s)).Fails s e s') :
    (uniform (bound : ℤ)).Fails s e s' := by
  rw [uniform, if_neg (by omega)]
  exact (returns_get_iff.2 ⟨rfl, rfl⟩ : (get : Draw σ σ).Returns s s s).bind_fails (h.bind _)

/-- Whatever the source hands out, a draw takes the chunks up to the first that fits, if its patience
lasts that long. -/
theorem uniform_returns_first {t : ℕ → σ} {c : ℕ → Bytes} {k : ℕ}
    (fills : ∀ j ≤ k, (Source.fill (byteLength bound)).Returns (t j) (c j) (t (j + 1)))
    (first : IsLeast {j | candidate bound (c j) < bound} k)
    (patient : k < Source.patience (t 0)) :
    (uniform (bound : ℤ)).Returns (t 0) (candidate bound (c k) : ℤ) (t (k + 1)) :=
  uniform_returns_of_firstBelow (Nat.zero_lt_of_lt first.1)
    (firstBelow_returns_first fills first patient)

/-! ## Tapes -/

/-- Chunk `j` of a byte string. -/
def chunkAt (width : ℕ) (bytes : Bytes) (j : ℕ) : Bytes := (bytes.drop (j * width)).take width

namespace Tape

/-- The complete chunks of the byte string that fit the bound, by their numbers. -/
def fitting (bound : ℕ) (bytes : Bytes) : Set ℕ :=
  {j | (j + 1) * byteLength bound ≤ bytes.length ∧
    candidate bound (chunkAt (byteLength bound) bytes j) < bound}

theorem fill_chunkAt {width j : ℕ} {bytes : Bytes} (complete : (j + 1) * width ≤ bytes.length) :
    (Source.fill width : Draw Tape Bytes).Returns ⟨bytes.drop (j * width)⟩ (chunkAt width bytes j)
      ⟨bytes.drop ((j + 1) * width)⟩ := by
  have enough : width ≤ (bytes.drop (j * width)).length := by
    rw [List.length_drop]
    rw [Nat.succ_mul] at complete
    omega
  show Tape.fill width ⟨bytes.drop (j * width)⟩ = _
  rw [Tape.fill, if_pos enough, List.drop_drop, ← Nat.succ_mul]
  rfl

theorem fill_fails {width : ℕ} {bytes : Bytes} (short : bytes.length < width) :
    (Source.fill width : Draw Tape Bytes).Fails ⟨bytes⟩ (.entropy .exhausted) ⟨bytes⟩ := by
  show Tape.fill width ⟨bytes⟩ = _
  rw [Tape.fill, if_neg (not_le.2 short)]

theorem firstBelow_returns {bytes : Bytes} {k tries : ℕ} (first : IsLeast (fitting bound bytes) k)
    (patient : k < tries) :
    (firstBelow bound tries).Returns (⟨bytes⟩ : Tape)
      (candidate bound (chunkAt (byteLength bound) bytes k))
      ⟨bytes.drop ((k + 1) * byteLength bound)⟩ := by
  have complete (j : ℕ) (hj : j ≤ k) : (j + 1) * byteLength bound ≤ bytes.length :=
    (Nat.mul_le_mul_right _ (by omega)).trans first.1.1
  have least : IsLeast {j | candidate bound (chunkAt (byteLength bound) bytes j) < bound} k := by
    refine ⟨first.1.2, fun j fits => ?_⟩
    by_contra before
    exact before (first.2 ⟨complete j (by omega), fits⟩)
  have drawn := firstBelow_returns_first
    (t := fun j => (⟨bytes.drop (j * byteLength bound)⟩ : Tape))
    (fun j hj => fill_chunkAt (complete j hj)) least patient
  rwa [Nat.zero_mul, List.drop_zero] at drawn

theorem firstBelow_fails {bytes : Bytes} {tries : ℕ} (positive : 0 < bound)
    (none : fitting bound bytes = ∅) (patient : bytes.length < tries) :
    (firstBelow bound tries).Fails (⟨bytes⟩ : Tape) (.entropy .exhausted)
      ⟨bytes.drop (bytes.length / byteLength bound * byteLength bound)⟩ := by
  have width := byteLength_pos positive
  have fewer : bytes.length / byteLength bound < tries := (Nat.div_le_self _ _).trans_lt patient
  obtain ⟨more, rfl⟩ := Nat.exists_eq_add_of_lt fewer
  have complete (j : ℕ) (hj : j < bytes.length / byteLength bound) :
      (j + 1) * byteLength bound ≤ bytes.length :=
    (Nat.mul_le_mul_right _ hj).trans (Nat.div_mul_le_self _ _)
  have refused (j : ℕ) (hj : j < bytes.length / byteLength bound) :
      bound ≤ candidate bound (chunkAt (byteLength bound) bytes j) :=
    not_lt.1 fun fits => Set.notMem_empty j (none ▸ ⟨complete j hj, fits⟩)
  have skip := firstBelow_run_skip (t := fun j => (⟨bytes.drop (j * byteLength bound)⟩ : Tape))
    (fun j hj => fill_chunkAt (complete j hj)) refused (more + 1)
  rw [Nat.zero_mul, List.drop_zero, Nat.add_comm (more + 1), ← Nat.add_assoc] at skip
  have short : (bytes.drop (bytes.length / byteLength bound * byteLength bound)).length
      < byteLength bound := by
    have := Nat.lt_div_mul_add width (a := bytes.length)
    rw [List.length_drop]
    omega
  refine skip.trans ?_
  rw [firstBelow]
  exact (fill_fails short).bind _

/-- A draw from a tape takes the chunks up to the first that fits. -/
theorem uniform_returns {bytes : Bytes} {k : ℕ} (first : IsLeast (fitting bound bytes) k) :
    (uniform (bound : ℤ)).Returns (⟨bytes⟩ : Tape)
      (candidate bound (chunkAt (byteLength bound) bytes k) : ℤ)
      ⟨bytes.drop ((k + 1) * byteLength bound)⟩ := by
  have positive : 0 < bound := Nat.zero_lt_of_lt first.1.2
  have numbered : k + 1 ≤ (k + 1) * byteLength bound :=
    Nat.le_mul_of_pos_right _ (byteLength_pos positive)
  have patient : k < bytes.length + 1 := by
    have := first.1.1
    omega
  exact uniform_returns_of_firstBelow positive (firstBelow_returns first patient)

/-- A draw from a tape on which no complete chunk fits takes them all and fails. -/
theorem uniform_fails {bytes : Bytes} (positive : 0 < bound) (none : fitting bound bytes = ∅) :
    (uniform (bound : ℤ)).Fails (⟨bytes⟩ : Tape) (.entropy .exhausted)
      ⟨bytes.drop (bytes.length / byteLength bound * byteLength bound)⟩ :=
  uniform_fails_of_firstBelow positive (firstBelow_fails positive none (Nat.lt_succ_self _))

/-- With enough tries for all bytes the number of tries does not show. -/
theorem firstBelow_run_congr {bytes : Bytes} {tries tries' : ℕ} (positive : 0 < bound)
    (patient : bytes.length < tries) (patient' : bytes.length < tries') :
    @Eq (Result ℕ × Tape) ((firstBelow bound tries).run ⟨bytes⟩)
      ((firstBelow bound tries').run ⟨bytes⟩) := by
  rcases (fitting bound bytes).eq_empty_or_nonempty with none | some
  · exact (firstBelow_fails positive none patient).trans
      (firstBelow_fails positive none patient').symm
  · have first : IsLeast (fitting bound bytes) (sInf (fitting bound bytes)) :=
      ⟨Nat.sInf_mem some, fun j hj => Nat.sInf_le hj⟩
    have numbered : sInf (fitting bound bytes) + 1 ≤
        (sInf (fitting bound bytes) + 1) * byteLength bound :=
      Nat.le_mul_of_pos_right _ (byteLength_pos positive)
    have inside := first.1.1
    exact (firstBelow_returns first (by omega)).trans (firstBelow_returns first (by omega)).symm

/-- A chunk that fits in front of a tape is what a draw takes from it. -/
theorem uniform_returns_append {chunk : Bytes} (fits : candidate bound chunk < bound)
    (length : chunk.length = byteLength bound) (rest : Bytes) :
    (uniform (bound : ℤ)).Returns (⟨chunk ++ rest⟩ : Tape) (candidate bound chunk : ℤ) ⟨rest⟩ := by
  have filled := fill_returns chunk rest
  rw [length] at filled
  exact uniform_returns_of_firstBelow (Nat.zero_lt_of_lt fits)
    (BallotMix.firstBelow_returns filled fits _)

/-- A chunk that is refused in front of a tape does not show in what is drawn. -/
theorem firstBelow_run_append (positive : 0 < bound) {chunk : Bytes}
    (refused : bound ≤ candidate bound chunk) (length : chunk.length = byteLength bound)
    (rest : Bytes) : @Eq (Result ℕ × Tape)
      ((firstBelow bound (Source.patience (⟨chunk ++ rest⟩ : Tape))).run ⟨chunk ++ rest⟩)
      ((firstBelow bound (Source.patience (⟨rest⟩ : Tape))).run ⟨rest⟩) := by
  have filled := fill_returns chunk rest
  have width := byteLength_pos positive
  have patience : Source.patience (⟨chunk ++ rest⟩ : Tape) = byteLength bound + rest.length + 1 := by
    show (chunk ++ rest).length + 1 = _
    rw [List.length_append, length]
  rw [length] at filled
  rw [patience]
  exact (firstBelow_run_refused filled refused _).trans
    (firstBelow_run_congr positive (by omega) (Nat.lt_succ_self _))

/-- A draw from a tape with a chunk in front. -/
theorem uniform_returns_append_iff (positive : 0 < bound) {chunk rest : Bytes} {value : ℤ}
    {s : Tape} (length : chunk.length = byteLength bound) :
    (uniform (bound : ℤ)).Returns ⟨chunk ++ rest⟩ value s ↔
      (candidate bound chunk < bound ∧ value = candidate bound chunk ∧ s = ⟨rest⟩) ∨
        (bound ≤ candidate bound chunk ∧ (uniform (bound : ℤ)).Returns ⟨rest⟩ value s) := by
  rcases lt_or_ge (candidate bound chunk) bound with fits | refused
  · have drawn := uniform_returns_append fits length rest
    rw [iff_false_intro (not_le.2 fits : ¬ bound ≤ _), false_and, or_false]
    constructor
    · intro h
      exact ⟨fits, h.unique drawn⟩
    · rintro ⟨-, rfl, rfl⟩
      exact drawn
  · have same := firstBelow_run_append positive refused length rest
    rw [iff_false_intro (not_lt.2 refused : ¬ _ < bound), false_and, false_or]
    constructor
    · intro h
      obtain ⟨n, rfl, drawn⟩ := exists_firstBelow_returns h
      exact ⟨refused, uniform_returns_of_firstBelow positive (same.symm.trans drawn)⟩
    · rintro ⟨-, h⟩
      obtain ⟨n, rfl, drawn⟩ := exists_firstBelow_returns h
      exact uniform_returns_of_firstBelow positive (same.trans drawn)

/-- A draw from a tape that is shorter than one chunk does not return. -/
theorem not_uniform_returns {bytes : Bytes} (positive : 0 < bound)
    (short : bytes.length < byteLength bound) {value : ℤ} {s : Tape} :
    ¬ (uniform (bound : ℤ)).Returns ⟨bytes⟩ value s := by
  have none : fitting bound bytes = ∅ := by
    refine Set.eq_empty_of_forall_notMem fun j fits => ?_
    have numbered := Nat.le_mul_of_pos_left (byteLength bound) (Nat.succ_pos j)
    exact absurd (numbered.trans fits.1) (not_le.2 short)
  exact (uniform_fails positive none).not_returns

end Tape

/-! ## Keystreams -/

namespace Keystream

theorem fill_after (seed : Bytes) (p n : ℕ) :
    (Source.fill n : Draw Keystream Bytes).Returns (after seed p)
      (stretch (sequence (hashBlock seed)) p n) (after seed (p + n)) := by
  obtain ⟨bytes, -⟩ := (at_after seed p).take (length_hashBlock seed) n
  show Keystream.fill n (after seed p) = _
  rw [Keystream.fill, after, after, Cursor.take_add, ← bytes]
  rfl

/-- Whatever a keystream handed out before, a draw takes the chunks up to the first that fits. -/
theorem uniform_returns {seed : Bytes} {p k : ℕ}
    (first : IsLeast {j | candidate bound (stretch (sequence (hashBlock seed))
      (p + j * byteLength bound) (byteLength bound)) < bound} k) :
    (uniform (bound : ℤ)).Returns (after seed p)
      (candidate bound (stretch (sequence (hashBlock seed)) (p + k * byteLength bound)
        (byteLength bound)) : ℤ)
      (after seed (p + (k + 1) * byteLength bound)) := by
  -- Chunks that are as many places apart as the sequence has bytes are the same.
  have patient : k < 32 * UInt32.size := by
    by_contra late
    obtain ⟨j, rfl⟩ := Nat.exists_eq_add_of_le' (not_lt.1 late)
    have fits : candidate bound (stretch (sequence (hashBlock seed))
        (p + (j + 32 * UInt32.size) * byteLength bound) (byteLength bound)) < bound := first.1
    rw [Nat.add_mul, ← Nat.add_assoc, stretch_add_period] at fits
    exact (first.2 fits).not_gt (Nat.lt_add_of_pos_right (by decide))
  have drawn := uniform_returns_first (t := fun j => after seed (p + j * byteLength bound))
    (fun j _ => by
      have filled := fill_after seed (p + j * byteLength bound) (byteLength bound)
      rwa [Nat.add_assoc, ← Nat.succ_mul] at filled) first patient
  rwa [Nat.zero_mul, Nat.add_zero] at drawn

end Keystream

end BallotMix
