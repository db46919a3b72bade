import BallotMix.Proofs.Formed
import BallotMix.Proofs.Transcript
import BallotMix.Wire.Reader
import BallotMix.Wire.Writer
import Mathlib

/-!
# Pieces of blobs

A blob is put together from pieces: counts, elements, scalars, and lists of these.  A writer `Adds`
the piece of a value to whatever was written before.  A reader `Takes` the pieces of its values: it
returns exactly if a piece of a value that fits stands in front, and leaves what follows it.
-/

namespace BallotMix.Wire

/-! ## Writers -/

namespace Writer

/-- The writer succeeds and adds the bytes. -/
def Adds (writer : Writer Unit) (piece : Bytes) : Prop :=
  ∀ written : Bytes, Draw.Returns writer written () (written ++ piece)

variable {writer first second : Writer Unit} {piece piece' : Bytes}

theorem Adds.andThen (h : Adds first piece) (h' : Adds second piece') :
    Adds (first >>= fun _ => second) (piece ++ piece') := by
  intro written
  refine Draw.returns_bind_iff.2 ⟨(), _, h written, ?_⟩
  rw [← List.append_assoc]
  exact h' (written ++ piece)

theorem adds_forM {α : Type} {f : α → Writer Unit} {p : α → Bytes} {xs : List α}
    (h : ∀ x ∈ xs, Adds (f x) (p x)) : Adds (xs.forM f) (xs.flatMap p) := by
  induction xs with
  | nil => exact fun written => Draw.returns_pure_iff.2 ⟨rfl, (List.append_nil written).symm⟩
  | cons x xs ih =>
    rw [List.flatMap_cons]
    exact (h x List.mem_cons_self).andThen (ih fun y hy => h y (List.mem_cons_of_mem x hy))

/-- The blob of a writer that adds a piece is the piece. -/
theorem Adds.blob_eq (h : Adds writer piece) : writer.blob = .ok piece := by
  have run : @Eq (Result Unit × Bytes) (writer.run []) (.ok (), piece) := h []
  unfold blob
  rw [show writer.run [] = _ from run]

theorem adds_bytes (piece : Bytes) : Adds (bytes piece) piece := fun _ => rfl

theorem adds_word (w : UInt32) : Adds (word w) (Bytes.ofUInt32 w) := adds_bytes _

end Writer

/-! ## Readers -/

namespace Reader

/-- The reader returns a value exactly if it fits and its piece stands in front, and takes the
piece. -/
structure Takes {α : Type} (reader : Reader α) (Fits : α → Prop) (piece : α → Bytes) : Prop where
  returns_iff : ∀ {data rest : Bytes} {a : α},
    Draw.Returns reader data a rest ↔ Fits a ∧ data = piece a ++ rest

theorem returns_take_iff {n : ℕ} {data rest chunk : Bytes} :
    Draw.Returns (take n) data chunk rest ↔ chunk.length = n ∧ data = chunk ++ rest := by
  simp only [take, ExceptT.bind_throw, Draw.returns_bind_iff, Draw.returns_get_iff,
    Draw.returns_ite_throw_iff, Draw.returns_set_iff, Draw.returns_pure_iff]
  constructor
  · rintro ⟨_, _, ⟨rfl, rfl⟩, enough, _, _, rfl, rfl, rfl⟩
    exact ⟨List.length_take_of_le (by omega), (List.take_append_drop n _).symm⟩
  · rintro ⟨rfl, rfl⟩
    refine ⟨_, _, ⟨rfl, rfl⟩, by simp, (), _, rfl, by simp, by simp⟩

theorem returns_finish_iff {data rest : Bytes} {u : Unit} :
    Draw.Returns finish data u rest ↔ data = [] ∧ rest = [] := by
  simp only [finish, Draw.returns_bind_iff, Draw.returns_get_iff, Draw.returns_ite_throw_iff,
    Draw.returns_pure_iff]
  constructor
  · rintro ⟨_, _, ⟨rfl, rfl⟩, empty, -, rfl⟩
    simpa using empty
  · rintro ⟨rfl, rfl⟩
    exact ⟨_, _, ⟨rfl, rfl⟩, by simp, trivial, rfl⟩

/-- A whole blob is read by a run that leaves nothing. -/
theorem whole_eq_ok_iff {α : Type} {reader : Reader α} {data : Bytes} {a : α} :
    reader.whole data = .ok a ↔ Draw.Returns reader data a [] := by
  refine Draw.run_eq_ok_iff.trans ?_
  simp only [Draw.returns_bind_iff, returns_finish_iff, Draw.returns_pure_iff]
  constructor
  · rintro ⟨_, _, _, run, _, _, ⟨rfl, rfl⟩, rfl, rfl⟩
    exact run
  · intro run
    exact ⟨[], a, [], run, (), [], ⟨rfl, rfl⟩, rfl, rfl⟩

/-- Readers of lists take the pieces of the entries one after the other. -/
theorem Takes.times {α : Type} {reader : Reader α} {Fits : α → Prop} {piece : α → Bytes}
    (h : Takes reader Fits piece) (n : ℕ) :
    Takes (times n reader) (fun xs => xs.length = n ∧ ∀ x ∈ xs, Fits x)
      (fun xs => xs.flatMap piece) := by
  induction n with
  | zero =>
    refine ⟨fun {data rest xs} => ?_⟩
    rw [Reader.times, Draw.returns_pure_iff]
    constructor
    · rintro ⟨rfl, rfl⟩
      exact ⟨⟨rfl, by simp⟩, rfl⟩
    · rintro ⟨⟨empty, -⟩, rfl⟩
      rw [List.length_eq_zero_iff.1 empty]
      exact ⟨rfl, rfl⟩
  | succ n ih =>
    refine ⟨fun {data rest xs} => ?_⟩
    simp only [Reader.times, Draw.returns_bind_iff, h.returns_iff, ih.returns_iff,
      Draw.returns_pure_iff]
    constructor
    · rintro ⟨x, _, ⟨hx, rfl⟩, others, _, ⟨⟨rfl, all⟩, rfl⟩, rfl, rfl⟩
      exact ⟨⟨rfl, List.forall_mem_cons.2 ⟨hx, all⟩⟩, by simp⟩
    · rintro ⟨⟨length, all⟩, rfl⟩
      obtain ⟨x, others, rfl⟩ := List.exists_cons_of_length_eq_add_one length
      obtain ⟨hx, rest⟩ := List.forall_mem_cons.1 all
      exact ⟨x, _, ⟨hx, by simp⟩, others, _, ⟨⟨Nat.succ.inj length, rest⟩, rfl⟩, rfl, rfl⟩

/-! ## Numbers -/

/-- The bytes of a length that spell a number are the number at this width. -/
theorem spells_iff {width n : ℕ} {chunk : Bytes} :
    chunk.length = width ∧ Bytes.toNat chunk = n ↔
      n < 256 ^ width ∧ chunk = Bytes.ofNat width n := by
  constructor
  · rintro ⟨rfl, rfl⟩
    exact ⟨Bytes.toNat_lt chunk, (Bytes.ofNat_toNat chunk).symm⟩
  · rintro ⟨small, rfl⟩
    exact ⟨Bytes.length_ofNat width n, by rw [Bytes.toNat_ofNat, Nat.mod_eq_of_lt small]⟩

theorem word_takes : Takes word (fun _ => True) Bytes.ofUInt32 := by
  refine ⟨fun {data rest w} => ?_⟩
  simp only [word, Draw.returns_bind_iff, returns_take_iff, Draw.returns_pure_iff, true_and]
  constructor
  · rintro ⟨chunk, _, ⟨length, rfl⟩, rfl, rfl⟩
    obtain ⟨small, spelled⟩ := spells_iff.1 ⟨length, rfl⟩
    have number : (UInt32.ofNat (Bytes.toNat chunk)).toNat = Bytes.toNat chunk :=
      UInt32.toNat_ofNat_of_lt' small
    rw [Bytes.ofUInt32, number, ← spelled]
  · rintro rfl
    have small : w.toNat < 256 ^ 4 := w.toNat_lt
    obtain ⟨length, number⟩ := spells_iff.2 ⟨small, rfl⟩
    exact ⟨_, _, ⟨length, rfl⟩, by rw [number, UInt32.ofNat_toNat], rfl⟩

/-- A reader that takes a number of fixed width, which has to fit. -/
theorem number_takes {width : ℕ} {reader : Reader ℤ} {Fits : ℤ → Prop}
    (read : ∀ data x rest, Draw.Returns reader data x rest ↔
      ∃ chunk, (chunk.length = width ∧ data = chunk ++ rest) ∧
        Fits (Bytes.toNat chunk) ∧ x = Bytes.toNat chunk)
    (bounds : ∀ x, Fits x → 0 ≤ x ∧ x.natAbs < 256 ^ width) :
    Takes reader Fits (fun x => Bytes.ofNat width x.natAbs) := by
  refine ⟨fun {data rest x} => (read data x rest).trans ?_⟩
  constructor
  · rintro ⟨chunk, ⟨length, rfl⟩, fits, rfl⟩
    obtain ⟨-, spelled⟩ := spells_iff.1 ⟨length, rfl⟩
    exact ⟨fits, by rw [Int.natAbs_natCast, ← spelled]⟩
  · rintro ⟨fits, rfl⟩
    obtain ⟨nonneg, small⟩ := bounds x fits
    obtain ⟨length, number⟩ := spells_iff.2 ⟨small, rfl⟩
    have same : x = Bytes.toNat (Bytes.ofNat width x.natAbs) := by
      rw [number, Int.natAbs_of_nonneg nonneg]
    exact ⟨_, ⟨length, rfl⟩, by rwa [← same], same⟩

end Reader

/-! ## Elements and scalars -/

variable (G : Group)

/-- An element at the width of the modulus. -/
def elementPiece (x : Option ℤ) : Bytes := Bytes.ofNat G.elementBytes (x.getD 0).natAbs

/-- A scalar at the width of the order. -/
def scalarPiece (s : Option ℤ) : Bytes := Bytes.ofNat G.scalarBytes (s.getD 0).natAbs

/-- Elements behind their count. -/
def elementsPiece (xs : List (Option ℤ)) : Bytes :=
  Bytes.ofUInt32 (UInt32.ofNat xs.length) ++ xs.flatMap (elementPiece G)

@[simp]
theorem length_elementPiece (x : Option ℤ) : (elementPiece G x).length = G.elementBytes :=
  Bytes.length_ofNat _ _

@[simp]
theorem length_scalarPiece (s : Option ℤ) : (scalarPiece G s).length = G.scalarBytes :=
  Bytes.length_ofNat _ _

theorem length_flatMap_elementPiece (xs : List (Option ℤ)) :
    (xs.flatMap (elementPiece G)).length = xs.length * G.elementBytes := by
  simp [List.length_flatMap]

theorem length_flatMap_scalarPiece (ss : List (Option ℤ)) :
    (ss.flatMap (scalarPiece G)).length = ss.length * G.scalarBytes := by
  simp [List.length_flatMap]

variable {G}

theorem element_bounds {x : ℤ} (h : G.isMember (some x) = true) :
    0 ≤ x ∧ x.natAbs < 256 ^ G.elementBytes := by
  obtain ⟨v, hv, positive, small, -⟩ := G.exists_of_isMember h
  obtain rfl := Option.some.inj hv
  exact ⟨positive.le, Transcript.fits_of_le G positive.le small.le⟩

theorem scalar_bounds {s : ℤ} (h : G.isScalar (some s) = true) :
    0 ≤ s ∧ s.natAbs < 256 ^ G.scalarBytes := by
  obtain ⟨v, hv, nonneg, small⟩ := Group.isScalar_iff_bounds.1 h
  obtain rfl := Option.some.inj hv
  have order := (Number.byteLength_le_iff G.q G.scalarBytes).1 le_rfl
  exact ⟨nonneg, by omega⟩

/-- Any residue of the modulus is written, be it a member or not. -/
theorem adds_element {x : Option ℤ} (h : G.IsResidue x) :
    (Writer.element G x).Adds (elementPiece G x) := by
  obtain ⟨v, rfl, nonneg, small⟩ := h
  intro written
  simp only [Writer.element, Draw.returns_bind_iff, Draw.returns_liftM_iff, present_some]
  have written_bytes := Number.toBytes_of_lt (Transcript.fits_of_le G nonneg small.le)
  exact ⟨v, _, ⟨rfl, rfl⟩, _, _, ⟨written_bytes, rfl⟩, Writer.adds_bytes _ written⟩

theorem adds_scalar {s : Option ℤ} (h : G.isScalar s = true) :
    (Writer.scalar G s).Adds (scalarPiece G s) := by
  obtain ⟨v, rfl, -⟩ := Group.isScalar_iff_bounds.1 h
  intro written
  simp only [Writer.scalar, Draw.returns_bind_iff, Draw.returns_liftM_iff, present_some]
  have written_bytes := Number.toBytes_of_lt (scalar_bounds h).2
  exact ⟨v, _, ⟨rfl, rfl⟩, _, _, ⟨written_bytes, rfl⟩, Writer.adds_bytes _ written⟩

theorem adds_forM_element {xs : List (Option ℤ)} (h : G.Residues xs) :
    Writer.Adds (xs.forM (Writer.element G)) (xs.flatMap (elementPiece G)) :=
  Writer.adds_forM fun x hx => adds_element (h x hx)

theorem adds_forM_scalar {ss : List (Option ℤ)} (h : G.Scalars ss) :
    Writer.Adds (ss.forM (Writer.scalar G)) (ss.flatMap (scalarPiece G)) :=
  Writer.adds_forM fun s hs => adds_scalar (Group.scalars_iff.1 h s hs)

theorem adds_elements {xs : List (Option ℤ)} (h : G.Residues xs) :
    (Writer.elements G xs).Adds (elementsPiece G xs) :=
  (Writer.adds_word _).andThen (adds_forM_element h)

theorem element_takes :
    (Reader.element G).Takes (fun x => G.isMember (some x) = true)
      (fun x => elementPiece G (some x)) := by
  refine Reader.number_takes (fun data x rest => ?_) fun x => element_bounds
  simp only [Reader.element, Draw.returns_bind_iff, Reader.returns_take_iff,
    Draw.returns_liftM_iff, G.ensureMember_eq_ok_iff, Option.some.injEq]
  constructor
  · rintro ⟨chunk, _, taken, ⟨member, rfl⟩, rfl⟩
    exact ⟨chunk, taken, member, rfl⟩
  · rintro ⟨chunk, taken, member, rfl⟩
    exact ⟨chunk, rest, taken, ⟨member, rfl⟩, rfl⟩

theorem scalar_takes :
    (Reader.scalar G).Takes (fun s => G.isScalar (some s) = true)
      (fun s => scalarPiece G (some s)) := by
  refine Reader.number_takes (fun data x rest => ?_) fun x => scalar_bounds
  simp only [Reader.scalar, ExceptT.bind_throw, Draw.returns_bind_iff, Reader.returns_take_iff,
    Draw.returns_ite_throw_iff, Draw.returns_pure_iff, Bool.not_eq_true', Bool.not_eq_false]
  constructor
  · rintro ⟨chunk, _, taken, scalar, rfl, rfl⟩
    exact ⟨chunk, taken, scalar, rfl⟩
  · rintro ⟨chunk, taken, scalar, rfl⟩
    exact ⟨chunk, rest, taken, scalar, rfl, rfl⟩

/-! ## Counts -/

theorem count_iff {w : UInt32} {n : ℕ} : n = w.toNat ↔ n < 2 ^ 32 ∧ w = UInt32.ofNat n := by
  constructor
  · rintro rfl
    exact ⟨w.toNat_lt, UInt32.ofNat_toNat.symm⟩
  · rintro ⟨small, rfl⟩
    exact (UInt32.toNat_ofNat_of_lt' small).symm

theorem elementBytes_pos [accepted : G.Accepted] : 0 < G.elementBytes := by
  by_contra none
  have small := (Number.byteLength_le_iff G.p 0).1 (by rw [Group.elementBytes] at none; omega)
  have positive := accepted.prime_modulus.pos
  omega

theorem elements_takes [G.Accepted] :
    (Reader.elements G).Takes
      (fun xs => xs.length < 2 ^ 32 ∧ ∀ x ∈ xs, G.isMember (some x) = true)
      (fun xs => elementsPiece G (xs.map some)) := by
  refine ⟨fun {data rest xs} => ?_⟩
  simp only [Reader.elements, ExceptT.bind_throw, Draw.returns_bind_iff, Draw.returns_get_iff,
    Draw.returns_ite_throw_iff, Reader.word_takes.returns_iff,
    (element_takes.times _).returns_iff, elementsPiece, List.length_map, List.flatMap_map]
  constructor
  · rintro ⟨w, _, ⟨-, rfl⟩, _, _, ⟨rfl, rfl⟩, -, ⟨length, members⟩, rfl⟩
    obtain ⟨small, rfl⟩ := count_iff.1 length
    exact ⟨⟨small, members⟩, by rw [List.append_assoc]⟩
  · rintro ⟨⟨small, members⟩, rfl⟩
    have count := count_iff.2 ⟨small, rfl⟩
    refine ⟨_, _, ⟨trivial, List.append_assoc _ _ _⟩, _, _, ⟨rfl, rfl⟩, ?_, ⟨count, members⟩, rfl⟩
    have size := length_flatMap_elementPiece G (xs.map some)
    rw [List.flatMap_map, List.length_map] at size
    rw [not_lt, ← count, Nat.le_div_iff_mul_le elementBytes_pos, List.length_append, size]
    exact Nat.le_add_right _ _

end BallotMix.Wire
