import BallotMix.Proofs.Group.Exponents
import BallotMix.Transcript
import Mathlib

/-!
# What transcripts record

`Adds` says which fields a recording adds, whatever was said before, and `AddsIf` when it succeeds.
Numbers below the power of 256 of the width of elements can be recorded, members among them, and
then the challenge of a transcript is always a scalar.  Two lists of fields of the same lengths have
the same bytes only if they are the same (`fields_eq_of_encode`), and at most one value of unknown
length may stand among them (`eq_of_encode_of_shape`).  A list of members can be read off from its
fields up to the first with another label (`eq_of_elementFields_append`).
-/

namespace BallotMix

namespace Recorder

/-- The recording succeeds and adds the listed fields. -/
def Adds (more : Recorder Unit) (fields : List Field) : Prop :=
  ∀ t : Transcript, Draw.Returns more t () ⟨t.fields ++ fields⟩

theorem Adds.andThen {first second : Recorder Unit} {fields others : List Field}
    (h₁ : Adds first fields) (h₂ : Adds second others) :
    Adds (first >>= fun _ => second) (fields ++ others) := by
  intro t
  refine Draw.returns_bind_iff.2 ⟨(), _, h₁ t, ?_⟩
  have := h₂ ⟨t.fields ++ fields⟩
  rwa [List.append_assoc] at this

/-- The recording gives a value and adds nothing. -/
def Gives {α : Type} (x : Recorder α) (a : α) : Prop := ∀ t : Transcript, Draw.Returns x t a t

theorem gives_liftM {α : Type} {x : Result α} {a : α} (h : x = .ok a) :
    Gives (liftM x : Recorder α) a := fun _ => Draw.returns_liftM_iff.2 ⟨h, rfl⟩

theorem gives_mapM {α β : Type} {f : α → Recorder β} {g : α → β} {xs : List α}
    (h : ∀ x ∈ xs, Gives (f x) (g x)) : Gives (xs.mapM f) (xs.map g) := by
  induction xs with
  | nil => exact fun t => Draw.returns_pure_iff.2 ⟨rfl, rfl⟩
  | cons x xs ih =>
    intro t
    have rest := ih (fun y hy => h y (List.mem_cons_of_mem x hy)) t
    rw [List.mapM_cons]
    refine Draw.returns_bind_iff.2 ⟨_, t, h x List.mem_cons_self t, ?_⟩
    exact Draw.returns_bind_iff.2 ⟨_, t, rest, Draw.returns_pure_iff.2 ⟨rfl, rfl⟩⟩

theorem Adds.given {α : Type} {x : Recorder α} {a : α} (hx : Gives x a) {more : α → Recorder Unit}
    {fields : List Field} (h : Adds (more a) fields) : Adds (x >>= more) fields := fun t =>
  Draw.returns_bind_iff.2 ⟨a, t, hx t, h t⟩

theorem extend_eq_ok_iff {t t' : Transcript} {more : Recorder Unit} :
    t.extend more = .ok t' ↔ Draw.Returns more t () t' := by
  unfold Transcript.extend Draw.Returns
  rcases (more.run t : Result Unit × Transcript) with ⟨_ | _, _⟩ <;> simp

theorem Adds.extend {more : Recorder Unit} {fields : List Field} (h : Adds more fields)
    (t : Transcript) : t.extend more = .ok ⟨t.fields ++ fields⟩ := extend_eq_ok_iff.2 (h t)

/-- The recording succeeds if the condition holds, and then it adds the listed fields. -/
def AddsIf (condition : Prop) (more : Recorder Unit) (fields : List Field) : Prop :=
  ∀ t t' : Transcript, Draw.Returns more t () t' ↔ condition ∧ t' = ⟨t.fields ++ fields⟩

theorem AddsIf.adds {p : Prop} {more : Recorder Unit} {fields : List Field}
    (h : AddsIf p more fields) (hp : p) : Adds more fields := fun t => (h t _).2 ⟨hp, rfl⟩

theorem AddsIf.andThen {p q : Prop} {first second : Recorder Unit} {fields others : List Field}
    (h₁ : AddsIf p first fields) (h₂ : AddsIf q second others) :
    AddsIf (p ∧ q) (first >>= fun _ => second) (fields ++ others) := by
  intro t t'
  simp only [Draw.returns_bind_iff, h₁ t, h₂ _ t']
  constructor
  · rintro ⟨_, _, ⟨hp, rfl⟩, hq, rfl⟩
    exact ⟨⟨hp, hq⟩, by rw [List.append_assoc]⟩
  · rintro ⟨⟨hp, hq⟩, rfl⟩
    exact ⟨(), _, ⟨hp, rfl⟩, hq, by rw [List.append_assoc]⟩

/-- A list of recordings adds what each of them adds. -/
theorem addsIf_forM {α : Type} {p : α → Prop} {f : α → Recorder Unit} {g : α → List Field}
    (h : ∀ x, AddsIf (p x) (f x) (g x)) (xs : List α) :
    AddsIf (∀ x ∈ xs, p x) (xs.forM f) (xs.flatMap g) := by
  induction xs with
  | nil =>
    intro t t'
    refine Draw.returns_pure_iff.trans ?_
    simpa using eq_comm
  | cons x xs ih =>
    simp only [List.forall_mem_cons]
    exact (h x).andThen ih

end Recorder

/-! ## What the bytes determine -/

namespace Field

/-- The lengths of the label and of the value. -/
def shape (f : Field) : ℕ × ℕ := (f.label.length, f.value.length)

theorem length_encode (f : Field) : f.encode.length = 8 + f.shape.1 + f.shape.2 := by
  simp only [encode, shape, List.length_append, Bytes.length_ofUInt32]
  omega

/-- A field of known lengths can be read off from the front. -/
theorem eq_of_encode_append {f f' : Field} (same : f.shape = f'.shape) {rest rest' : Bytes}
    (h : f.encode ++ rest = f'.encode ++ rest') : f = f' ∧ rest = rest' := by
  obtain ⟨label, value⟩ := f
  obtain ⟨label', value'⟩ := f'
  obtain ⟨labels, values⟩ : label.length = label'.length ∧ value.length = value'.length :=
    Prod.mk.inj same
  simp only [encode, List.append_assoc] at h
  have afterSize := (List.append_inj h (by simp)).2
  obtain ⟨rfl, afterLabel⟩ := List.append_inj afterSize labels
  have afterSize' := (List.append_inj afterLabel (by simp)).2
  obtain ⟨rfl, rfl⟩ := List.append_inj afterSize' values
  exact ⟨rfl, rfl⟩

end Field

namespace Transcript

open Recorder

/-- Fields of known lengths are determined by their bytes. -/
theorem fields_eq_of_encode {fields fields' : List Field}
    (same : fields.map Field.shape = fields'.map Field.shape)
    (h : fields.flatMap Field.encode = fields'.flatMap Field.encode) : fields = fields' := by
  induction fields generalizing fields' with
  | nil => exact (List.map_eq_nil_iff.1 same.symm).symm
  | cons f fields ih =>
    cases fields' with
    | nil => cases same
    | cons f' fields' =>
      rw [List.map_cons, List.map_cons, List.cons.injEq] at same
      rw [List.flatMap_cons, List.flatMap_cons] at h
      obtain ⟨rfl, rest⟩ := Field.eq_of_encode_append same.1 h
      rw [ih same.2 rest]

theorem length_flatMap_encode (fields : List Field) :
    (fields.flatMap Field.encode).length
      = ((fields.map Field.shape).map fun s => 8 + s.1 + s.2).sum := by
  rw [List.length_flatMap, List.map_map]
  exact congrArg List.sum (List.map_congr_left fun f _ => f.length_encode)

/-- A value of unknown length between fields of known lengths is determined by the bytes, and so are
the fields. -/
theorem eq_of_encode_of_shape {before after after' : List Field} {label value value' : Bytes}
    (same : after.map Field.shape = after'.map Field.shape)
    (h : (before ++ ⟨label, value⟩ :: after).flatMap Field.encode
      = (before ++ ⟨label, value'⟩ :: after').flatMap Field.encode) :
    value = value' ∧ after = after' := by
  rw [List.flatMap_append, List.flatMap_append, List.append_cancel_left_eq, List.flatMap_cons,
    List.flatMap_cons] at h
  obtain ⟨front, rest⟩ := List.append_inj' h (by
    rw [length_flatMap_encode, length_flatMap_encode, same])
  simp only [Field.encode, List.append_assoc, List.append_cancel_left_eq] at front
  exact ⟨(List.append_inj front (by simp)).2, fields_eq_of_encode same rest⟩

/-! ## Adding values -/

theorem addsIf_append (label value : Bytes) :
    AddsIf True (append label value) [⟨label, value⟩] := by
  intro t t'
  rw [true_and, eq_comm]
  show ((Except.ok (), t.push label value) : Result Unit × Transcript) = (.ok (), t') ↔ _
  simp [push]

/-! ## Elements -/

variable (G : Group)

/-- Whether a number can be recorded at the width of elements. -/
def Fits (x : ℤ) : Prop := x.natAbs < 256 ^ G.elementBytes

/-- The field of a number at the width of elements. -/
def elementField (label : Bytes) (x : ℤ) : Field := ⟨label, Bytes.ofNat G.elementBytes x.natAbs⟩

/-- The fields of a list of numbers. -/
def elementFields (label : Bytes) (xs : List ℤ) : List Field :=
  ⟨label ++ Bytes.ofText ".len", Bytes.ofUInt64 (UInt64.ofNat xs.length)⟩ ::
    xs.map (elementField G label)

theorem addsIf_element (label : Bytes) (x : ℤ) :
    AddsIf (Fits G x) (appendElement G label x) [elementField G label x] := by
  intro t t'
  simp only [appendElement, Draw.returns_bind_iff, Draw.returns_liftM_iff, addsIf_append _ _ _ t',
    Number.toBytes_eq_ok_iff]
  constructor
  · rintro ⟨_, _, ⟨⟨fits, rfl⟩, rfl⟩, -, rfl⟩
    exact ⟨fits, rfl⟩
  · rintro ⟨fits, rfl⟩
    exact ⟨_, t, ⟨⟨fits, rfl⟩, rfl⟩, trivial, rfl⟩

theorem addsIf_elements (label : Bytes) (xs : List ℤ) :
    AddsIf (∀ x ∈ xs, Fits G x) (appendElements G label xs) (elementFields G label xs) := by
  have size := addsIf_append (label ++ Bytes.ofText ".len")
    (Bytes.ofUInt64 (UInt64.ofNat xs.length))
  have body := size.andThen (addsIf_forM (addsIf_element G label) xs)
  rwa [true_and, ← List.map_eq_flatMap] at body

theorem adds_element {x : ℤ} (hx : Fits G x) (label : Bytes) :
    Adds (appendElement G label x) [elementField G label x] := (addsIf_element G label x).adds hx

theorem adds_elements {xs : List ℤ} (h : ∀ x ∈ xs, Fits G x) (label : Bytes) :
    Adds (appendElements G label xs) (elementFields G label xs) :=
  (addsIf_elements G label xs).adds h

theorem fits_of_le {x : ℤ} (nonneg : 0 ≤ x) (small : x ≤ G.p) : Fits G x := by
  have := (Number.byteLength_le_iff G.p G.elementBytes).1 le_rfl
  have : x.natAbs ≤ G.p := by omega
  exact lt_of_le_of_lt this (by assumption)

theorem shape_elementField (label : Bytes) (x : ℤ) :
    (elementField G label x).shape = (label.length, G.elementBytes) := by
  simp [elementField, Field.shape]

/-- The lengths of the fields of a list depend on how many numbers there are. -/
theorem map_shape_elementFields (label : Bytes) (xs : List ℤ) :
    (elementFields G label xs).map Field.shape
      = ((label ++ Bytes.ofText ".len").length, 8) ::
        List.replicate xs.length (label.length, G.elementBytes) := by
  rw [elementFields, List.map_cons, List.map_map, Field.shape, Bytes.length_ofUInt64]
  congr 1
  rw [List.eq_replicate_iff]
  simp [shape_elementField]

variable [accepted : G.Accepted]

theorem fits_element (a : ZMod G.q) : Fits G (G.element a) :=
  fits_of_le G (G.element_bounds a).1.le (G.element_bounds a).2.le

theorem fits_elements (as : List (ZMod G.q)) : ∀ x ∈ as.map G.element, Fits G x := by
  intro x hx
  obtain ⟨a, -, rfl⟩ := List.mem_map.1 hx
  exact fits_element G a

theorem adds_group : Adds (appendGroup G)
    [elementField G (Bytes.ofText "p") G.p, elementField G (Bytes.ofText "g") G.g] := by
  have first := adds_element G (fits_of_le G (Int.natCast_nonneg G.p) le_rfl) (Bytes.ofText "p")
  refine Adds.andThen first (adds_element G ?_ _)
  rw [G.generator_eq_element]
  exact fits_element G 1

/-- A member can be read off from its field. -/
theorem elementField_inj {label : Bytes} {a b : ZMod G.q} :
    elementField G label (G.element a) = elementField G label (G.element b) ↔ a = b := by
  refine ⟨fun same => ?_, fun same => by rw [same]⟩
  have value := Bytes.eq_of_ofNat_eq (fits_element G a) (fits_element G b)
    (congrArg Field.value same)
  have bounds := G.element_bounds a
  have bounds' := G.element_bounds b
  exact G.element_injective (by omega)

theorem elementFields_inj {label : Bytes} {as bs : List (ZMod G.q)} :
    elementFields G label (as.map G.element) = elementFields G label (bs.map G.element)
      ↔ as = bs := by
  refine ⟨fun same => ?_, fun same => by rw [same]⟩
  rw [elementFields, elementFields, List.cons.injEq, List.map_map, List.map_map] at same
  have injective : Function.Injective (elementField G label ∘ G.element) :=
    fun _ _ => (elementField_inj G).1
  exact injective.list_map same.2

/-- What follows a list does not look like another of its elements. -/
def EndsList (label : Bytes) (rest : List Field) : Prop := ∀ f ∈ rest.head?, f.label ≠ label

omit accepted in
theorem endsList_elementFields {label other : Bytes} (differ : other ++ Bytes.ofText ".len" ≠ label)
    (xs : List ℤ) (rest : List Field) : EndsList label (elementFields G other xs ++ rest) := by
  rintro f ⟨⟩
  exact differ

/-- A list of members can be read off from the front, whatever its length. -/
theorem eq_of_elementFields_append {label : Bytes} {as bs : List (ZMod G.q)}
    {rest rest' : List Field} (ends : EndsList label rest) (ends' : EndsList label rest')
    (h : elementFields G label (as.map G.element) ++ rest
      = elementFields G label (bs.map G.element) ++ rest') : as = bs ∧ rest = rest' := by
  -- The count in front is not used: where one list ends, the next label tells, so that no bound on
  -- the lengths is needed.
  replace h := (List.cons.inj h).2
  induction as generalizing bs with
  | nil =>
    cases bs with
    | nil => exact ⟨rfl, h⟩
    | cons b bs =>
      obtain rfl : rest = _ := h
      exact absurd rfl (ends _ rfl)
  | cons a as ih =>
    cases bs with
    | nil =>
      obtain rfl : _ = rest' := h
      exact absurd rfl (ends' _ rfl)
    | cons b bs =>
      obtain ⟨first, others⟩ := List.cons.inj h
      obtain rfl := (elementField_inj G).1 first
      obtain ⟨rfl, rest⟩ := ih others
      exact ⟨rfl, rest⟩

/-! ## Challenges -/

theorem exists_scalarOfDigest (digest : Bytes) :
    ∃ c, scalarOfDigest G digest = .ok (G.scalar c) :=
  ⟨_, G.toScalar_eq _⟩

theorem exists_challenge (t : Transcript) : ∃ c, t.challenge G = .ok (G.scalar c) :=
  exists_scalarOfDigest G _

end Transcript

end BallotMix
