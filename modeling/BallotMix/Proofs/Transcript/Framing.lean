import BallotMix.Proofs.Transcript
import Mathlib

/-!
# Reading transcripts back

The length of a label or a value is written as a 32-bit word, so fields whose labels and values are
shorter than `2 ^ 32` bytes (`Field.Short`) can be read off from the front of an encoding, one after
the other, with nothing known about them beforehand.  Two transcripts of such fields have the same
bytes only if they have the same fields, and the bytes of one begin those of the other only if its
fields do (`encode_inj_iff`, `encode_prefix_iff`).

What was added to a transcript is a list of `Addition`s, and the fields are those that the additions
name, one by one (`recorded_eq_ok_iff`).
-/

namespace BallotMix

/-! ## Fields -/

namespace Field

/-- The lengths of label and value fit into the words that are written in front of them. -/
structure Short (f : Field) : Prop where
  label : f.label.length < 2 ^ 32
  value : f.value.length < 2 ^ 32

instance (f : Field) : Decidable f.Short :=
  decidable_of_iff (f.label.length < 2 ^ 32 ∧ f.value.length < 2 ^ 32)
    ⟨fun h => ⟨h.1, h.2⟩, fun h => ⟨h.label, h.value⟩⟩

theorem encode_ne_nil (f : Field) : f.encode ≠ [] := fun empty => by
  have length := f.length_encode
  rw [empty, List.length_nil] at length
  omega

/-- A short field can be read off from the front. -/
theorem Short.eq_of_encode_append {f f' : Field} (short : f.Short) (short' : f'.Short)
    {rest rest' : Bytes} (h : f.encode ++ rest = f'.encode ++ rest') : f = f' ∧ rest = rest' := by
  -- The words come first and give the lengths; with known lengths the field splits off.
  have words := h
  simp only [encode, List.append_assoc] at words
  obtain ⟨labelWord, afterWord⟩ := List.append_inj words (by simp)
  have labels : f.label.length = f'.label.length :=
    Bytes.length_eq_of_length32 short.label short'.label (Bytes.ofUInt32_injective labelWord)
  obtain ⟨-, afterLabel⟩ := List.append_inj afterWord labels
  obtain ⟨valueWord, -⟩ := List.append_inj afterLabel (by simp)
  have values : f.value.length = f'.value.length :=
    Bytes.length_eq_of_length32 short.value short'.value (Bytes.ofUInt32_injective valueWord)
  exact Field.eq_of_encode_append (Prod.ext labels values) h

end Field

namespace Transcript

/-! ## Lists of fields -/

/-- Short fields can be read off one by one, as far as they go. -/
theorem fields_isPrefix_of_encode {fields fields' : List Field} (short : ∀ f ∈ fields, f.Short)
    (short' : ∀ f ∈ fields', f.Short)
    (h : fields.flatMap Field.encode <+: fields'.flatMap Field.encode) : fields <+: fields' := by
  induction fields generalizing fields' with
  | nil => exact List.nil_prefix
  | cons f fields ih =>
    obtain ⟨tail, joined⟩ := h
    rw [List.flatMap_cons, List.append_assoc] at joined
    cases fields' with
    | nil => exact absurd (List.append_eq_nil_iff.1 joined).1 f.encode_ne_nil
    | cons f' fields' =>
      rw [List.flatMap_cons] at joined
      rw [List.forall_mem_cons] at short short'
      obtain ⟨rfl, rest⟩ := short.1.eq_of_encode_append short'.1 joined
      exact (List.prefix_cons_inj f).2 (ih short.2 short'.2 ⟨tail, rest⟩)

/-- All fields are short. -/
def Short (t : Transcript) : Prop := ∀ f ∈ t.fields, f.Short

instance (t : Transcript) : Decidable t.Short :=
  inferInstanceAs (Decidable (∀ f ∈ t.fields, f.Short))

theorem encode_prefix_iff {t t' : Transcript} (short : t.Short) (short' : t'.Short) :
    t.encode <+: t'.encode ↔ t.fields <+: t'.fields := by
  refine ⟨fields_isPrefix_of_encode short short', ?_⟩
  rintro ⟨more, joined⟩
  exact ⟨more.flatMap Field.encode, by rw [encode, encode, ← joined, List.flatMap_append]⟩

theorem encode_inj_iff {t t' : Transcript} (short : t.Short) (short' : t'.Short) :
    t.encode = t'.encode ↔ t.fields = t'.fields := by
  constructor
  · intro same
    have front := (encode_prefix_iff short short').1 (by rw [same])
    have back := (encode_prefix_iff short' short).1 (by rw [same])
    exact front.eq_of_length (le_antisymm front.length_le back.length_le)
  · intro same
    rw [encode, encode, same]

end Transcript

/-! ## Additions -/

/-- One thing that is added to a transcript. -/
inductive Addition
  /-- A byte string or a text. -/
  | bytes (label value : Bytes)
  | word (label : Bytes) (value : UInt64)
  | element (G : Group) (label : Bytes) (x : ℤ)
  | elements (G : Group) (label : Bytes) (xs : List ℤ)
  | group (G : Group)

namespace Addition

open Recorder Transcript

/-- How the addition is made. -/
def record : Addition → Recorder Unit
  | bytes label value => append label value
  | word label value => appendWord label value
  | element G label x => appendElement G label x
  | elements G label xs => appendElements G label xs
  | group G => appendGroup G

/-- Whether all numbers can be written at their width. -/
def Fits : Addition → Prop
  | bytes _ _ | word _ _ => True
  | element G _ x => Transcript.Fits G x
  | elements G _ xs => ∀ x ∈ xs, Transcript.Fits G x
  | group G => Transcript.Fits G G.p ∧ Transcript.Fits G G.g

/-- The labelled values that are added, in order. -/
def fields : Addition → List Field
  | bytes label value => [⟨label, value⟩]
  | word label value => [⟨label, Bytes.ofUInt64 value⟩]
  | element G label x => [elementField G label x]
  | elements G label xs => elementFields G label xs
  | group G =>
    [elementField G (Bytes.ofText "p") G.p, elementField G (Bytes.ofText "g") G.g]

theorem addsIf_record (a : Addition) : AddsIf a.Fits a.record a.fields := by
  cases a with
  | bytes label value => exact addsIf_append label value
  | word label value => exact addsIf_append label (Bytes.ofUInt64 value)
  | element G label x => exact addsIf_element G label x
  | elements G label xs => exact addsIf_elements G label xs
  | group G =>
    have modulus := addsIf_element G (Bytes.ofText "p") G.p
    exact modulus.andThen (addsIf_element G (Bytes.ofText "g") G.g)

/-- The transcript of a domain after the additions. -/
def recorded (domain : Bytes) (as : List Addition) : Result Transcript :=
  (start domain).extend (as.forM record)

/-- What was said: the domain, then field by field what was added. -/
def said (domain : Bytes) (as : List Addition) : List Field :=
  ⟨Bytes.ofText "domain", domain⟩ :: as.flatMap fields

/-- The additions can be made if all numbers fit, and then the transcript holds what was said. -/
theorem recorded_eq_ok_iff {domain : Bytes} {as : List Addition} {T : Transcript} :
    recorded domain as = .ok T ↔ (∀ a ∈ as, a.Fits) ∧ T = ⟨said domain as⟩ :=
  extend_eq_ok_iff.trans (addsIf_forM addsIf_record as (start domain) T)

end Addition

end BallotMix
