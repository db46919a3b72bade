import BallotMix.Bytes.Lemmas
import BallotMix.Hex
import BallotMix.Number.Lemmas
import BallotMix.Proofs.Computation
import Mathlib

/-!
# Hexadecimal text is read back

The sixteen digits of either case are read as their places, so two of them are read as the byte that
they were written for.  A byte string keeps its leading zeros (`bytes_ofBytes`); a number is written
without them, but with both digits of its first byte, and zero as one digit (`number_ofNumber`).
-/

namespace BallotMix.Hex

/-! ## Digits -/

/-- Each of the digits is read as its place. -/
def ReadsBack (digits : List Char) : Prop := ∀ d < 16, digit? (digits.getD d '0') = some d

theorem readsBack_lowerDigits : ReadsBack lowerDigits := by
  unfold ReadsBack
  decide

theorem readsBack_upperDigits : ReadsBack upperDigits := by
  unfold ReadsBack
  decide

/-- The values of the digits of a byte string. -/
def digitValues (data : Bytes) : List ℕ := data.flatMap fun b => [b.toNat / 16, b.toNat % 16]

theorem digitValues_cons (b : UInt8) (data : Bytes) :
    digitValues (b :: data) = b.toNat / 16 :: b.toNat % 16 :: digitValues data := rfl

theorem mapM_digit?_pairs {digits : List Char} (h : ReadsBack digits) (data : Bytes) :
    (data.flatMap (pair digits)).mapM digit? = some (digitValues data) := by
  induction data with
  | nil => rfl
  | cons b data ih =>
    have small := b.toNat_lt
    have high := h (b.toNat / 16) (by omega)
    have low := h (b.toNat % 16) (by omega)
    rw [List.flatMap_cons, pair, List.cons_append, List.cons_append, List.nil_append,
      List.mapM_cons, List.mapM_cons, high, low, ih]
    rfl

theorem joinPairs_digitValues (data : Bytes) : joinPairs (digitValues data) = data := by
  induction data with
  | nil => rfl
  | cons b data ih =>
    rw [digitValues_cons, joinPairs, ih, Nat.div_add_mod', UInt8.ofNat_toNat]

theorem ofDigits_digitValues (data : Bytes) : ofDigits (digitValues data) = Bytes.toNat data := by
  suffices fold : ∀ n, (digitValues data).foldl (fun n d => n * 16 + d) n
      = data.foldl (fun n b => n * 256 + b.toNat) n from fold 0
  induction data with
  | nil => exact fun _ => rfl
  | cons b data ih =>
    intro n
    rw [digitValues_cons, List.foldl_cons, List.foldl_cons, List.foldl_cons, ih]
    congr 1
    omega

/-! ## Byte strings -/

theorem utf8Len_pairs (data : Bytes) :
    String.utf8Len (data.flatMap (pair lowerDigits)) = 2 * data.length := by
  have narrow : ∀ d < 16, (lowerDigits.getD d '0').utf8Size = 1 := by decide
  induction data with
  | nil => rfl
  | cons b data ih =>
    have small := b.toNat_lt
    have high := narrow (b.toNat / 16) (by omega)
    have low := narrow (b.toNat % 16) (by omega)
    rw [List.flatMap_cons, pair, List.cons_append, List.cons_append, List.nil_append,
      String.utf8Len, String.utf8Len, high, low, ih, List.length_cons]
    omega

/-- A byte string is read from its digits. -/
theorem bytes_ofBytes (data : Bytes) : bytes (ofBytes data) = .ok data := by
  have even : (ofBytes data).utf8ByteSize % 2 = 0 := by
    rw [ofBytes, String.utf8ByteSize_ofList, utf8Len_pairs, Nat.mul_mod_right]
  have read : (ofBytes data).toList.mapM digit? = some (digitValues data) := by
    rw [ofBytes, String.toList_ofList, mapM_digit?_pairs readsBack_lowerDigits]
  rw [bytes, if_neg (by omega), read]
  exact congrArg Except.ok (joinPairs_digitValues data)

/-! ## Numbers -/

theorem digit?_minus : digit? '-' = none := by decide

/-- A text without a sign is read as its magnitude. -/
theorem number_of_magnitude? {text : List Char} {n : ℕ} (h : magnitude? text = some n) :
    number (String.ofList text) = .ok n := by
  cases text with
  | nil => cases h
  | cons c rest =>
    have unsigned : c ≠ '-' := by
      rintro rfl
      simp [magnitude?, digit?_minus] at h
    unfold number
    rw [String.toList_ofList]
    split
    · next same => exact absurd (List.cons.inj same).1 unsigned
    · rw [h]
      rfl

/-- The digits of a number that is not negative. -/
def numberDigits (n : ℕ) : List Char :=
  if n = 0 then ['0'] else (Bytes.ofNat (Number.byteLength n) n).flatMap (pair upperDigits)

theorem ofNumber_natCast (n : ℕ) : ofNumber n = String.ofList (numberDigits n) := by
  have unsigned : ¬ (n : ℤ) < 0 := by omega
  unfold ofNumber numberDigits
  simp only [Int.natAbs_natCast, if_neg unsigned]

theorem magnitude?_numberDigits (n : ℕ) : magnitude? (numberDigits n) = some n := by
  by_cases zero : n = 0
  · subst zero
    decide
  · have positive : Number.byteLength n ≠ 0 := by
      intro none
      have fits := (Number.byteLength_le_iff n 0).1 none.le
      omega
    have written : (Bytes.ofNat (Number.byteLength n) n).flatMap (pair upperDigits) ≠ [] := by
      intro none
      have size := congrArg List.length none
      simp [List.length_flatMap, pair, positive] at size
    have fits : n < 256 ^ Number.byteLength n := (Number.byteLength_le_iff n _).1 le_rfl
    unfold magnitude? numberDigits
    rw [if_neg zero, if_neg (by rwa [List.isEmpty_iff]), mapM_digit?_pairs readsBack_upperDigits,
      Option.map_some, ofDigits_digitValues, Bytes.toNat_ofNat, Nat.mod_eq_of_lt fits]

/-- A number that is not negative is read from its digits. -/
theorem number_ofNumber {x : ℤ} (nonneg : 0 ≤ x) : number (ofNumber x) = .ok x := by
  obtain ⟨n, rfl⟩ := Int.eq_ofNat_of_zero_le nonneg
  rw [ofNumber_natCast, number_of_magnitude? (magnitude?_numberDigits n)]

end BallotMix.Hex
