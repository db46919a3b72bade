import BallotMix.Proofs.Hex
import Mathlib

/-!
# Which hexadecimal text is read

Nothing is read but digits, with a minus sign in front of a number at most: no blank, no prefix, no
other sign, and no character outside the sixteen digits of either case.  A text of an even number of
digits is a byte string, which is written as the text in lower case; of any other text the length is
found fault with first (`bytes_exact`).
-/

namespace BallotMix.Hex

/-! ## Digits -/

/-- The character is a digit, in lower or in upper case. -/
def IsDigit (c : Char) : Prop := c ∈ lowerDigits ∨ c ∈ upperDigits

/-- The place of a digit among the sixteen. -/
def digitValue (c : Char) : ℕ := lowerDigits.idxOf c.toLower

/-- All digits are in ASCII. -/
theorem IsDigit.toNat_lt {c : Char} (h : IsDigit c) : c.toNat < 128 := by
  have lower : lowerDigits.all (·.toNat < 128) = true := by decide
  have upper : upperDigits.all (·.toNat < 128) = true := by decide
  simp only [List.all_eq_true, decide_eq_true_eq] at lower upper
  exact h.elim (lower c) (upper c)

theorem IsDigit.utf8Size_eq {c : Char} (h : IsDigit c) : c.utf8Size = 1 :=
  Char.utf8Size_eq_one_iff.2 (UInt32.le_iff_toNat_le.2 (Nat.le_of_lt_succ h.toNat_lt))

theorem IsDigit.toLower_mem {c : Char} (h : IsDigit c) : c.toLower ∈ lowerDigits := by
  have lower : lowerDigits.all (·.toLower ∈ lowerDigits) = true := by decide
  have upper : upperDigits.all (·.toLower ∈ lowerDigits) = true := by decide
  simp only [List.all_eq_true, decide_eq_true_eq] at lower upper
  exact h.elim (lower c) (upper c)

/-- The characters that are digits are read, each as its place. -/
theorem digit?_eq_some_iff {c : Char} {d : ℕ} :
    digit? c = some d ↔ IsDigit c ∧ d = digitValue c := by
  by_cases ascii : c.toNat < 128
  · have each : ∀ n < 128, digit? (Char.ofNat n)
        = if Char.ofNat n ∈ lowerDigits ∨ Char.ofNat n ∈ upperDigits
          then some (digitValue (Char.ofNat n)) else none := by decide +kernel
    have table := each c.toNat ascii
    rw [Char.ofNat_toNat] at table
    rw [table, IsDigit]
    split
    · next digit => simp [digit, eq_comm]
    · next foreign => simp [foreign]
  · have foreign : ¬ IsDigit c := fun digit => ascii digit.toNat_lt
    have above (d : Char) (low : d.toNat < 128) : ¬ c ≤ d := by
      rw [Char.le_def, UInt32.le_iff_toNat_le]
      exact fun le => ascii (le.trans_lt low)
    rw [digit?, if_neg fun h => above '9' (by decide) h.2,
      if_neg fun h => above 'f' (by decide) h.2, if_neg fun h => above 'F' (by decide) h.2]
    simp [foreign]

theorem isSome_digit?_iff {c : Char} : (digit? c).isSome = true ↔ IsDigit c := by
  simp [Option.isSome_iff_exists, digit?_eq_some_iff]

instance (c : Char) : Decidable (IsDigit c) := decidable_of_iff _ isSome_digit?_iff

theorem digitValue_lt {c : Char} (h : IsDigit c) : digitValue c < 16 :=
  List.idxOf_lt_length_iff.2 h.toLower_mem

/-- The lower-case digit at the place of a digit is this digit in lower case. -/
theorem getD_digitValue {c : Char} (h : IsDigit c) :
    lowerDigits.getD (digitValue c) '0' = c.toLower := by
  have inside := List.idxOf_lt_length_iff.2 h.toLower_mem
  rw [digitValue, List.getD_eq_getElem _ _ inside, List.getElem_idxOf]

/-- A text is read digit by digit if it has no other character. -/
theorem mapM_digit?_eq_some_iff {text : List Char} {values : List ℕ} :
    text.mapM digit? = some values ↔ (∀ c ∈ text, IsDigit c) ∧ values = text.map digitValue := by
  induction text generalizing values with
  | nil => simp [eq_comm]
  | cons c text ih =>
    simp only [List.mapM_cons, Option.bind_eq_bind, Option.bind_eq_some_iff, digit?_eq_some_iff, ih,
      List.forall_mem_cons, List.map_cons]
    constructor
    · rintro ⟨_, ⟨digit, rfl⟩, _, ⟨digits, rfl⟩, same⟩
      exact ⟨⟨digit, digits⟩, (Option.some.inj same).symm⟩
    · rintro ⟨⟨digit, digits⟩, rfl⟩
      exact ⟨_, ⟨digit, rfl⟩, _, ⟨digits, rfl⟩, rfl⟩

theorem isSome_digit?_of_mem {text : List Char} {values : List ℕ}
    (h : text.mapM digit? = some values) {c : Char} (hc : c ∈ text) : (digit? c).isSome :=
  isSome_digit?_iff.2 ((mapM_digit?_eq_some_iff.1 h).1 c hc)

/-! ## Byte strings -/

theorem flatMap_pair (digits : List Char) (data : Bytes) :
    data.flatMap (pair digits) = (digitValues data).map fun d => digits.getD d '0' := by
  induction data with
  | nil => rfl
  | cons b data ih =>
    rw [List.flatMap_cons, ih, digitValues_cons]
    rfl

/-- An even number of places are the digits of the bytes that they make. -/
theorem digitValues_joinPairs : ∀ {values : List ℕ}, values.length % 2 = 0 →
    (∀ d ∈ values, d < 16) → digitValues (joinPairs values) = values
  | [], _, _ => rfl
  | [_], odd, _ => by cases odd
  | high :: low :: rest, even, small => by
    obtain ⟨hhigh, hlow, hrest⟩ := by simpa only [List.forall_mem_cons] using small
    have shorter : rest.length % 2 = 0 := by
      simp only [List.length_cons] at even
      omega
    have byte : (UInt8.ofNat (high * 16 + low)).toNat = high * 16 + low :=
      UInt8.toNat_ofNat_of_lt' (show high * 16 + low < 256 by omega)
    have first : (high * 16 + low) / 16 = high := by omega
    have second : (high * 16 + low) % 16 = low := by omega
    rw [joinPairs, digitValues_cons, digitValues_joinPairs shorter hrest, byte, first, second]

/-- Digits are as long as they are many. -/
theorem utf8ByteSize_of_isDigit {text : String} (digits : ∀ c ∈ text.toList, IsDigit c) :
    text.utf8ByteSize = text.toList.length := by
  suffices size : ∀ cs : List Char, (∀ c ∈ cs, IsDigit c) → String.utf8Len cs = cs.length by
    have same := size text.toList digits
    rwa [← String.utf8ByteSize_ofList, String.ofList_toList] at same
  intro cs h
  induction cs with
  | nil => rfl
  | cons c cs ih =>
    obtain ⟨digit, rest⟩ := List.forall_mem_cons.1 h
    rw [String.utf8Len, ih rest, digit.utf8Size_eq, List.length_cons]

/-- A text is read pair by pair unless its length, or else a character of it, forbids it. -/
theorem bytes_eq (text : String) : bytes text =
    if text.utf8ByteSize % 2 ≠ 0 then .error (.argument .oddHexLength)
    else if ∀ c ∈ text.toList, IsDigit c then .ok (joinPairs (text.toList.map digitValue))
    else .error (.argument .nonHexDigit) := by
  unfold bytes
  by_cases digits : ∀ c ∈ text.toList, IsDigit c
  · rw [mapM_digit?_eq_some_iff.2 ⟨digits, rfl⟩, if_pos digits]
  · cases read : text.toList.mapM digit? with
    | none => rw [if_neg digits]
    | some values => exact absurd (mapM_digit?_eq_some_iff.1 read).1 digits

/-- The bytes that are read from a text are written as the text in lower case. -/
theorem ofBytes_of_bytes {text : String} {data : Bytes} (h : bytes text = .ok data) :
    ofBytes data = text.toLower := by
  simp only [bytes_eq, Result.ite_error_eq_ok_iff] at h
  obtain ⟨even, h⟩ := h
  split at h
  case isFalse => cases h
  case isTrue digits =>
    obtain rfl := Except.ok.inj h
    have whole : (text.toList.map digitValue).length % 2 = 0 := by
      rw [List.length_map, ← utf8ByteSize_of_isDigit digits]
      omega
    have small : ∀ d ∈ text.toList.map digitValue, d < 16 :=
      List.forall_mem_map.2 fun c hc => digitValue_lt (digits c hc)
    have lower : (text.toList.map digitValue).map (fun d => lowerDigits.getD d '0')
        = text.toList.map Char.toLower := by
      rw [List.map_map]
      exact List.map_congr_left fun c hc => getD_digitValue (digits c hc)
    rw [ofBytes, flatMap_pair, digitValues_joinPairs whole small, lower, String.toLower,
      ← String.toList_inj, String.toList_ofList, String.toList_map]

/-- Byte strings are exactly what texts of an even length with nothing but digits are read as.  What
is written is read back, what is read is written as the text in lower case, and of the two faults
that a text can have the length counts first. -/
theorem bytes_exact :
    (∀ data : Bytes, bytes (ofBytes data) = .ok data) ∧
    ∀ text : String,
      ((∃ data, bytes text = .ok data) ↔
        text.utf8ByteSize % 2 = 0 ∧ ∀ c ∈ text.toList, IsDigit c) ∧
      (∀ data, bytes text = .ok data → ofBytes data = text.toLower) ∧
      (bytes text = .error (.argument .oddHexLength) ↔ text.utf8ByteSize % 2 = 1) ∧
      (bytes text = .error (.argument .nonHexDigit) ↔
        text.utf8ByteSize % 2 = 0 ∧ ∃ c ∈ text.toList, ¬ IsDigit c) := by
  refine ⟨bytes_ofBytes, fun text => ⟨?_, fun _ => ofBytes_of_bytes, ?_⟩⟩
  all_goals
    rw [bytes_eq]
    rcases Nat.mod_two_eq_zero_or_one text.utf8ByteSize with even | odd
  · by_cases digits : ∀ c ∈ text.toList, IsDigit c
    · simp only [even, if_pos digits]
      simpa using digits
    · simp [even, digits]
  · simp [odd]
  · by_cases digits : ∀ c ∈ text.toList, IsDigit c
    · simp only [even, if_pos digits]
      simpa using digits
    · simp only [even, if_neg digits]
      simpa using digits
  · simp [odd]

/-- Digits of both cases, and what a more lenient reader of numbers would take as well: a blank, a
sign, a prefix. -/
theorem bytes_exact_mixed :
    bytes "0aFf" = .ok [10, 255] ∧ ofBytes [10, 255] = "0aFf".toLower ∧
      bytes " 1" = .error (.argument .nonHexDigit) ∧
      bytes "+1" = .error (.argument .nonHexDigit) ∧
      bytes "0x" = .error (.argument .nonHexDigit) ∧
      bytes "0x1" = .error (.argument .oddHexLength) := by
  obtain ⟨-, exact⟩ := bytes_exact
  have read : bytes "0aFf" = .ok [10, 255] := by decide
  refine ⟨read, (exact "0aFf").2.1 [10, 255] read, ?_, ?_, ?_, (exact "0x1").2.2.1.2 (by decide)⟩
  · exact (exact " 1").2.2.2.2 ⟨by decide, ' ', by decide, by decide⟩
  · exact (exact "+1").2.2.2.2 ⟨by decide, '+', by decide, by decide⟩
  · exact (exact "0x").2.2.2.2 ⟨by decide, 'x', by decide, by decide⟩

/-! ## Numbers -/

/-- One digit or more, and nothing else. -/
def AreDigits (text : List Char) : Prop := text ≠ [] ∧ ∀ c ∈ text, IsDigit c

/-- The text of a number: digits, with a minus sign in front of them or not. -/
def IsNumeral (text : List Char) : Prop :=
  ∃ digits, AreDigits digits ∧ (text = digits ∨ text = '-' :: digits)

theorem isNumeral_minus {digits : List Char} : IsNumeral ('-' :: digits) ↔ AreDigits digits := by
  constructor
  · rintro ⟨own, are, rfl | same⟩
    · exact absurd (are.2 '-' List.mem_cons_self) (by decide)
    · exact (List.cons.inj same).2 ▸ are
  · exact fun are => ⟨digits, are, .inr rfl⟩

theorem isNumeral_of_ne {text : List Char} (unsigned : ∀ rest, text ≠ '-' :: rest) :
    IsNumeral text ↔ AreDigits text := by
  constructor
  · rintro ⟨own, are, rfl | same⟩
    · exact are
    · exact absurd same (unsigned own)
  · exact fun are => ⟨text, are, .inl rfl⟩

theorem isSome_magnitude?_iff {text : List Char} :
    (magnitude? text).isSome = true ↔ AreDigits text := by
  unfold magnitude? AreDigits
  split
  · next empty => simp [List.isEmpty_iff.1 empty]
  · next full =>
    rw [List.isEmpty_iff] at full
    rw [Option.isSome_map, Option.isSome_iff_exists]
    simp [mapM_digit?_eq_some_iff, full]

/-- The texts that are read as numbers. -/
theorem exists_number_iff {text : String} :
    (∃ x, number text = .ok x) ↔ IsNumeral text.toList := by
  unfold number
  split
  · next digits minus =>
    rw [minus, isNumeral_minus, ← isSome_magnitude?_iff]
    cases magnitude? digits with
    | none => simp
    | some n => simp
  · next unsigned =>
    rw [isNumeral_of_ne unsigned, ← isSome_magnitude?_iff]
    cases magnitude? text.toList with
    | none => simp
    | some n => simp

/-! ## What is written -/

theorem isSome_digit?_of_mem_ofBytes {data : Bytes} {c : Char} (hc : c ∈ (ofBytes data).toList) :
    (digit? c).isSome := by
  rw [ofBytes, String.toList_ofList] at hc
  exact isSome_digit?_of_mem (mapM_digit?_pairs readsBack_lowerDigits data) hc

theorem isSome_digit?_of_mem_ofNumber {x : ℤ} (nonneg : 0 ≤ x) {c : Char}
    (hc : c ∈ (ofNumber x).toList) : (digit? c).isSome := by
  obtain ⟨n, rfl⟩ := Int.eq_ofNat_of_zero_le nonneg
  rw [ofNumber_natCast, String.toList_ofList] at hc
  have read := magnitude?_numberDigits n
  unfold magnitude? at read
  rw [if_neg (by rw [List.isEmpty_iff]; exact List.ne_nil_of_mem hc)] at read
  obtain ⟨values, read, -⟩ := Option.map_eq_some_iff.1 read
  exact isSome_digit?_of_mem read hc

end BallotMix.Hex
