import BallotMix.Command.Numeral
import BallotMix.Proofs.Computation
import Mathlib

/-!
# Numbers at the front of a text

A decimal argument is read from the front of its text: from blanks, a sign or none, and digits, and
whatever stands behind the digits does not count.  A `Numeral` is a text in these parts.  A text is
read exactly if it is a numeral whose digits write a number below `2 ^ 64` (`numeral_eq_ok_iff`).
If it is nothing but digits, it is read as this number (`readsAs_digits_iff`).
-/

namespace BallotMix.Command

/-! ## Parts -/

/-- What may stand between the blanks and the digits. -/
inductive Sign
  | absent
  | plus
  | minus
deriving DecidableEq

def Sign.text : Sign → List Char
  | absent => []
  | plus => ['+']
  | minus => ['-']

/-- A text with digits behind blanks and a sign or none. -/
structure Numeral where
  blanks : List Char
  sign : Sign
  digits : List Char
  /-- What does not count. -/
  rest : List Char
  blank : ∀ c ∈ blanks, isBlank c = true
  digit : ∀ c ∈ digits, c.isDigit = true
  nonempty : digits ≠ []
  /-- The digits go as far as they can. -/
  ended : ∀ c ∈ rest.head?, c.isDigit = false

namespace Numeral

def text (t : Numeral) : List Char := t.blanks ++ (t.sign.text ++ (t.digits ++ t.rest))

/-- The number that the digits write. -/
def magnitude (t : Numeral) : ℕ := Nat.ofDigitChars 10 t.digits 0

/-- The number behind its sign, modulo `2 ^ 64`. -/
def value (t : Numeral) : ℕ :=
  if t.sign = .minus then (2 ^ 64 - t.magnitude) % 2 ^ 64 else t.magnitude

end Numeral

/-- The text is a numeral with the value, and its digits write a number below `2 ^ 64`. -/
def ReadsAs (text : List Char) (v : ℕ) : Prop :=
  ∃ t : Numeral, text = t.text ∧ t.magnitude < 2 ^ 64 ∧ v = t.value

/-! ## Reading -/

theorem decimalValue_eq (digits : List Char) :
    decimalValue digits = Nat.ofDigitChars 10 digits 0 := by
  rw [Nat.ofDigitChars_eq_foldl, decimalValue]
  simp only [Nat.mul_comm]

theorem isBlank_of_isDigit {c : Char} (digit : c.isDigit = true) : isBlank c = false := by
  by_contra blank
  simp only [isBlank, Bool.not_eq_false, List.contains_iff_mem, List.mem_cons, List.not_mem_nil,
    or_false] at blank
  rcases blank with rfl | rfl | rfl | rfl | rfl | rfl
  all_goals exact absurd digit (by decide)

theorem splitSign_of_isDigit {c : Char} (digit : c.isDigit = true) (rest : List Char) :
    splitSign (c :: rest) = (false, c :: rest) := by
  unfold splitSign
  split
  · next same =>
    rw [(List.cons.inj same).1] at digit
    exact absurd digit (by decide)
  · next same =>
    rw [(List.cons.inj same).1] at digit
    exact absurd digit (by decide)
  · rfl

theorem splitSign_text (sign : Sign) {c : Char} (digit : c.isDigit = true) (rest : List Char) :
    splitSign (sign.text ++ c :: rest) = (decide (sign = .minus), c :: rest) := by
  cases sign with
  | absent => exact splitSign_of_isDigit digit rest
  | plus => rfl
  | minus => rfl

/-- What is split off from a text is a sign or nothing. -/
theorem exists_sign (text : List Char) : ∃ sign : Sign, text = sign.text ++ (splitSign text).2 := by
  unfold splitSign
  split
  · exact ⟨.minus, rfl⟩
  · exact ⟨.plus, rfl⟩
  · exact ⟨.absent, rfl⟩

namespace Numeral

variable (t : Numeral)

/-- Neither a sign nor a digit is a blank. -/
theorem dropWhile_text : t.text.dropWhile isBlank = t.sign.text ++ (t.digits ++ t.rest) := by
  obtain ⟨c, digits, written⟩ := List.exists_cons_of_ne_nil t.nonempty
  have first : isBlank c = false := isBlank_of_isDigit (t.digit c (written ▸ List.mem_cons_self))
  rw [text, List.dropWhile_append_of_pos t.blank, written]
  cases sign : t.sign with
  | absent => exact List.dropWhile_cons_of_neg (by simp [first])
  | plus => rfl
  | minus => rfl

theorem splitSign_dropWhile_text : splitSign (t.text.dropWhile isBlank)
    = (decide (t.sign = .minus), t.digits ++ t.rest) := by
  obtain ⟨c, digits, written⟩ := List.exists_cons_of_ne_nil t.nonempty
  have first := t.digit c (written ▸ List.mem_cons_self)
  rw [dropWhile_text, written]
  exact splitSign_text t.sign first _

theorem takeWhile_digits : (t.digits ++ t.rest).takeWhile Char.isDigit = t.digits := by
  rw [List.takeWhile_append_of_pos t.digit]
  cases rest : t.rest with
  | nil => simp
  | cons c cs =>
    have behind := t.ended c (by simp [rest])
    simp [behind]

/-- The value of a numeral in 64-bit arithmetic. -/
theorem toNat_signed (small : t.magnitude < 2 ^ 64) :
    (if t.sign = .minus then 0 - UInt64.ofNat t.magnitude else UInt64.ofNat t.magnitude).toNat
      = t.value := by
  unfold value
  split
  · rw [UInt64.toNat_sub, UInt64.toNat_ofNat_of_lt' small]
    rfl
  · exact UInt64.toNat_ofNat_of_lt' small

end Numeral

/-- What is read from a text in parts. -/
theorem numeral_of_text (reader : String) {text : String} {t : Numeral}
    (parts : text.toList = t.text) : numeral reader text =
      if 2 ^ 64 ≤ t.magnitude then .error (.argument (.numeral reader))
      else .ok (if t.sign = .minus then 0 - UInt64.ofNat t.magnitude
        else UInt64.ofNat t.magnitude) := by
  unfold numeral
  rw [parts, t.splitSign_dropWhile_text]
  simp only [t.takeWhile_digits, decimalValue_eq]
  simp [t.nonempty, Numeral.magnitude]

/-- A text is in parts unless no digit follows the blanks and the sign. -/
theorem exists_numeral {text : List Char}
    (digits : (splitSign (text.dropWhile isBlank)).2.takeWhile Char.isDigit ≠ []) :
    ∃ t : Numeral, text = t.text := by
  obtain ⟨sign, signed⟩ := exists_sign (text.dropWhile isBlank)
  refine ⟨⟨text.takeWhile isBlank, sign, _,
    (splitSign (text.dropWhile isBlank)).2.dropWhile Char.isDigit, ?_, ?_, digits, ?_⟩, ?_⟩
  · exact fun c hc => List.mem_takeWhile_imp hc
  · exact fun c hc => List.mem_takeWhile_imp hc
  · intro c hc
    have behind := List.head?_dropWhile_not Char.isDigit (splitSign (text.dropWhile isBlank)).2
    rw [Option.mem_def.1 hc] at behind
    exact behind
  · rw [Numeral.text, List.takeWhile_append_dropWhile, ← signed, List.takeWhile_append_dropWhile]

/-- The texts that are read as a number. -/
theorem numeral_eq_ok_iff {reader text : String} {w : UInt64} :
    numeral reader text = .ok w ↔ ReadsAs text.toList w.toNat := by
  constructor
  · intro read
    obtain ⟨t, parts⟩ : ∃ t : Numeral, text.toList = t.text := by
      refine exists_numeral fun none => ?_
      simp [numeral, none] at read
    rw [numeral_of_text reader parts, Result.ite_error_eq_ok_iff, not_le] at read
    obtain ⟨small, value⟩ := read
    obtain rfl := Except.ok.inj value
    exact ⟨t, parts, small, t.toNat_signed small⟩
  · rintro ⟨t, parts, small, value⟩
    rw [numeral_of_text reader parts, if_neg (not_le.2 small)]
    exact congrArg Except.ok (UInt64.toNat_inj.1 ((t.toNat_signed small).trans value.symm))

/-- In front of the digits the number one is negated, and what stands behind them is passed over. -/
example : numeral "stoull" " -1 vote" = .ok 18446744073709551615 := by decide

theorem ReadsAs.exists_word {text : List Char} {v : ℕ} (h : ReadsAs text v) :
    ∃ w : UInt64, v = w.toNat := by
  obtain ⟨t, -, small, rfl⟩ := h
  exact ⟨_, (t.toNat_signed small).symm⟩

/-- What is read from a text is all that it can be read as. -/
theorem ReadsAs.eq_of_numeral {reader text : String} {v : ℕ} {w : UInt64}
    (h : ReadsAs text.toList v) (read : numeral reader text = .ok w) : v = w.toNat := by
  obtain ⟨w', rfl⟩ := h.exists_word
  obtain rfl := Except.ok.inj ((numeral_eq_ok_iff.2 h).symm.trans read)
  rfl

/-- A text of digits is read as the number that they write. -/
theorem readsAs_digits_iff {digits : List Char} (nonempty : digits ≠ [])
    (digit : ∀ c ∈ digits, c.isDigit = true) {v : ℕ} :
    ReadsAs digits v ↔ v = Nat.ofDigitChars 10 digits 0 ∧ v < 2 ^ 64 := by
  let t : Numeral := ⟨[], .absent, digits, [], by simp, digit, nonempty, by simp⟩
  have parts : (String.ofList digits).toList = t.text := by
    simp [t, Numeral.text, Sign.text]
  constructor
  · intro reads
    obtain ⟨w, rfl⟩ := reads.exists_word
    have read : numeral "" (String.ofList digits) = .ok w :=
      numeral_eq_ok_iff.2 (by rwa [String.toList_ofList])
    rw [numeral_of_text "" parts, Result.ite_error_eq_ok_iff, not_le] at read
    obtain ⟨small, value⟩ := read
    obtain rfl := Except.ok.inj value
    exact ⟨t.toNat_signed small, UInt64.toNat_lt _⟩
  · rintro ⟨rfl, small⟩
    exact ⟨t, by rw [← parts, String.toList_ofList], small, rfl⟩

end BallotMix.Command
