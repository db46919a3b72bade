import BallotMix.Command.Interpreter
import BallotMix.Proofs.Command.Numerals
import BallotMix.Proofs.Hex.Reading
import Mathlib

/-!
# Text between calls

Calls are put together by text: a line that one call prints is an argument of the next.  All that is
printed for this purpose consists of hexadecimal digits and colons, so it is a `Word`: no NUL ends it,
no newline breaks it, and it is not taken for the name of a setting.  Lines of words are found again
in the text that they make (`lines_unlines`), and a decimal number is read from its digits
(`numeral_decimal`).
-/

namespace BallotMix.Command

/-! ## Decimal numbers -/

theorem toList_decimal (w : UInt64) : (decimal w).toList = Nat.toDigits 10 w.toNat := by
  rw [decimal, Nat.toString_eq_ofList_toDigits, String.toList_ofList]

theorem isDigit_of_mem_decimal {w : UInt64} {c : Char} (hc : c ∈ (decimal w).toList) :
    c.isDigit = true := by
  rw [toList_decimal] at hc
  exact Nat.isDigit_of_mem_toDigits (by decide) (by decide) hc

/-- A number is read from its decimal digits. -/
theorem numeral_decimal (reader : String) (w : UInt64) : numeral reader (decimal w) = .ok w := by
  have digits : ∀ c ∈ (decimal w).toList, c.isDigit = true := fun c => isDigit_of_mem_decimal
  have nonempty : (decimal w).toList ≠ [] := by
    rw [toList_decimal]
    exact Nat.toDigits_ne_nil
  have value : Nat.ofDigitChars 10 (decimal w).toList 0 = w.toNat := by
    rw [toList_decimal, Nat.ofDigitChars_ten_toDigits]
  exact numeral_eq_ok_iff.2 ((readsAs_digits_iff nonempty digits).2 ⟨value.symm, w.toNat_lt⟩)

/-! ## Words -/

/-- The text consists of hexadecimal digits and colons. -/
def IsWord (text : String) : Prop := ∀ c ∈ text.toList, (Hex.digit? c).isSome ∨ c = ':'

theorem isWord_decimal (w : UInt64) : IsWord (decimal w) := by
  intro c hc
  have digit := isDigit_of_mem_decimal hc
  rw [Char.isDigit, Bool.and_eq_true, decide_eq_true_eq, decide_eq_true_eq] at digit
  left
  rw [Hex.digit?, if_pos ⟨digit.1, digit.2⟩]
  rfl

theorem isWord_ofNumber {x : ℤ} (nonneg : 0 ≤ x) : IsWord (Hex.ofNumber x) :=
  fun _ hc => Or.inl (Hex.isSome_digit?_of_mem_ofNumber nonneg hc)

theorem isWord_ofBytes (data : Bytes) : IsWord (Hex.ofBytes data) :=
  fun _ hc => Or.inl (Hex.isSome_digit?_of_mem_ofBytes hc)

theorem blobText_eq {blob : Result Bytes} {data : Bytes} (h : blob = .ok data) :
    blobText blob = .ok (Hex.ofBytes data) := by
  rw [h]
  rfl

theorem isWord_colon : IsWord ":" := by
  intro c hc
  right
  exact List.mem_singleton.1 hc

theorem IsWord.append {text rest : String} (h : IsWord text) (h' : IsWord rest) :
    IsWord (text ++ rest) := by
  intro c hc
  rw [String.toList_append, List.mem_append] at hc
  exact hc.elim (h c) (h' c)

theorem IsWord.notMem {text : String} (h : IsWord text) {c : Char} (foreign : Hex.digit? c = none)
    (ne : c ≠ ':') : c ∉ text.toList := by
  intro hc
  rcases h c hc with digit | colon
  · rw [foreign] at digit
    cases digit
  · exact ne colon

theorem beforeNul_of_notMem {text : String} (h : '\x00' ∉ text.toList) : beforeNul text = text := by
  rw [beforeNul, List.takeWhile_eq_self_iff.2 ?_, String.ofList_toList]
  intro c hc
  rw [decide_eq_true_eq]
  rintro rfl
  exact h hc

theorem IsWord.beforeNul {text : String} (h : IsWord text) : beforeNul text = text :=
  beforeNul_of_notMem (h.notMem (by decide) (by decide))

/-- No word is the name of a setting. -/
theorem IsWord.isName {text : String} (h : IsWord text) : Settings.isName text = false := by
  have minus : '-' ∉ text.toList := h.notMem (by decide) (by decide)
  rw [Settings.isName, Bool.or_eq_false_iff, Bool.or_eq_false_iff]
  refine ⟨⟨?_, ?_⟩, ?_⟩
  all_goals
    rw [decide_eq_false_iff_not]
    rintro rfl
    exact minus (by decide)

/-! ## Lines -/

/-- The text of lines, each ended by a newline. -/
def unlines (words : List String) : String := String.join (words.map (· ++ "\n"))

/-- The lines of a text, each of which a newline ends. -/
def lines (text : String) : List String :=
  ((text.toList.splitOn '\n').dropLast).map String.ofList

theorem toList_unlines_cons (word : String) (words : List String) :
    (unlines (word :: words)).toList = word.toList ++ '\n' :: (unlines words).toList := by
  simp [unlines, String.toList_join]

theorem unlines_cons (word : String) (words : List String) :
    unlines (word :: words) = word ++ "\n" ++ unlines words := by
  rw [← String.toList_inj, toList_unlines_cons]
  simp

theorem unlines_singleton (word : String) : unlines [word] = word ++ "\n" := by
  rw [unlines_cons]
  exact String.append_empty

/-- Printed words are found again, line by line. -/
theorem lines_unlines {words : List String} (h : ∀ word ∈ words, IsWord word) :
    lines (unlines words) = words := by
  unfold lines
  induction words with
  | nil => rfl
  | cons word words ih =>
    obtain ⟨own, others⟩ := List.forall_mem_cons.1 h
    have newline : ∀ c ∈ word.toList, (c == '\n') = false := by
      intro c hc
      rw [beq_eq_false_iff_ne]
      rintro rfl
      exact own.notMem (by decide) (by decide) hc
    have split : (unlines (word :: words)).toList.splitOn '\n'
        = word.toList :: (unlines words).toList.splitOn '\n' := by
      rw [toList_unlines_cons]
      exact List.splitOnP_append_cons_of_forall_mem newline '\n' rfl _
    have rest : (unlines words).toList.splitOn '\n' ≠ [] := List.splitOnP_ne_nil _ _
    rw [split, List.dropLast_cons_of_ne_nil rest, List.map_cons, ih others, String.ofList_toList]

end BallotMix.Command
