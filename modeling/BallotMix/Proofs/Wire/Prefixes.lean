import BallotMix.Proofs.Wire.Formats
import Mathlib

/-!
# Cut and prolonged blobs

What a reader makes of a blob stands when the blob goes on, unless the reader found it too short
(`Stands`): counts are only compared with what is left, and an element or a scalar that was taken is
judged by its own bytes.  So a blob that is refused for anything but its length is refused with
every end, and a blob that is accepted is too short wherever it is cut and too long whatever is
added to it (`formats_delimited`).
-/

namespace BallotMix.Wire

/-- What can be wrong with a blob that is too short. -/
def tooShort : List ArgumentFault :=
  [.truncated, .elementCount, .ciphertextCount, .shuffleProofSize]

namespace Reader

variable {α β : Type}

/-- What a reader makes of a blob, and what it leaves of it. -/
def outcome (reader : Reader α) (data : Bytes) : Result α × Bytes := reader.run data

/-- On the blob that goes on with `extra`, the second reader does what the first does on the blob
without, unless the first finds the blob too short. -/
def Stands (short long : Reader α) (data extra : Bytes) : Prop :=
  (∃ fault ∈ tooShort, (outcome short data).1 = .error (.argument fault)) ∨
    outcome long (data ++ extra) = ((outcome short data).1, (outcome short data).2 ++ extra)

/-- A reader that does the same however the blob goes on, unless it finds the blob too short. -/
def Steady (reader : Reader α) : Prop := ∀ data extra, Stands reader reader data extra

/-! ## Rules -/

variable {short long : Reader α} {data extra : Bytes}

theorem steady_pure (a : α) : Steady (pure a) := fun _ _ => Or.inr rfl

theorem steady_throw (e : Error) : Steady (throw e : Reader α) := fun _ _ => Or.inr rfl

theorem steady_liftM (x : Result α) : Steady (liftM x) := fun _ _ => Or.inr rfl

theorem outcome_bind (reader : Reader α) (f : α → Reader β) (data : Bytes) :
    outcome (reader >>= f) data = match outcome reader data with
      | (.ok a, rest) => outcome (f a) rest
      | (.error e, rest) => (.error e, rest) := by
  refine (Draw.run_bind reader f data).trans ?_
  unfold outcome
  rcases reader.run data with ⟨e | a, rest⟩ <;> rfl

theorem Stands.bind (h : Stands short long data extra) {f f' : α → Reader β}
    (hf : ∀ a rest, Stands (f a) (f' a) rest extra) :
    Stands (short >>= f) (long >>= f') data extra := by
  unfold Stands at h ⊢
  rw [outcome_bind, outcome_bind]
  generalize outcome short data = result at h ⊢
  obtain ⟨e | a, rest⟩ := result
  · rcases h with ⟨fault, length, refused⟩ | same
    · cases refused
      exact Or.inl ⟨fault, length, rfl⟩
    · rw [same]
      exact Or.inr rfl
  · rcases h with ⟨fault, -, refused⟩ | same
    · cases refused
    · rw [same]
      exact hf a rest

theorem Steady.bind {reader : Reader α} (h : Steady reader) {f : α → Reader β}
    (hf : ∀ a, Steady (f a)) : Steady (reader >>= f) := fun data extra =>
  (h data extra).bind fun a rest => hf a rest extra

/-- A check of what was read does not depend on what follows. -/
theorem Steady.guard {reader : Reader α} (h : Steady reader) {c : Prop} [Decidable c] {e : Error} :
    Steady (if c then throw e else reader) := by
  split
  · exact steady_throw e
  · exact h

/-- A count that is refused is refused as too large for the blob, and one that is not is not refused
for a longer one. -/
theorem stands_count {c c' : Prop} [Decidable c] [Decidable c'] (shrinks : c' → c)
    {fault : ArgumentFault} (length : fault ∈ tooShort) {e : Error}
    (h : ¬ c → Stands short long data extra) :
    Stands (if c then throw (.argument fault) else short) (if c' then throw e else long) data
      extra := by
  by_cases refused : c
  · rw [if_pos refused]
    exact Or.inl ⟨fault, length, rfl⟩
  · rw [if_neg refused, if_neg fun refused' => refused (shrinks refused')]
    exact h refused

/-- What is left of the blob is longer by what it goes on with. -/
theorem stands_get_bind {f f' : Bytes → Reader α}
    (h : Stands (f data) (f' (data ++ extra)) data extra) :
    Stands (get >>= f) (get >>= f') data extra := h

/-! ## Readers -/

theorem steady_take (n : ℕ) : Steady (take n) := by
  intro data extra
  unfold take
  simp only [ExceptT.bind_throw]
  have longer : data.length ≤ (data ++ extra).length := by simp
  refine stands_get_bind (stands_count (fun cut => by omega) (by decide) fun enough => Or.inr ?_)
  rw [List.take_append_of_le_length (by omega), List.drop_append_of_le_length (by omega)]
  rfl

theorem steady_word : Steady word := (steady_take 4).bind fun _ => steady_pure _

theorem steady_element (G : Group) : Steady (element G) :=
  (steady_take _).bind fun _ => steady_liftM _

theorem steady_scalar (G : Group) : Steady (scalar G) := by
  unfold scalar
  simp only [ExceptT.bind_throw]
  exact (steady_take _).bind fun _ => (steady_pure _).guard

theorem steady_times {reader : Reader α} (h : Steady reader) (n : ℕ) : Steady (times n reader) := by
  induction n with
  | zero => exact steady_pure []
  | succ n ih => exact h.bind fun first => ih.bind fun others => steady_pure (first :: others)

theorem steady_elements (G : Group) : Steady (elements G) := by
  intro data extra
  unfold elements
  simp only [ExceptT.bind_throw]
  refine (steady_word data extra).bind fun n rest => stands_get_bind ?_
  have longer : rest.length / G.elementBytes ≤ (rest ++ extra).length / G.elementBytes :=
    Nat.div_le_div_right (by simp)
  exact stands_count (fun few => by omega) (by decide) fun _ =>
    steady_times (steady_element G) n.toNat rest extra

end Reader

open Reader

variable {G : Group}

theorem steady_readCiphertext : Steady (readCiphertext G) :=
  (steady_element G).bind fun _ => (steady_element G).bind fun _ => steady_pure _

/-- The count is compared with the whole blob, so a longer blob allows for more. -/
theorem stands_readCiphertexts {size size' : ℕ} (longer : size ≤ size') (data extra : Bytes) :
    Stands (readCiphertexts G size) (readCiphertexts G size') data extra := by
  unfold readCiphertexts
  simp only [ExceptT.bind_throw]
  refine (steady_word data extra).bind fun n rest => ?_
  have room : size / (2 * G.elementBytes) ≤ size' / (2 * G.elementBytes) :=
    Nat.div_le_div_right longer
  exact stands_count (fun few => by omega) (by decide) fun _ =>
    steady_times steady_readCiphertext n.toNat rest extra

theorem steady_readReencryption : Steady (readReencryption G) :=
  (steady_element G).bind fun _ => (steady_element G).bind fun _ =>
    (steady_scalar G).bind fun _ => (steady_scalar G).bind fun _ => steady_pure _

theorem steady_readLogEquality : Steady (readLogEquality G) :=
  (steady_elements G).bind fun _ => (steady_scalar G).bind fun _ =>
    (steady_scalar G).bind fun _ => steady_pure _

theorem stands_readShuffle {size size' : ℕ} (longer : size ≤ size') (data extra : Bytes) :
    Stands (readShuffle G size) (readShuffle G size') data extra := by
  unfold readShuffle
  simp only [ExceptT.bind_throw]
  refine (steady_word data extra).bind fun w rest => ?_
  have room : size / (2 * G.scalarBytes + 2 * G.elementBytes)
      ≤ size' / (2 * G.scalarBytes + 2 * G.elementBytes) := Nat.div_le_div_right longer
  refine stands_count (fun few => ?_) (by decide) fun _ => ?_
  · simp only [Bool.or_eq_true, decide_eq_true_eq] at few ⊢
    omega
  · have scalars := steady_times (steady_scalar G) w.toNat
    have elements := steady_times (steady_element G) w.toNat
    have steady := (steady_scalar G).bind fun challenge => (steady_scalar G).bind fun s1 =>
      (steady_scalar G).bind fun s2 => (steady_scalar G).bind fun s3 =>
      (steady_scalar G).bind fun s4 => scalars.bind fun sHat => scalars.bind fun sTilde =>
      elements.bind fun commitment => elements.bind fun chain => steady_pure
        ({ challenge, s1, s2, s3, s4, sHat, sTilde, commitment, chain } : Shuffle.CompleteProof)
    exact steady rest extra

theorem steady_readShare : Steady (readShare G) :=
  steady_word.bind fun _ => (steady_element G).bind fun _ =>
    steady_readLogEquality.bind fun _ => steady_pure _

/-! ## Formats -/

/-- A blob that is accepted is refused as too short wherever it is cut, and as too long whatever is
added to it. -/
structure Format.Delimited {α : Type} (F : Format α) : Prop where
  cut : ∀ b a data, F.decode b = .ok a → data <+: b → data ≠ b →
    ∃ fault ∈ tooShort, F.decode data = .error (.argument fault)
  prolonged : ∀ b a data, F.decode b = .ok a → b <+: data → data ≠ b →
    F.decode data = .error (.argument .trailingBytes)

section Whole

variable {α : Type} {reader : Reader α} {data rest : Bytes}

theorem Reader.whole_eq (reader : Reader α) (data : Bytes) :
    reader.whole data = (outcome (reader >>= fun a => finish >>= fun _ => pure a) data).1 := rfl

/-- A reader that fails refuses the blob. -/
theorem Reader.whole_of_error {e : Error} (refused : (outcome reader data).1 = .error e) :
    reader.whole data = .error e := by
  rw [whole_eq, outcome_bind]
  rcases hrun : outcome reader data with ⟨_ | a, rest⟩
  · rw [hrun] at refused
    exact congrArg _ (Except.error.inj refused)
  · rw [hrun] at refused
    cases refused

/-- A reader that leaves something refuses the blob. -/
theorem Reader.whole_of_rest {a : α} (read : outcome reader data = (.ok a, rest))
    (more : rest ≠ []) : reader.whole data = .error (.argument .trailingBytes) := by
  obtain ⟨b, rest, rfl⟩ := List.exists_cons_of_ne_nil more
  rw [whole_eq, outcome_bind, read]
  rfl

/-- It is enough that what is read of a blob stands on each longer blob. -/
theorem Format.delimited_of_stands {F : Format α} (reader : ℕ → Reader α)
    (reads : ∀ b, F.decode b = (reader b.length).whole b)
    (stands : ∀ data extra,
      Stands (reader data.length) (reader (data ++ extra).length) data extra) :
    F.Delimited where
  cut := by
    rintro _ a data decoded ⟨extra, rfl⟩ proper
    rw [reads] at decoded ⊢
    rcases stands data extra with ⟨fault, length, refused⟩ | same
    · exact ⟨fault, length, whole_of_error refused⟩
    · have read : outcome (reader (data ++ extra).length) (data ++ extra) = (.ok a, []) :=
        whole_eq_ok_iff.1 decoded
      rw [read, Prod.mk.injEq] at same
      have none := (List.append_eq_nil_iff.1 same.2.symm).2
      rw [none, List.append_nil] at proper
      exact absurd rfl proper
  prolonged := by
    rintro b a _ decoded ⟨extra, rfl⟩ proper
    rw [reads] at decoded ⊢
    have read : outcome (reader b.length) b = (.ok a, []) := whole_eq_ok_iff.1 decoded
    have more : extra ≠ [] := by
      rintro rfl
      exact proper (List.append_nil b)
    rcases stands b extra with ⟨fault, -, refused⟩ | same
    · rw [read] at refused
      cases refused
    · rw [read] at same
      exact whole_of_rest same more

end Whole

/-- Every format is delimited: whatever is missing at the end of a blob that would be accepted, it
is refused as too short, before any element or scalar can be refused, and whatever is added to it,
it is refused for its trailing bytes. -/
theorem formats_delimited (G : Group) :
    (elementFormat G).Delimited ∧ (scalarFormat G).Delimited ∧ (ciphertextFormat G).Delimited ∧
      (ciphertextsFormat G).Delimited ∧ (elementsFormat G).Delimited ∧
      (reencryptionFormat G).Delimited ∧ (logEqualityFormat G).Delimited ∧
      (shuffleFormat G).Delimited ∧ (shareFormat G).Delimited := by
  have steady {α : Type} {F : Format α} (reader : Reader α)
      (reads : ∀ b, F.decode b = reader.whole b) (h : Steady reader) : F.Delimited :=
    Format.delimited_of_stands (fun _ => reader) reads h
  have longer (data extra : Bytes) : data.length ≤ (data ++ extra).length := by simp
  exact ⟨steady _ (fun _ => rfl) (steady_element G), steady _ (fun _ => rfl) (steady_scalar G),
    steady _ (fun _ => rfl) steady_readCiphertext,
    Format.delimited_of_stands (readCiphertexts G) (fun _ => rfl) fun data extra =>
      stands_readCiphertexts (longer data extra) data extra,
    steady _ (fun _ => rfl) (steady_elements G), steady _ (fun _ => rfl) steady_readReencryption,
    steady _ (fun _ => rfl) steady_readLogEquality,
    Format.delimited_of_stands (readShuffle G) (fun _ => rfl) fun data extra =>
      stands_readShuffle (longer data extra) data extra,
    steady _ (fun _ => rfl) steady_readShare⟩

/-- Two elements behind their count, the same cut in the count and in the last element, and with one
byte more. -/
theorem formats_delimited_least :
    decodeElements Group.least [0, 0, 0, 2, 0, 0, 0, 4, 0, 0, 0, 16] = .ok [4, 16] ∧
      (∃ fault ∈ tooShort, decodeElements Group.least [0, 0, 0] = .error (.argument fault)) ∧
      (∃ fault ∈ tooShort, decodeElements Group.least [0, 0, 0, 2, 0, 0, 0, 4, 0, 0, 0]
        = .error (.argument fault)) ∧
      decodeElements Group.least [0, 0, 0, 2, 0, 0, 0, 4, 0, 0, 0, 16, 0]
        = .error (.argument .trailingBytes) := by
  obtain ⟨-, -, -, -, elements, -⟩ := formats_delimited Group.least
  have decoded : (elementsFormat Group.least).decode [0, 0, 0, 2, 0, 0, 0, 4, 0, 0, 0, 16]
      = .ok [4, 16] := by decide +kernel
  exact ⟨decoded, elements.cut _ _ [0, 0, 0] decoded (by decide) (by decide),
    elements.cut _ _ [0, 0, 0, 2, 0, 0, 0, 4, 0, 0, 0] decoded (by decide) (by decide),
    elements.prolonged _ _ [0, 0, 0, 2, 0, 0, 0, 4, 0, 0, 0, 16, 0] decoded (by decide) (by decide)⟩

end BallotMix.Wire
