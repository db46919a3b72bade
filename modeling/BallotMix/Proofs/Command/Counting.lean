import BallotMix.Proofs.Command.Calls
import BallotMix.Proofs.Group.Preset
import Mathlib

/-!
# Counts of arguments

The verifier of a shuffle is told how many ciphertexts stand on each side, and then reads as many
arguments.  The number of arguments is compared with twice the count in 64-bit arithmetic, where two
counts have the same double (`countFits_iff`).  With a count below `2 ^ 63` the command reads exactly the
arguments that are there; with another it can be led past the last of them
(`perform_verifyShuffle_eq`).  A verdict is given on the right number of ciphertexts only.
-/

namespace BallotMix.Command

open Draw

/-! ## Reading at places -/

/-- What there is from a place on is read; a count that goes further fails then. -/
theorem ciphertextsAt_eq (G : Group) (arguments : List String) (i n : ℕ) :
    ciphertextsAt G arguments i n = (do
      let cts ← ((arguments.drop i).take n).mapM (ciphertextArgument G)
      if n ≤ arguments.length - i then pure cts else throw (.argument .missingArgument)) := by
  induction n generalizing i with
  | zero => rfl
  | succ n ih =>
    rcases lt_or_ge i arguments.length with inside | outside
    · have more : n + 1 ≤ arguments.length - i ↔ n ≤ arguments.length - (i + 1) := by omega
      rw [ciphertextsAt, ih, argumentAt, List.getElem?_eq_getElem inside,
        ← List.getElem_cons_drop inside, List.take_succ_cons, List.mapM_cons]
      simp only [Result.ok_bind, bind_assoc, pure_bind, more]
      refine Result.bind_congr_of_ok fun ct _ => Result.bind_congr_of_ok fun cts _ => ?_
      split
      · rfl
      · rfl
    · have short : ¬ n + 1 ≤ arguments.length - i := by omega
      rw [ciphertextsAt, argumentAt, List.getElem?_eq_none outside, List.drop_of_length_le outside,
        List.take_nil, List.mapM_nil, pure_bind, if_neg short]
      rfl

/-- Arguments at places that all exist. -/
theorem ciphertextsAt_of_le (G : Group) {arguments : List String} {i n : ℕ}
    (inside : i + n ≤ arguments.length) :
    ciphertextsAt G arguments i n
      = ((arguments.drop i).take n).mapM (ciphertextArgument G) := by
  rw [ciphertextsAt_eq]
  simp only [if_pos (show n ≤ arguments.length - i by omega), bind_pure]

/-! ## The test of the count -/

/-- Twice a count modulo `2 ^ 64` is what a number of arguments is compared with. -/
theorem countFits_iff {m : ℕ} (few : m + 4 < 2 ^ 64) (n : UInt64) :
    countFits (m + 4) n = true ↔ m = 2 * n.toNat ∨ m + 2 ^ 64 = 2 * n.toNat := by
  have below := n.toNat_lt
  rw [countFits, decide_eq_true_eq, ← UInt64.toNat_inj, UInt64.toNat_ofNat_of_lt' few,
    UInt64.toNat_add, UInt64.toNat_mul, show (4 : UInt64).toNat = 4 from rfl,
    show (2 : UInt64).toNat = 2 from rfl]
  omega

variable {σ : Type} {G : Group}

/-- The command behind its key and its proof, with the count as a number. -/
def verifyCounted (G : Group) (options : Shuffle.Options) (pk : PublicKey)
    (proof : Shuffle.CompleteProof) (n : ℕ) (cts : List String) : Run σ UInt32 :=
  if cts.length = 2 * n then do
    let inputs ← ((cts.take n).mapM (ciphertextArgument G) : Result (List Ciphertext))
    let outputs ← ((cts.drop n).mapM (ciphertextArgument G) : Result (List Ciphertext))
    verdict (← Shuffle.verify G pk inputs outputs proof.toProof options)
  else if cts.length + 2 ^ 64 = 2 * n then do
    let _ ← (cts.mapM (ciphertextArgument G) : Result (List Ciphertext))
    throw (.argument .missingArgument)
  else throw (.argument (.commandShape "verify-shuffle: expected 2n ciphertexts"))

theorem read_eq_verifyCounted (options : Shuffle.Options) (pk : PublicKey)
    (proof : Shuffle.CompleteProof) {n : UInt64} {cts : List String} (few : cts.length + 4 < 2 ^ 64) :
    (do
      expectArguments (countFits (cts.length + 4) n) "verify-shuffle: expected 2n ciphertexts"
      let inputs ← ciphertextsAt G cts 0 n.toNat
      let outputs ← ciphertextsAt G cts n.toNat n.toNat
      verdict (← Shuffle.verify G pk inputs outputs proof.toProof options) : Run σ UInt32)
      = verifyCounted G options pk proof n.toNat cts := by
  have below := n.toNat_lt
  have fits := countFits_iff few n
  unfold verifyCounted
  split
  case isTrue same =>
    have rest : (cts.drop n.toNat).take n.toNat = cts.drop n.toNat :=
      List.take_of_length_le (by rw [List.length_drop]; omega)
    rw [fits.2 (.inl same), ciphertextsAt_of_le G (by omega), ciphertextsAt_of_le G (by omega),
      List.drop_zero, rest]
    rfl
  case isFalse other =>
    split
    case isTrue wrapped =>
      -- Such a count is larger than the number of arguments: the inputs already take all of them.
      rw [fits.2 (.inr wrapped), ciphertextsAt_eq G cts 0, List.drop_zero,
        List.take_of_length_le (by omega)]
      cases cts.mapM (ciphertextArgument G) with
      | error e => rfl
      | ok vs =>
        have beyond : ¬ n.toNat ≤ cts.length - 0 := by omega
        rw [Result.ok_bind, if_neg beyond]
        rfl
    case isFalse neither =>
      have refused : countFits (cts.length + 4) n = false :=
        Bool.eq_false_iff.2 fun h => (fits.1 h).elim other neither
      rw [refused]
      rfl

/-- A call for the command carries it out with its count. -/
theorem perform_verifyShuffle [Source σ] {arguments : List String} {settings : Settings}
    (set : Settings.ofArguments arguments Settings.initial = .ok settings) {h blob count : String}
    {cts : List String} (named : settings.command = "verify-shuffle" :: h :: blob :: count :: cts)
    (few : settings.command.length < 2 ^ 64) (loaded : Group.preset settings.preset = .ok G)
    {n : UInt64} (counted : sizeArgument count = .ok n) :
    (perform arguments : Run σ UInt32) = (do
      let pk ← keyArgument G h
      let proof ← Wire.decodeShuffle G (← Hex.bytes blob)
      verifyCounted G settings.options pk proof n.toNat cts) := by
  have counts : cts.length + 4 < 2 ^ 64 := by rwa [named] at few
  rw [perform_of_settings set named loaded]
  show verifyShuffle G settings.options (h :: blob :: count :: cts) = _
  rw [verifyShuffle]
  refine bind_congr fun pk => bind_congr fun bytes => bind_congr fun proof => ?_
  rw [counted, liftM_ok_bind]
  exact read_eq_verifyCounted settings.options pk proof counts

/-! ## Within the arguments -/

variable {options : Shuffle.Options} {pk : PublicKey} {proof : Shuffle.CompleteProof} {n : ℕ}
  {cts : List String} {s s' : Session σ} {exit : UInt32}

theorem length_of_verifyCounted_returns
    (h : Returns (verifyCounted G options pk proof n cts) s exit s') : cts.length = 2 * n := by
  unfold verifyCounted at h
  split at h
  · assumption
  · split at h
    · obtain ⟨_, _, -, thrown⟩ := returns_bind_iff.1 h
      exact absurd thrown not_returns_throw
    · exact absurd h not_returns_throw

theorem verifyCounted_fails (other : cts.length ≠ 2 * n) (unwrapped : cts.length + 2 ^ 64 ≠ 2 * n)
    (s : Session σ) : Fails (verifyCounted G options pk proof n cts) s
      (.argument (.commandShape "verify-shuffle: expected 2n ciphertexts")) s := by
  rw [verifyCounted, if_neg other, if_neg unwrapped]
  exact fails_throw _ _

/-- A count whose double is too large by `2 ^ 64` leads past the last argument. -/
theorem verifyCounted_fails_of_wrapped (wrapped : cts.length + 2 ^ 64 = 2 * n) (s : Session σ) :
    Fails (verifyCounted G options pk proof n cts) s
      (match cts.mapM (ciphertextArgument G) with
        | .ok _ => .argument .missingArgument
        | .error e => e) s := by
  rw [verifyCounted, if_neg (by omega), if_pos wrapped]
  cases cts.mapM (ciphertextArgument G) with
  | error e => exact (fails_liftM rfl s).bind _
  | ok _ => exact Returns.bind_fails (returns_liftM_iff.2 ⟨rfl, rfl⟩) (fails_throw _ _)

/-- Behind its key and its proof the command goes on with its count. -/
theorem perform_verifyShuffle_of_read [Source σ] {arguments : List String} {settings : Settings}
    (set : Settings.ofArguments arguments Settings.initial = .ok settings) {h blob count : String}
    (named : settings.command = "verify-shuffle" :: h :: blob :: count :: cts)
    (few : settings.command.length < 2 ^ 64) (loaded : Group.preset settings.preset = .ok G)
    {n : UInt64} (counted : sizeArgument count = .ok n) (keyed : keyArgument G h = .ok pk)
    (decoded : Hex.bytes blob >>= Wire.decodeShuffle G = .ok proof) :
    (perform arguments : Run σ UInt32)
      = verifyCounted G settings.options pk proof n.toNat cts := by
  obtain ⟨bytes, digits, read⟩ := Result.bind_eq_ok_iff.1 decoded
  rw [perform_verifyShuffle set named few loaded counted, keyed, liftM_ok_bind, digits,
    liftM_ok_bind, read, liftM_ok_bind]

/-- The command is the one with its count as a number.  So a verdict is given on exactly as many
ciphertexts as twice the count.  If the count is below `2 ^ 63`, a call with another number of
arguments fails with the synopsis, and otherwise both lists are read at places that exist.  A count from
`2 ^ 63` on is refused so as well, unless its double is the number of arguments and `2 ^ 64`: then the
call fails at the first argument that is no ciphertext, or it goes on past the last of them. -/
theorem verifyShuffle_counts [Source σ] {arguments : List String} {settings : Settings}
    (set : Settings.ofArguments arguments Settings.initial = .ok settings) {h blob count : String}
    {cts : List String} (named : settings.command = "verify-shuffle" :: h :: blob :: count :: cts)
    (few : settings.command.length < 2 ^ 64) (loaded : Group.preset settings.preset = .ok G)
    {n : UInt64} (counted : sizeArgument count = .ok n) :
    (perform arguments : Run σ UInt32) = (do
      let pk ← keyArgument G h
      let proof ← Wire.decodeShuffle G (← Hex.bytes blob)
      verifyCounted G settings.options pk proof n.toNat cts) ∧
    (∀ (s : Session σ) exit s', Returns (perform arguments) s exit s' →
      cts.length = 2 * n.toNat) ∧
    ∀ pk proof, keyArgument G h = .ok pk → Hex.bytes blob >>= Wire.decodeShuffle G = .ok proof →
      (n.toNat < 2 ^ 63 →
        (∀ s : Session σ, Fails (perform arguments) s
          (.argument (.commandShape "verify-shuffle: expected 2n ciphertexts")) s) ∨
        cts.length = 2 * n.toNat ∧ ∀ i < n.toNat,
          ∃ a b, argumentAt cts i = .ok a ∧ argumentAt cts (n.toNat + i) = .ok b) ∧
      (2 ^ 63 ≤ n.toNat → ∀ s : Session σ, Fails (perform arguments) s
        (if cts.length + 2 ^ 64 = 2 * n.toNat then
          match cts.mapM (ciphertextArgument G) with
          | .ok _ => .argument .missingArgument
          | .error e => e
        else .argument (.commandShape "verify-shuffle: expected 2n ciphertexts")) s) := by
  have length : cts.length + 4 < 2 ^ 64 := by rwa [named] at few
  have performed := perform_verifyShuffle (σ := σ) set named few loaded counted
  refine ⟨performed, fun s exit s' returned => ?_, fun pk proof keyed decoded => ?_⟩
  · rw [performed] at returned
    obtain ⟨_, _, -, read⟩ := returns_bind_iff.1 returned
    obtain ⟨_, _, -, decoded⟩ := returns_bind_iff.1 read
    obtain ⟨_, _, -, rest⟩ := returns_bind_iff.1 decoded
    exact length_of_verifyCounted_returns rest
  · rw [perform_verifyShuffle_of_read set named few loaded counted keyed decoded]
    refine ⟨fun low => ?_, fun high s => ?_⟩
    · by_cases same : cts.length = 2 * n.toNat
      · have inside {i : ℕ} (hi : i < cts.length) : ∃ a, argumentAt cts i = .ok a :=
          ⟨cts[i], by rw [argumentAt, List.getElem?_eq_getElem hi]⟩
        refine .inr ⟨same, fun i hi => ?_⟩
        obtain ⟨a, first⟩ := inside (show i < cts.length by omega)
        obtain ⟨b, second⟩ := inside (show n.toNat + i < cts.length by omega)
        exact ⟨a, b, first, second⟩
      · exact .inl fun s => verifyCounted_fails same (by omega) s
    · split
      case isTrue wrapped => exact verifyCounted_fails_of_wrapped wrapped s
      case isFalse unwrapped => exact verifyCounted_fails (by omega) unwrapped s

/-- The text of a proof about one ciphertext in the set `sm`, with zeros for its scalars. -/
def smallProof : String :=
  "00000001" ++ String.join (List.replicate 7 "000000000000") ++
    String.join (List.replicate 2 "000000000001")

/-- The command on that proof, with a count and the ciphertexts behind it. -/
def smallCommand (count : String) (cts : List String) : List String :=
  ["verify-shuffle", "04", smallProof, count] ++ cts

set_option maxRecDepth 100000 in
/-- On two ciphertexts the count one gets a verdict and finds both, and the count two is refused.
Without any a count of `2 ^ 63` is let through, and an argument is missed. -/
theorem verifyShuffle_counts_small :
    let cts := ["000000000004000000000004", "000000000004000000000004"]
    let run (count : String) (cts : List String) : Run Tape UInt32 :=
      perform (["--params", "sm"] ++ smallCommand count cts)
    let s : Session Tape := ⟨⟨[]⟩, "", ""⟩
    (∃ exit s', Returns (run "1" cts) s exit s' ∧ cts.length = 2 * (1 : UInt64).toNat) ∧
    (∃ a b, argumentAt cts 0 = .ok a ∧ argumentAt cts 1 = .ok b) ∧
    Fails (run "2" cts) s (.argument (.commandShape "verify-shuffle: expected 2n ciphertexts")) s ∧
    Fails (run "9223372036854775808" []) s (.argument .missingArgument) s := by
  intro cts run s
  obtain ⟨proof, decoded⟩ : ∃ proof,
      Hex.bytes smallProof >>= Wire.decodeShuffle Group.small = .ok proof :=
    Result.exists_eq_ok_iff.2 (by decide +kernel)
  have keyed : keyArgument Group.small "04" = .ok ⟨some 4⟩ := by decide +kernel
  have one : sizeArgument "1" = .ok 1 := by decide +kernel
  have two : sizeArgument "2" = .ok 2 := by decide +kernel
  have wrapping : sizeArgument "9223372036854775808" = .ok 9223372036854775808 := by
    decide +kernel
  have setOne : Settings.ofArguments (["--params", "sm"] ++ smallCommand "1" cts) Settings.initial
      = .ok ⟨"sm", ⟨[], 1⟩, smallCommand "1" cts⟩ := rfl
  have setTwo : Settings.ofArguments (["--params", "sm"] ++ smallCommand "2" cts) Settings.initial
      = .ok ⟨"sm", ⟨[], 1⟩, smallCommand "2" cts⟩ := rfl
  have setWrapping : Settings.ofArguments (["--params", "sm"] ++ smallCommand "9223372036854775808" [])
      Settings.initial = .ok ⟨"sm", ⟨[], 1⟩, smallCommand "9223372036854775808" []⟩ := rfl
  obtain ⟨exit, s', returned⟩ : ∃ exit s', Returns (run "1" cts) s exit s' :=
    exists_returns_iff.2 (by decide +kernel)
  obtain ⟨-, verdict, right⟩ :=
    verifyShuffle_counts (σ := Tape) setOne rfl (by decide) Group.preset_small one
  obtain ⟨-, -, refused⟩ :=
    verifyShuffle_counts (σ := Tape) setTwo rfl (by decide) Group.preset_small two
  obtain ⟨-, -, wrapped⟩ :=
    verifyShuffle_counts (σ := Tape) setWrapping rfl (by decide) Group.preset_small wrapping
  refine ⟨⟨exit, s', returned, verdict s exit s' returned⟩, ?_, ?_, ?_⟩
  · obtain fails | ⟨-, found⟩ := (right ⟨some 4⟩ proof keyed decoded).1 (by decide)
    · exact absurd returned (fails s).not_returns
    · exact found 0 (by decide)
  · obtain fails | ⟨other, -⟩ := (refused ⟨some 4⟩ proof keyed decoded).1 (by decide)
    · exact fails s
    · exact absurd other (by decide)
  · exact (wrapped ⟨some 4⟩ proof keyed decoded).2 (by decide) s

set_option maxRecDepth 100000 in
/-- With `2 ^ 63 + 1` for a count, two arguments are let through: the first that is no ciphertext is
what the call fails at, and past two ciphertexts it would go on. -/
theorem verifyShuffle_misses_wrapped_count :
    sizeArgument "9223372036854775809" = .ok 9223372036854775809 ∧
      ["zz", "000000000004000000000004"].length ≠ 2 * (9223372036854775809 : UInt64).toNat ∧
      call ["--params", "sm", "verify-shuffle", "04", smallProof, "9223372036854775809", "zz",
        "000000000004000000000004"] (⟨[]⟩ : Tape) = ⟨1, "", "error: non-hex character\n"⟩ ∧
      ciphertextsAt Group.small ["000000000004000000000004", "000000000004000000000004"] 0
        (9223372036854775809 : UInt64).toNat = .error (.argument .missingArgument) := by
  decide +kernel

end BallotMix.Command
