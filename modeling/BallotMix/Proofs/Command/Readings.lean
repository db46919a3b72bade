import BallotMix.Proofs.Command.Commands
import BallotMix.Proofs.Command.Numerals
import BallotMix.Proofs.ElGamal.JointKeys
import BallotMix.Proofs.Group.Preset
import BallotMix.Proofs.Hex.Reading
import Mathlib

/-!
# What votes and shares are read from

A command that casts a vote or contributes a share makes one line from its arguments and its draw,
or fails before it prints.  The vote, and the place of a share, are what the numeral at the front of
the argument is read as (`ReadsAs`), whatever stands behind it.  The secret of a share is read to
the last character (`call_reads_numerals`).
-/

namespace BallotMix.Command

open Draw Sharing

variable {σ : Type}

/-! ## Commands of one line -/

/-- Makes a line and prints it. -/
def printMade (d : Draw σ String) : Run σ UInt32 := do
  printLine (← draw d)
  pure 0

/-- What a call leaves that prints a line when it has it. -/
def Outcome.ofLine : Result String → Outcome
  | .ok line => .printing [line]
  | .error e => ⟨1, "", failureText e⟩

theorem call_eq_ofLine [Source σ] {arguments : List String} {d : Draw σ String}
    (made : (perform (arguments.map beforeNul) : Run σ UInt32) = printMade d) (source : σ) :
    call arguments source = .ofLine (d.run source : Result String × σ).1 := by
  unfold call
  rw [made]
  dsimp only
  rw [printMade, run_bind, run_draw]
  rcases (d.run source : Result String × σ) with ⟨_ | line, t⟩
  · show Outcome.mk 1 "" ("" ++ failureText _) = _
    rw [String.empty_append]
    rfl
  · show Outcome.mk 0 ("" ++ line ++ "\n") "" = .printing [line]
    rw [String.empty_append, Outcome.printing, unlines_singleton]

variable {d : Draw σ String} {source : σ}

theorem ofLine_of_returns {P : String → Prop} (h : ∀ line s', d.Returns source line s' → P line) :
    (∃ e, Outcome.ofLine (d.run source : Result String × σ).1 = ⟨1, "", failureText e⟩) ∨
      ∃ line, Outcome.ofLine (d.run source : Result String × σ).1 = .printing [line] ∧ P line := by
  cases made : (d.run source : Result String × σ).1 with
  | error e => exact .inl ⟨e, rfl⟩
  | ok line =>
    obtain ⟨s', returned⟩ := run_eq_ok_iff.1 made
    exact .inr ⟨line, rfl, h line s' returned⟩

theorem exit_ofLine : (Outcome.ofLine (d.run source : Result String × σ).1).exit = 0 ↔
    ∃ line s', d.Returns source line s' := by
  rw [exists_returns_iff]
  cases (d.run source : Result String × σ).1 with
  | ok line => exact iff_of_true rfl rfl
  | error e => simp [Outcome.ofLine, Except.isOk, Except.toBool]

variable {G : Group}

/-! ## Votes -/

/-- The line that a vote is printed as. -/
def ballotLine [Source σ] (G : Group) (key value : String) : Draw σ String := do
  let pk ← keyArgument G key
  let m ← G.encodeExponential (← valueArgument value)
  let c ← G.encryptFresh pk (some m)
  blobText (Wire.encodeCiphertext G c.toCiphertext)

theorem encrypt_eq [Source σ] (key value : String) :
    (encrypt G [key, value] : Run σ UInt32) = printMade (ballotLine G key value) := by
  simp only [encrypt, printMade, ballotLine, draw_bind, draw_liftM, bind_assoc]

/-- The line is a ciphertext.  The key has a secret key, and with each that it has the ciphertext is
opened to the power of the generator. -/
def Opens (G : Group) (pk : PublicKey) (line : String) (v : ℕ) : Prop :=
  ∃ ct, ciphertextArgument G line = .ok ct ∧ (∃ x, G.derivePublicKey ⟨some x⟩ = .ok pk) ∧
    ∀ x, G.derivePublicKey ⟨some x⟩ = .ok pk → G.decrypt ⟨some x⟩ ct = .ok (G.g ^ v % G.p)

variable [accepted : G.Accepted]

theorem opens_ballotText {y : ZMod G.q} (hy : y ≠ 0) (v : ℕ) (a : ZMod G.q) :
    Opens G ⟨some (G.element y)⟩ (ballotText G ((0, (v : ZMod G.q)) + Group.blind y a)) v := by
  refine ⟨_, ciphertextArgument_ballotText G _, ⟨_, G.derivePublicKey_scalar hy⟩, ?_⟩
  intro x derived
  obtain ⟨-, rfl⟩ := G.derivePublicKey_eq_ok_iff.1 derived
  have power : ((G.g ^ v : ℤ) : ZMod G.p) = G.residue v := by
    rw [G.residue_natCast, Int.cast_pow]
  rw [G.decrypt_cipherOf, G.cast_scalar, Group.plainLog_add_blind, G.emod_eq_element power]
  simp [Group.plainLog]

/-- The keys that are let through have an exponent other than zero. -/
theorem exists_of_keyArgument {text : String} {pk : PublicKey} (h : keyArgument G text = .ok pk) :
    ∃ y ≠ 0, pk = ⟨some (G.element y)⟩ := by
  obtain ⟨x, -, checked⟩ := Result.bind_eq_ok_iff.1 h
  obtain ⟨_, member, same⟩ := Result.bind_eq_ok_iff.1 checked
  obtain ⟨y, hy, -, rfl⟩ := G.ensureKey_eq_ok_iff.1 member
  exact ⟨y, hy, (Except.ok.inj same).symm⟩

/-- A line is made exactly of a key, a numeral and a nonce. -/
theorem ballotLine_returns_iff [Source σ] {key value line : String} {s s' : σ} :
    (ballotLine G key value).Returns s line s' ↔
      ∃ y ≠ 0, keyArgument G key = .ok ⟨some (G.element y)⟩ ∧ ∃ v, ReadsAs value.toList v ∧
        ∃ a ≠ 0, G.randomExponent.Returns s (G.scalar a) s' ∧
          line = ballotText G ((0, (v : ZMod G.q)) + Group.blind y a) := by
  simp only [ballotLine, returns_bind_iff, returns_liftM_iff, G.encodeExponential_eq,
    Except.ok.injEq]
  constructor
  · rintro ⟨pk, _, ⟨keyed, rfl⟩, w, _, ⟨read, rfl⟩, _, _, ⟨rfl, rfl⟩, c, _, made, text, rfl⟩
    obtain ⟨y, hy, rfl⟩ := exists_of_keyArgument keyed
    obtain ⟨a, ha, drawn, rfl⟩ := (encryptFresh_returns_iff hy).1 made
    rw [encodeCiphertext_pairOf] at text
    exact ⟨y, hy, keyed, w.toNat, numeral_eq_ok_iff.1 read, a, ha, drawn, (Except.ok.inj text).symm⟩
  · rintro ⟨y, hy, keyed, _, reads, a, ha, drawn, rfl⟩
    obtain ⟨w, rfl⟩ := reads.exists_word
    exact ⟨_, _, ⟨keyed, rfl⟩, w, _, ⟨numeral_eq_ok_iff.2 reads, rfl⟩, _, _, ⟨rfl, rfl⟩, _, _,
      (encryptFresh_returns_iff hy).2 ⟨a, ha, drawn, rfl⟩, encodeCiphertext_pairOf G _, rfl⟩

theorem exists_ballotLine_iff [Source σ] {key value : String} {s : σ} :
    (∃ line s', (ballotLine G key value).Returns s line s') ↔ (∃ v, ReadsAs value.toList v) ∧
      (∃ pk, keyArgument G key = .ok pk) ∧ ∃ r s', G.randomExponent.Returns s r s' := by
  constructor
  · rintro ⟨line, s', returned⟩
    obtain ⟨y, -, keyed, v, reads, a, -, drawn, -⟩ := ballotLine_returns_iff.1 returned
    exact ⟨⟨v, reads⟩, ⟨_, keyed⟩, _, _, drawn⟩
  · rintro ⟨⟨v, reads⟩, ⟨pk, keyed⟩, r, s', drawn⟩
    obtain ⟨y, hy, rfl⟩ := exists_of_keyArgument keyed
    obtain ⟨a, ha, rfl⟩ := G.randomExponent_returns drawn
    exact ⟨_, s', ballotLine_returns_iff.2 ⟨y, hy, keyed, v, reads, a, ha, drawn, rfl⟩⟩

/-! ## Shares -/

/-- The text of a share: a numeral for its place, and behind a colon its secret. -/
def IsShareText (text : List Char) (v : ℕ) : Prop :=
  ∃ place secret, text = place ++ ':' :: secret ∧ ':' ∉ place ∧ ReadsAs place v ∧
    Hex.IsNumeral secret

theorem exists_shareArgument_iff {text : String} {v : ℕ} :
    (∃ share, shareArgument G text = .ok share ∧ share.index.toNat = v) ↔
      IsShareText text.toList v := by
  simp only [shareArgument_eq_ok_iff, IsShareText]
  constructor
  · rintro ⟨share, ⟨place, secret, x, written, before, reads, hx, -⟩, rfl⟩
    have digits := Hex.exists_number_iff.1 ⟨x, hx⟩
    rw [String.toList_ofList] at digits
    exact ⟨place, secret, written, before, reads, digits⟩
  · rintro ⟨place, secret, written, before, reads, digits⟩
    obtain ⟨w, rfl⟩ := reads.exists_word
    rw [← String.toList_ofList (l := secret)] at digits
    obtain ⟨x, hx⟩ := Hex.exists_number_iff.2 digits
    exact ⟨⟨w, some x, some (G.element x.natAbs)⟩,
      ⟨place, secret, x, written, before, reads, hx, rfl⟩, rfl⟩

theorem exists_of_ciphertextArgument {text : String} {ct : Ciphertext}
    (h : ciphertextArgument G text = .ok ct) : ∃ c, ct = G.cipherOf c := by
  obtain ⟨data, -, read⟩ := Result.bind_eq_ok_iff.1 h
  obtain ⟨p, decoded, same⟩ := Result.bind_eq_ok_iff.1 read
  obtain rfl := Except.ok.inj same
  obtain ⟨fits, -⟩ := (Wire.ciphertextFormat_spelled G).decode_iff.1 decoded
  have members : G.Members [some p.c1, some p.c2] := fits _ List.mem_cons_self
  simp only [Group.members_cons] at members
  obtain ⟨c, rfl⟩ := G.exists_pairOf members.1 members.2.1
  exact ⟨c, rfl⟩

/-- The line that a contribution is printed as. -/
def contributionLine [Source σ] (G : Group) (domain : Bytes) (share ct : String) :
    Draw σ String := do
  let share ← shareArgument G share
  let ct ← ciphertextArgument G ct
  let contribution ← partialDecrypt G share ct domain
  blobText (Wire.encodeShare G contribution)

omit accepted in
theorem partialDecryption_eq [Source σ] (domain : Bytes) (share ct : String) :
    (partialDecryption G domain [share, ct] : Run σ UInt32)
      = printMade (contributionLine G domain share ct) := by
  simp only [partialDecryption, printMade, contributionLine, draw_bind, draw_liftM, bind_assoc]

/-- A line is made exactly of a share with a place in 32 bits, a ciphertext and a nonce. -/
theorem contributionLine_returns_iff [Source σ] {domain : Bytes} {share ct line : String}
    {s s' : σ} :
    (contributionLine G domain share ct).Returns s line s' ↔
      ∃ k c contribution, shareArgument G share = .ok k ∧ ciphertextArgument G ct = .ok c ∧
        (partialDecrypt G k c domain).Returns s contribution s' ∧ k.index.toNat < 2 ^ 32 ∧
          line = contributionText G contribution := by
  simp only [contributionLine, returns_bind_iff, returns_liftM_iff]
  constructor
  · rintro ⟨k, _, ⟨shared, rfl⟩, c, _, ⟨given, rfl⟩, contribution, _, run, text, rfl⟩
    obtain ⟨data, written, -⟩ := Result.bind_eq_ok_iff.1 text
    obtain ⟨small, -⟩ := Result.ite_error_eq_ok_iff.1 written
    rw [index_of_partialDecrypt run, not_le] at small
    obtain ⟨-, text'⟩ := encodeShare_of_partialDecrypt run small
    rw [text', Except.ok.injEq] at text
    exact ⟨k, c, contribution, shared, given, run, small, text.symm⟩
  · rintro ⟨k, c, contribution, shared, given, run, small, rfl⟩
    obtain ⟨-, text⟩ := encodeShare_of_partialDecrypt run small
    exact ⟨k, _, ⟨shared, rfl⟩, c, _, ⟨given, rfl⟩, contribution, _, run, text, rfl⟩

theorem exists_contributionLine_iff [Source σ] {domain : Bytes} {share ct : String} {s : σ} :
    (∃ line s', (contributionLine G domain share ct).Returns s line s') ↔
      (∃ v < 2 ^ 32, IsShareText share.toList v) ∧ (∃ c, ciphertextArgument G ct = .ok c) ∧
        ∃ r s', G.randomExponent.Returns s r s' := by
  simp only [contributionLine_returns_iff]
  constructor
  · rintro ⟨line, s', k, c, contribution, shared, given, run, small, -⟩
    refine ⟨⟨_, small, exists_shareArgument_iff.1 ⟨k, shared, rfl⟩⟩, ⟨c, given⟩, ?_⟩
    simp only [partialDecrypt, returns_bind_iff, returns_liftM_iff, returns_pure_iff,
      LogEquality.prove_returns_iff] at run
    obtain ⟨_, _, ⟨-, rfl⟩, _, _, ⟨-, rfl⟩, _, _, ⟨-, rfl⟩, _, _, ⟨-, rfl⟩, _, _,
      ⟨-, r, drawn, -⟩, -⟩ := run
    exact ⟨r, _, drawn⟩
  · rintro ⟨⟨v, small, text⟩, ⟨ct, given⟩, r, s', drawn⟩
    obtain ⟨k, shared, rfl⟩ := (exists_shareArgument_iff (G := G)).2 text
    obtain ⟨c, rfl⟩ := exists_of_ciphertextArgument given
    obtain ⟨_, _, x, -, -, -, -, same⟩ := shareArgument_eq_ok_iff.1 shared
    obtain ⟨contribution, run⟩ :=
      exists_partialDecrypt k.index x (x.natAbs : ZMod G.q) c domain drawn
    rw [← same] at run
    exact ⟨_, s', k, _, contribution, shared, given, run, small, rfl⟩

/-! ## Calls -/

/-- A vote is read from the front of its text, and so is the place of a share.  A call that casts a
vote fails, or its text is read as a number and the line printed opens to the power of the generator
to this number; it succeeds whenever the text is read, the key is in order and the draw is answered.
A call that contributes a share fails, or its text is that of a share and the contribution printed
carries the number that the place is read as; it succeeds whenever this number takes 32 bits, the
ciphertext is in order and the draw is answered.  A text of digits is read as the number that they
write. -/
theorem call_reads_numerals [Source σ] {arguments : List String} {settings : Settings}
    (set : Settings.ofArguments (arguments.map beforeNul) Settings.initial = .ok settings)
    (loaded : Group.preset settings.preset = .ok G) (source : σ) :
    (∀ key value, settings.command = ["encrypt", key, value] →
      ((∃ e, call arguments source = ⟨1, "", failureText e⟩) ∨
        ∃ line, call arguments source = .printing [line] ∧ ∃ v pk, ReadsAs value.toList v ∧
          keyArgument G key = .ok pk ∧ Opens G pk line v) ∧
      ((call arguments source).exit = 0 ↔ (∃ v, ReadsAs value.toList v) ∧
        (∃ pk, keyArgument G key = .ok pk) ∧ ∃ r s', G.randomExponent.Returns source r s')) ∧
    (∀ share ct, settings.command = ["partial", share, ct] →
      ((∃ e, call arguments source = ⟨1, "", failureText e⟩) ∨
        ∃ line, call arguments source = .printing [line] ∧ ∃ v contribution,
          IsShareText share.toList v ∧ Hex.bytes line >>= Wire.decodeShare G = .ok contribution ∧
            contribution.index.toNat = v) ∧
      ((call arguments source).exit = 0 ↔ (∃ v < 2 ^ 32, IsShareText share.toList v) ∧
        (∃ c, ciphertextArgument G ct = .ok c) ∧ ∃ r s', G.randomExponent.Returns source r s')) ∧
    ∀ digits v, digits ≠ [] → (∀ c ∈ digits, c.isDigit = true) →
      (ReadsAs digits v ↔ v = Nat.ofDigitChars 10 digits 0 ∧ v < 2 ^ 64) := by
  refine ⟨fun key value named => ?_, fun share ct named => ?_,
    fun _ _ nonempty digit => readsAs_digits_iff nonempty digit⟩
  · have made : (perform (arguments.map beforeNul) : Run σ UInt32)
        = printMade (ballotLine G key value) := by
      rw [perform_of_settings set named loaded]
      exact encrypt_eq key value
    rw [call_eq_ofLine made]
    refine ⟨ofLine_of_returns fun line s' returned => ?_, exit_ofLine.trans exists_ballotLine_iff⟩
    obtain ⟨y, hy, keyed, v, reads, a, -, -, rfl⟩ := ballotLine_returns_iff.1 returned
    exact ⟨v, _, reads, keyed, opens_ballotText hy v a⟩
  · have made : (perform (arguments.map beforeNul) : Run σ UInt32)
        = printMade (contributionLine G settings.options.domain share ct) := by
      rw [perform_of_settings set named loaded]
      exact partialDecryption_eq _ share ct
    rw [call_eq_ofLine made]
    refine ⟨ofLine_of_returns fun line s' returned => ?_,
      exit_ofLine.trans exists_contributionLine_iff⟩
    obtain ⟨k, c, contribution, shared, -, run, small, rfl⟩ :=
      contributionLine_returns_iff.1 returned
    obtain ⟨fits, -⟩ := encodeShare_of_partialDecrypt run small
    exact ⟨_, contribution, exists_shareArgument_iff.1 ⟨k, shared, rfl⟩,
      decodeShare_contributionText fits, by rw [index_of_partialDecrypt run]⟩

set_option maxRecDepth 100000 in
/-- In the set `sm`, a letter typed for a digit leaves the vote that stands in front of it. -/
theorem call_reads_numerals_mistyped :
    let source : Tape := ⟨List.replicate 6 1⟩
    (∃ line, call ["--params", "sm", "encrypt", "04", "1O"] source = .printing [line] ∧
      Opens Group.small ⟨some 4⟩ line 1) ∧
    ∃ line contribution,
      call ["--params", "sm", "partial", "2x:01", "000000000004000000000004"] source
        = .printing [line] ∧
      Hex.bytes line >>= Wire.decodeShare Group.small = .ok contribution ∧
        contribution.index.toNat = 2 := by
  intro source
  have drawn : ∃ r s', Group.small.randomExponent.Returns source r s' :=
    exists_returns_iff.2 (by decide +kernel)
  constructor
  · have set : Settings.ofArguments
        (["--params", "sm", "encrypt", "04", "1O"].map beforeNul) Settings.initial
        = .ok ⟨"sm", ⟨[], 1⟩, ["encrypt", "04", "1O"]⟩ := rfl
    have read : valueArgument "1O" = .ok 1 := by decide
    have keyed : keyArgument Group.small "04" = .ok ⟨some 4⟩ := by decide +kernel
    obtain ⟨votes, -⟩ := call_reads_numerals set Group.preset_small source
    obtain ⟨⟨e, failed⟩ | ⟨line, printed, v, pk, reads, keyed', opens⟩, succeeds⟩ :=
      votes "04" "1O" rfl
    · have exit := succeeds.2 ⟨⟨1, numeral_eq_ok_iff.1 read⟩, ⟨_, keyed⟩, drawn⟩
      rw [failed] at exit
      cases exit
    · obtain rfl := reads.eq_of_numeral read
      obtain rfl := Except.ok.inj (keyed.symm.trans keyed')
      exact ⟨line, printed, opens⟩
  · have set : Settings.ofArguments
        (["--params", "sm", "partial", "2x:01", "000000000004000000000004"].map beforeNul)
        Settings.initial
        = .ok ⟨"sm", ⟨[], 1⟩, ["partial", "2x:01", "000000000004000000000004"]⟩ := rfl
    have shared : shareArgument Group.small "2x:01" = .ok ⟨2, some 1, some 4⟩ := by
      decide +kernel
    have given : ciphertextArgument Group.small "000000000004000000000004"
        = .ok ⟨some 4, some 4⟩ := by decide +kernel
    obtain ⟨-, contributions, -⟩ := call_reads_numerals set Group.preset_small source
    obtain ⟨⟨e, failed⟩ | ⟨line, printed, v, contribution, text, decoded, rfl⟩, succeeds⟩ :=
      contributions "2x:01" "000000000004000000000004" rfl
    · have exit := succeeds.2 ⟨⟨2, by decide, exists_shareArgument_iff.1 ⟨_, shared, rfl⟩⟩,
        ⟨_, given⟩, drawn⟩
      rw [failed] at exit
      cases exit
    · obtain ⟨k, shared', index⟩ := (exists_shareArgument_iff (G := Group.small)).2 text
      obtain rfl := Except.ok.inj (shared.symm.trans shared')
      exact ⟨line, contribution, printed, decoded, index.symm⟩

/-- A letter typed behind a one is not noticed: the ballot is that for the vote one.  Nor is a
letter behind the place of a share. -/
theorem call_takes_mistyped_numerals :
    (¬ ∀ c ∈ "1O".toList, c.isDigit = true) ∧
      (¬ ∀ c ∈ "2x:01".toList.takeWhile (· ≠ ':'), c.isDigit = true) ∧
      call ["--params", "sm", "encrypt", "04", "1O"] (⟨List.replicate 6 1⟩ : Tape)
        = ⟨0, "4dccfd8dde9d7f52a4d4e14d\n", ""⟩ ∧
      call ["--params", "sm", "encrypt", "04", "1"] (⟨List.replicate 6 1⟩ : Tape)
        = ⟨0, "4dccfd8dde9d7f52a4d4e14d\n", ""⟩ ∧
      (call ["--params", "sm", "partial", "2x:01", "000000000004000000000004"]
        (⟨List.replicate 6 1⟩ : Tape)).exit = 0 := by
  refine ⟨by simp, by simp, ?_⟩
  decide +kernel

end BallotMix.Command
