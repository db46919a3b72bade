import BallotMix.Proofs.Command.Text
import BallotMix.Proofs.Sharing.Polynomial
import BallotMix.Proofs.Wire.Formats
import Mathlib

/-!
# Arguments that are read back

Every value has one text, which the command that makes it prints and the commands that take it read:
keys and secrets are written as numbers, places in decimal, and all else as the digits of a blob.
-/

namespace BallotMix.Command

open Sharing

variable (G : Group) [accepted : G.Accepted]

/-! ## Texts -/

def keyText (y : ZMod G.q) : String := Hex.ofNumber (G.element y)

def ballotText (c : ZMod G.q × ZMod G.q) : String := Hex.ofBytes (Wire.pairPiece G (G.cipherOf c))

def commitmentsText (as : List (ZMod G.q)) : String :=
  Hex.ofBytes (Wire.elementsPiece G (commitmentsOf G as).coefficients)

/-- The share of a place. -/
noncomputable def shareText (as : List (ZMod G.q)) (i : UInt64) : String :=
  decimal i ++ ":" ++ Hex.ofNumber (G.scalar (valueAt as i))

def proofText (proof : Shuffle.CompleteProof) : String :=
  Hex.ofBytes (Wire.shufflePiece G proof.toProof)

def contributionText (share : DecryptionShare) : String := Hex.ofBytes (Wire.sharePiece G share)

theorem isWord_keyText (y : ZMod G.q) : IsWord (keyText G y) :=
  isWord_ofNumber (G.element_bounds y).1.le

theorem isWord_ballotText (c : ZMod G.q × ZMod G.q) : IsWord (ballotText G c) := isWord_ofBytes _

theorem isWord_commitmentsText (as : List (ZMod G.q)) : IsWord (commitmentsText G as) :=
  isWord_ofBytes _

theorem isWord_shareText (as : List (ZMod G.q)) (i : UInt64) : IsWord (shareText G as i) :=
  ((isWord_decimal i).append isWord_colon).append (isWord_ofNumber (G.scalar_bounds _).1)

omit accepted in
theorem isWord_proofText (proof : Shuffle.CompleteProof) : IsWord (proofText G proof) :=
  isWord_ofBytes _

omit accepted in
theorem isWord_contributionText (share : DecryptionShare) : IsWord (contributionText G share) :=
  isWord_ofBytes _

/-! ## Printing and reading -/

/-- A value that fits is printed as the digits of its piece. -/
theorem blobText_encode {α : Type} {F : Wire.Format α} {piece : α → Bytes}
    (spelled : F.Spelled piece) {a : α} (fits : F.Fits a) :
    blobText (F.encode a) = .ok (Hex.ofBytes (piece a)) :=
  blobText_eq (spelled.encode_eq fits)

theorem keyArgument_keyText {y : ZMod G.q} (hy : y ≠ 0) :
    keyArgument G (keyText G y) = .ok ⟨some (G.element y)⟩ := by
  have read := Hex.number_ofNumber (G.element_bounds y).1.le
  rw [keyArgument, keyText, read, Result.ok_bind, G.ensureKey_element hy]
  rfl

theorem fits_pairOf (c : ZMod G.q × ZMod G.q) : (Wire.ciphertextFormat G).Fits (G.pairOf c) := by
  intro ct hct
  rw [List.mem_singleton] at hct
  subst hct
  exact Group.members_cons.2 ⟨G.isMember_element c.1,
    Group.members_cons.2 ⟨G.isMember_element c.2, Group.members_nil⟩⟩

theorem encodeCiphertext_pairOf (c : ZMod G.q × ZMod G.q) :
    blobText (Wire.encodeCiphertext G (G.pairOf c).toCiphertext) = .ok (ballotText G c) :=
  blobText_encode (Wire.ciphertextFormat_spelled G) (fits_pairOf G c)

theorem ciphertextArgument_ballotText (c : ZMod G.q × ZMod G.q) :
    ciphertextArgument G (ballotText G c) = .ok (G.cipherOf c) := by
  have decoded : Wire.decodeCiphertext G (Wire.pairPiece G (G.cipherOf c)) = .ok (G.pairOf c) :=
    (Wire.ciphertextFormat_spelled G).decode_iff.2 ⟨fits_pairOf G c, rfl⟩
  rw [ciphertextArgument, ballotText, Hex.bytes_ofBytes, Result.ok_bind, decoded]
  rfl

/-- The colon that ends the place is the first. -/
theorem append_colon_iff {text place secret : List Char} :
    text = place ++ ':' :: secret ∧ ':' ∉ place ↔
      text.takeWhile (· ≠ ':') = place ∧ text.dropWhile (· ≠ ':') = ':' :: secret := by
  constructor
  · rintro ⟨rfl, before⟩
    have others : ∀ c ∈ place, decide (c ≠ ':') = true := by
      intro c hc
      rw [decide_eq_true_eq]
      rintro rfl
      exact before hc
    rw [List.takeWhile_append_of_pos others, List.dropWhile_append_of_pos others]
    simp
  · rintro ⟨rfl, rest⟩
    refine ⟨by rw [← rest, List.takeWhile_append_dropWhile], fun colon => ?_⟩
    simpa using List.mem_takeWhile_imp colon

variable {G} in
/-- A share is read from a numeral and, behind a colon, the number that is its secret. -/
theorem shareArgument_eq_ok_iff {text : String} {share : KeyShare} :
    shareArgument G text = .ok share ↔ ∃ place secret x, text.toList = place ++ ':' :: secret ∧
      ':' ∉ place ∧ ReadsAs place share.index.toNat ∧ Hex.number (String.ofList secret) = .ok x ∧
        share = ⟨share.index, some x, some (G.element x.natAbs)⟩ := by
  unfold shareArgument
  dsimp only
  cases rest : text.toList.dropWhile (· ≠ ':') with
  | nil =>
    constructor
    · intro h
      cases h
    · rintro ⟨place, secret, x, written, before, -⟩
      rw [(append_colon_iff.1 ⟨written, before⟩).2] at rest
      cases rest
  | cons c secret =>
    have colon : c = ':' := by
      have first := List.head?_dropWhile_not (· ≠ ':') text.toList
      rw [rest] at first
      simpa using first
    subst colon
    simp only [Result.bind_eq_ok_iff, G.genPow_eq, Result.pure_eq_ok, Except.ok.injEq]
    constructor
    · rintro ⟨index, read, x, hx, _, rfl, rfl⟩
      obtain ⟨written, before⟩ := append_colon_iff.2 ⟨rfl, rest⟩
      have reads := numeral_eq_ok_iff.1 read
      rw [String.toList_ofList] at reads
      exact ⟨_, secret, x, written, before, reads, hx, rfl⟩
    · rintro ⟨place, secret', x, written, before, reads, hx, same⟩
      obtain ⟨rfl, rest'⟩ := append_colon_iff.1 ⟨written, before⟩
      obtain rfl := (List.cons.inj (rest.symm.trans rest')).2
      rw [← String.toList_ofList (l := text.toList.takeWhile _)] at reads
      exact ⟨_, numeral_eq_ok_iff.2 reads, x, hx, _, rfl, same.symm⟩

theorem shareArgument_shareText (as : List (ZMod G.q)) (i : UInt64) :
    shareArgument G (shareText G as i) = .ok (shareOf G as i) := by
  have text : (shareText G as i).toList
      = (decimal i).toList ++ ':' :: (Hex.ofNumber (G.scalar (valueAt as i))).toList := by
    simp [shareText]
  have digits : ':' ∉ (decimal i).toList := fun hc =>
    absurd (isDigit_of_mem_decimal hc) (by decide)
  have place := numeral_eq_ok_iff.1 (numeral_decimal "stoul" i)
  have secret := Hex.number_ofNumber (G.scalar_bounds (valueAt as i)).1
  rw [← String.ofList_toList (s := Hex.ofNumber _)] at secret
  refine shareArgument_eq_ok_iff.2 ⟨_, _, _, text, digits, place, secret, ?_⟩
  rw [G.natAbs_scalar]
  rfl

theorem fits_commitmentsOf {as : List (ZMod G.q)} (small : as.length < 2 ^ 32) :
    (Wire.elementsFormat G).Fits (as.map G.element) := by
  refine ⟨by rwa [List.length_map], Group.members_map_some.2 ?_⟩
  exact List.forall_mem_map.2 fun a _ => G.isMember_element a

theorem encodeElements_commitmentsOf {as : List (ZMod G.q)} (small : as.length < 2 ^ 32) :
    blobText (Wire.encodeElements G (commitmentsOf G as).coefficients)
      = .ok (commitmentsText G as) :=
  blobText_encode (Wire.elementsFormat_spelled G) (fits_commitmentsOf G small)

theorem commitmentsArgument_commitmentsText {as : List (ZMod G.q)} (ne : as ≠ [])
    (small : as.length < 2 ^ 32) :
    commitmentsArgument G (commitmentsText G as) = .ok (commitmentsOf G as) := by
  obtain ⟨few, members⟩ := fits_commitmentsOf G small
  have taken : Draw.Returns (Wire.Reader.elements G)
      (Wire.elementsPiece G (commitmentsOf G as).coefficients) (as.map G.element) [] :=
    Wire.elements_takes.returns_iff.2
      ⟨⟨few, Group.members_map_some.1 members⟩, (List.append_nil _).symm⟩
  rw [commitmentsArgument, commitmentsText, Hex.bytes_ofBytes, Result.ok_bind]
  refine Wire.Reader.whole_eq_ok_iff.2 (Draw.returns_bind_iff.2 ⟨_, _, taken, ?_⟩)
  refine Draw.returns_liftM_iff.2 ⟨?_, rfl⟩
  rw [Commitments.ofList, if_neg (by simpa using ne)]
  rfl

theorem ciphertextsAt_ballotTexts (before after : List String) (cs : List (ZMod G.q × ZMod G.q)) :
    ciphertextsAt G (before ++ (cs.map (ballotText G) ++ after)) before.length cs.length
      = .ok (cs.map G.cipherOf) := by
  induction cs generalizing before with
  | nil => rfl
  | cons c cs ih =>
    have first : argumentAt (before ++ ((c :: cs).map (ballotText G) ++ after)) before.length
        = .ok (ballotText G c) := by
      simp [argumentAt]
    have rest := ih (before ++ [ballotText G c])
    rw [List.append_assoc, List.length_append] at rest
    rw [List.length_cons, ciphertextsAt, first, Result.ok_bind, ciphertextArgument_ballotText,
      Result.ok_bind]
    show ciphertextsAt G _ (before.length + 1) cs.length >>= _ = _
    rw [List.map_cons, List.cons_append]
    rw [show before ++ ballotText G c :: (cs.map (ballotText G) ++ after)
      = before ++ ([ballotText G c] ++ (cs.map (ballotText G) ++ after)) from rfl]
    rw [show before.length + 1 = before.length + [ballotText G c].length from rfl, rest]
    rfl

end BallotMix.Command
