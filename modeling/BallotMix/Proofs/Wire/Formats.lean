import BallotMix.Proofs.Wire.Pieces
import BallotMix.Wire.Format
import Mathlib

/-!
# Formats are lossless and canonical

A format is `Spelled` if every value that fits is written as its piece, and a blob is read as a value
exactly if the value fits and the blob is its piece.  Then decoding undoes encoding, and a blob that
can be decoded is the one that encoding gives.  All formats are spelled: the counts in front of lists
pass every check that compares them with what is there, and leave no other list that could be meant.
-/

namespace BallotMix.Wire

/-! ## Formats -/

/-- How values of one kind are written as blobs, and which of them fit. -/
structure Format (α : Type) where
  encode : α → Result Bytes
  decode : Bytes → Result α
  Fits : α → Prop

namespace Format

variable {α : Type}

/-- Every value that fits has a blob, and is decoded from it. -/
def Lossless (F : Format α) : Prop := ∀ a, F.Fits a → ∃ b, F.encode a = .ok b ∧ F.decode b = .ok a

/-- What is decoded fits, and its blob is the one it was decoded from; so no other blob is decoded to
it. -/
structure Canonical (F : Format α) : Prop where
  fits : ∀ b a, F.decode b = .ok a → F.Fits a
  encode : ∀ b a, F.decode b = .ok a → F.encode a = .ok b
  unique : ∀ b b' a, F.decode b = .ok a → F.decode b' = .ok a → b = b'

/-- The values that fit are written as their pieces and read from them only. -/
structure Spelled (F : Format α) (piece : α → Bytes) : Prop where
  encode_eq : ∀ {a}, F.Fits a → F.encode a = .ok (piece a)
  decode_iff : ∀ {b a}, F.decode b = .ok a ↔ F.Fits a ∧ b = piece a

variable {F : Format α} {piece : α → Bytes}

theorem Spelled.lossless (h : F.Spelled piece) : F.Lossless := fun a fits =>
  ⟨piece a, h.encode_eq fits, h.decode_iff.2 ⟨fits, rfl⟩⟩

theorem Spelled.canonical (h : F.Spelled piece) : F.Canonical where
  fits := fun _ _ decoded => (h.decode_iff.1 decoded).1
  encode := by
    intro b a decoded
    obtain ⟨fits, rfl⟩ := h.decode_iff.1 decoded
    exact h.encode_eq fits
  unique := by
    intro b b' a decoded decoded'
    rw [(h.decode_iff.1 decoded).2, (h.decode_iff.1 decoded').2]

/-- A writer that adds the pieces that a reader takes makes a format with it. -/
theorem spelled_of_takes {writer : α → Writer Unit} {reader : Reader α} {Fits : α → Prop}
    (adds : ∀ a, Fits a → (writer a).Adds (piece a)) (takes : reader.Takes Fits piece) :
    Spelled ⟨fun a => (writer a).blob, reader.whole, Fits⟩ piece where
  encode_eq := fun fits => (adds _ fits).blob_eq
  decode_iff := by
    intro b a
    refine Reader.whole_eq_ok_iff.trans ?_
    rw [takes.returns_iff, List.append_nil]

end Format

variable (G : Group)

/-! ## Elements and scalars -/

def elementFormat : Format ℤ where
  encode x := encodeElement G (some x)
  decode := decodeElement G
  Fits x := G.isMember (some x) = true

def scalarFormat : Format ℤ where
  encode s := encodeScalar G (some s)
  decode := decodeScalar G
  Fits s := G.Scalars [some s]

def elementsFormat : Format (List ℤ) where
  encode xs := encodeElements G (xs.map some)
  decode := decodeElements G
  Fits xs := xs.length < 2 ^ 32 ∧ G.Members (xs.map some)

theorem elementFormat_spelled :
    (elementFormat G).Spelled fun x => elementPiece G (some x) :=
  Format.spelled_of_takes (fun _ member => adds_element (Group.isResidue_of_isMember member))
    element_takes

theorem scalarFormat_spelled :
    (scalarFormat G).Spelled fun s => scalarPiece G (some s) := by
  have takes : (Reader.scalar G).Takes (fun s => G.Scalars [some s])
      (fun s => scalarPiece G (some s)) := by
    simpa using scalar_takes
  exact Format.spelled_of_takes (fun s scalar => adds_scalar (by simpa using scalar)) takes

theorem elementsFormat_spelled [G.Accepted] :
    (elementsFormat G).Spelled fun xs => elementsPiece G (xs.map some) := by
  have takes : (Reader.elements G).Takes (fun xs => xs.length < 2 ^ 32 ∧ G.Members (xs.map some))
      (fun xs => elementsPiece G (xs.map some)) := by
    simpa only [Group.members_map_some] using elements_takes
  exact Format.spelled_of_takes (fun xs fits => adds_elements fits.2.residues) takes

/-! ## Ciphertexts -/

/-- Both components of a ciphertext. -/
def pairPiece (ct : Ciphertext) : Bytes := elementPiece G ct.c1 ++ elementPiece G ct.c2

def ciphertextFormat : Format Pair where
  encode c := encodeCiphertext G c.toCiphertext
  decode := decodeCiphertext G
  Fits c := G.MemberPairs [c.toCiphertext]

def ciphertextsFormat : Format (List Pair) where
  encode cs := encodeCiphertexts G (cs.map Pair.toCiphertext)
  decode := decodeCiphertexts G
  Fits cs := cs.length < 2 ^ 32 ∧ G.MemberPairs (cs.map Pair.toCiphertext)

variable {G}

theorem adds_ciphertext {ct : Ciphertext} (h : G.Residues [ct.c1, ct.c2]) :
    (writeCiphertext G ct).Adds (pairPiece G ct) := by
  simp only [Group.residues_cons, Group.residues_nil, and_true] at h
  exact (adds_element h.1).andThen (adds_element h.2)

theorem ciphertext_takes :
    (readCiphertext G).Takes (fun c => G.Members [some c.c1, some c.c2])
      (fun c => pairPiece G c.toCiphertext) := by
  refine ⟨fun {data rest c} => ?_⟩
  simp only [readCiphertext, Draw.returns_bind_iff, element_takes.returns_iff,
    Draw.returns_pure_iff, Group.members_cons, Group.members_nil, and_true]
  constructor
  · rintro ⟨c1, _, ⟨h1, rfl⟩, c2, _, ⟨h2, rfl⟩, rfl, rfl⟩
    exact ⟨⟨h1, h2⟩, by simp [pairPiece, Pair.toCiphertext]⟩
  · rintro ⟨⟨h1, h2⟩, rfl⟩
    exact ⟨c.c1, _, ⟨h1, List.append_assoc _ _ _⟩, c.c2, _, ⟨h2, rfl⟩, rfl, rfl⟩

variable (G)

theorem ciphertextFormat_spelled :
    (ciphertextFormat G).Spelled fun c => pairPiece G c.toCiphertext := by
  have takes : (readCiphertext G).Takes (fun c => G.MemberPairs [c.toCiphertext])
      (fun c => pairPiece G c.toCiphertext) := by
    simpa [Group.MemberPairs, Pair.toCiphertext] using ciphertext_takes
  exact Format.spelled_of_takes
    (fun c fits => adds_ciphertext (fits _ List.mem_cons_self).residues) takes

/-- Ciphertexts behind their count. -/
def pairsPiece (cts : List Ciphertext) : Bytes :=
  Bytes.ofUInt32 (UInt32.ofNat cts.length) ++ cts.flatMap (pairPiece G)

theorem length_pairsPiece (cts : List Ciphertext) :
    (pairsPiece G cts).length = 4 + cts.length * (2 * G.elementBytes) := by
  simp [pairsPiece, pairPiece, List.length_flatMap, two_mul]

variable {G}

theorem returns_readCiphertexts_iff {size : ℕ} {data rest : Bytes} {cs : List Pair} :
    Draw.Returns (readCiphertexts G size) data cs rest ↔
      cs.length ≤ size / (2 * G.elementBytes) ∧
        (cs.length < 2 ^ 32 ∧ G.MemberPairs (cs.map Pair.toCiphertext)) ∧
          data = pairsPiece G (cs.map Pair.toCiphertext) ++ rest := by
  simp only [readCiphertexts, ExceptT.bind_throw, Draw.returns_bind_iff,
    Draw.returns_ite_throw_iff, Reader.word_takes.returns_iff,
    (ciphertext_takes.times _).returns_iff, pairsPiece, List.length_map, List.flatMap_map, not_lt,
    Group.MemberPairs, List.forall_mem_map]
  constructor
  · rintro ⟨w, _, ⟨-, rfl⟩, enough, ⟨length, members⟩, rfl⟩
    obtain ⟨small, rfl⟩ := count_iff.1 length
    exact ⟨by rwa [length], ⟨small, members⟩, (List.append_assoc _ _ _).symm⟩
  · rintro ⟨enough, ⟨small, members⟩, rfl⟩
    have count := count_iff.2 ⟨small, rfl⟩
    exact ⟨_, _, ⟨trivial, List.append_assoc _ _ _⟩, by rwa [← count], ⟨count, members⟩, rfl⟩

variable (G)

theorem ciphertextsFormat_spelled [G.Accepted] :
    (ciphertextsFormat G).Spelled fun cs => pairsPiece G (cs.map Pair.toCiphertext) where
  encode_eq := by
    intro cs fits
    have adds : Writer.Adds (do
        Writer.word (UInt32.ofNat (cs.map Pair.toCiphertext).length)
        (cs.map Pair.toCiphertext).forM (writeCiphertext G)) _ :=
      (Writer.adds_word _).andThen
        (Writer.adds_forM fun ct hct => adds_ciphertext (fits.2 ct hct).residues)
    exact adds.blob_eq
  decode_iff := by
    intro b cs
    refine Reader.whole_eq_ok_iff.trans (returns_readCiphertexts_iff.trans ?_)
    rw [List.append_nil]
    have positive : 0 < 2 * G.elementBytes := Nat.mul_pos two_pos elementBytes_pos
    refine and_iff_right_of_imp ?_
    rintro ⟨-, rfl⟩
    rw [length_pairsPiece, List.length_map, Nat.le_div_iff_mul_le positive]
    exact Nat.le_add_left _ _

/-! ## Proofs -/

def reencryptionPiece (proof : Reencryption.Proof) : Bytes :=
  elementPiece G proof.a ++ (elementPiece G proof.b ++
    (scalarPiece G proof.challenge ++ scalarPiece G proof.response))

def reencryptionFormat : Format Reencryption.Proof where
  encode := encodeReencryption G
  decode := decodeReencryption G
  Fits := Reencryption.Proof.Formed G

def logEqualityPiece (proof : LogEquality.Proof) : Bytes :=
  elementsPiece G proof.commitments ++ (scalarPiece G proof.challenge ++
    scalarPiece G proof.response)

def logEqualityFormat : Format LogEquality.Proof where
  encode := encodeLogEquality G
  decode := decodeLogEquality G
  Fits proof := proof.commitments.length < 2 ^ 32 ∧ proof.Formed G proof.commitments.length

variable {G}

theorem reencryption_takes :
    (readReencryption G).Takes (Reencryption.Proof.Formed G) (reencryptionPiece G) := by
  refine ⟨fun {data rest proof} => ?_⟩
  simp only [readReencryption, Draw.returns_bind_iff, element_takes.returns_iff,
    scalar_takes.returns_iff, Draw.returns_pure_iff]
  constructor
  · rintro ⟨a, _, ⟨ha, rfl⟩, b, _, ⟨hb, rfl⟩, c, _, ⟨hc, rfl⟩, s, _, ⟨hs, rfl⟩, rfl, rfl⟩
    exact ⟨⟨by simp [ha, hb], by simp [hc, hs]⟩, by simp [reencryptionPiece]⟩
  · rintro ⟨⟨members, scalars⟩, rfl⟩
    obtain ⟨a, b, c, s⟩ := proof
    simp only [Group.members_cons, Group.members_nil, Group.scalars_cons, Group.scalars_nil,
      and_true] at members scalars
    obtain ⟨a, rfl, -⟩ := G.exists_of_isMember members.1
    obtain ⟨b, rfl, -⟩ := G.exists_of_isMember members.2
    obtain ⟨c, rfl, -⟩ := Group.isScalar_iff_bounds.1 scalars.1
    obtain ⟨s, rfl, -⟩ := Group.isScalar_iff_bounds.1 scalars.2
    simp only [reencryptionPiece, List.append_assoc]
    exact ⟨a, _, ⟨members.1, rfl⟩, b, _, ⟨members.2, rfl⟩, c, _, ⟨scalars.1, rfl⟩, s, _,
      ⟨scalars.2, rfl⟩, rfl, rfl⟩

theorem logEquality_takes [G.Accepted] :
    (readLogEquality G).Takes
      (fun proof => proof.commitments.length < 2 ^ 32 ∧ proof.Formed G proof.commitments.length)
      (logEqualityPiece G) := by
  refine ⟨fun {data rest proof} => ?_⟩
  simp only [readLogEquality, Draw.returns_bind_iff, elements_takes.returns_iff,
    scalar_takes.returns_iff, Draw.returns_pure_iff]
  constructor
  · rintro ⟨xs, _, ⟨⟨small, hxs⟩, rfl⟩, c, _, ⟨hc, rfl⟩, s, _, ⟨hs, rfl⟩, rfl, rfl⟩
    refine ⟨⟨by simpa using small, rfl, ?_, by simp [hc, hs]⟩, by simp [logEqualityPiece]⟩
    exact Group.members_map_some.2 hxs
  · rintro ⟨⟨small, -, members, scalars⟩, rfl⟩
    obtain ⟨commitments, c, s⟩ := proof
    simp only [Group.scalars_cons, Group.scalars_nil, and_true] at scalars
    obtain ⟨xs, rfl⟩ := members.exists_numbers
    obtain ⟨c, rfl, -⟩ := Group.isScalar_iff_bounds.1 scalars.1
    obtain ⟨s, rfl, -⟩ := Group.isScalar_iff_bounds.1 scalars.2
    simp only [logEqualityPiece, List.append_assoc]
    rw [List.length_map] at small
    exact ⟨xs, _, ⟨⟨small, Group.members_map_some.1 members⟩, rfl⟩, c, _, ⟨scalars.1, rfl⟩, s, _,
      ⟨scalars.2, rfl⟩, rfl, rfl⟩

theorem adds_logEquality {n : ℕ} {proof : LogEquality.Proof} (formed : proof.Formed G n) :
    (writeLogEquality G proof).Adds (logEqualityPiece G proof) := by
  obtain ⟨-, members, scalars⟩ := formed
  simp only [Group.scalars_cons, Group.scalars_nil, and_true] at scalars
  exact (adds_elements members.residues).andThen ((adds_scalar scalars.1).andThen (adds_scalar scalars.2))

theorem adds_reencryption {proof : Reencryption.Proof} (h : proof.Writable G) :
    Writer.Adds (do
      Writer.element G proof.a
      Writer.element G proof.b
      Writer.scalar G proof.challenge
      Writer.scalar G proof.response) (reencryptionPiece G proof) := by
  obtain ⟨residues, scalars⟩ := h
  simp only [Group.residues_cons, Group.residues_nil, Group.scalars_cons, Group.scalars_nil,
    and_true] at residues scalars
  exact (adds_element residues.1).andThen <| (adds_element residues.2).andThen <|
    (adds_scalar scalars.1).andThen (adds_scalar scalars.2)

variable (G)

theorem reencryptionFormat_spelled : (reencryptionFormat G).Spelled (reencryptionPiece G) :=
  Format.spelled_of_takes (fun _ formed => adds_reencryption formed.writable) reencryption_takes

theorem logEqualityFormat_spelled [G.Accepted] :
    (logEqualityFormat G).Spelled (logEqualityPiece G) :=
  Format.spelled_of_takes (fun _ fits => adds_logEquality fits.2) logEquality_takes

/-! ## Shuffle proofs -/

def shufflePiece (proof : Shuffle.Proof) : Bytes :=
  Bytes.ofUInt32 (UInt32.ofNat proof.size) ++ (scalarPiece G proof.challenge ++
    (scalarPiece G proof.s1 ++ (scalarPiece G proof.s2 ++ (scalarPiece G proof.s3 ++
      (scalarPiece G proof.s4 ++ (proof.sHat.flatMap (scalarPiece G) ++
        (proof.sTilde.flatMap (scalarPiece G) ++ (proof.commitment.flatMap (elementPiece G) ++
          proof.chain.flatMap (elementPiece G)))))))))

def shuffleFormat : Format Shuffle.CompleteProof where
  encode proof := encodeShuffle G proof.toProof
  decode := decodeShuffle G
  Fits proof := ∃ n, 1 ≤ n ∧ n < 2 ^ 32 ∧ proof.toProof.Formed G n

variable {G}

theorem length_shufflePiece (proof : Shuffle.Proof) :
    (shufflePiece G proof).length =
      4 + (5 + proof.sHat.length + proof.sTilde.length) * G.scalarBytes +
        (proof.size + proof.chain.length) * G.elementBytes := by
  simp only [shufflePiece, List.length_append, length_flatMap_scalarPiece,
    length_flatMap_elementPiece, length_scalarPiece, Bytes.ofUInt32, Bytes.length_ofNat,
    Shuffle.Proof.size]
  ring

/-- A proof is well formed if its lists are and its five single scalars are scalars. -/
theorem formed_toProof_iff {n : ℕ} {proof : Shuffle.CompleteProof} :
    proof.toProof.Formed G n ↔
      (G.isScalar (some proof.challenge) = true ∧ G.isScalar (some proof.s1) = true ∧
        G.isScalar (some proof.s2) = true ∧ G.isScalar (some proof.s3) = true ∧
          G.isScalar (some proof.s4) = true) ∧
      (proof.sHat.length = n ∧ ∀ s ∈ proof.sHat, G.isScalar (some s) = true) ∧
      (proof.sTilde.length = n ∧ ∀ s ∈ proof.sTilde, G.isScalar (some s) = true) ∧
      (proof.commitment.length = n ∧ ∀ x ∈ proof.commitment, G.isMember (some x) = true) ∧
      proof.chain.length = n ∧ ∀ x ∈ proof.chain, G.isMember (some x) = true := by
  simp only [Shuffle.Proof.formed_iff, Shuffle.CompleteProof.toProof, List.length_map,
    Group.members_append, Group.members_map_some, Group.scalars_append, Group.scalars_map_some,
    Group.scalars_cons, Group.scalars_nil, and_true]
  tauto

theorem returns_readShuffle_iff {size : ℕ} {data rest : Bytes} {proof : Shuffle.CompleteProof} :
    Draw.Returns (readShuffle G size) data proof rest ↔
      (∃ n, 1 ≤ n ∧ n ≤ size / (2 * G.scalarBytes + 2 * G.elementBytes) ∧ n < 2 ^ 32 ∧
        proof.toProof.Formed G n) ∧ data = shufflePiece G proof.toProof ++ rest := by
  simp only [readShuffle, ExceptT.bind_throw, Draw.returns_bind_iff, Draw.returns_ite_throw_iff,
    Draw.returns_pure_iff, Reader.word_takes.returns_iff, scalar_takes.returns_iff,
    (scalar_takes.times _).returns_iff, (element_takes.times _).returns_iff, Bool.or_eq_true,
    decide_eq_true_eq, not_or, not_lt, formed_toProof_iff]
  constructor
  · rintro ⟨w, _, ⟨-, rfl⟩, ⟨positive, enough⟩, c, _, ⟨hc, rfl⟩, s1, _, ⟨h1, rfl⟩, s2, _, ⟨h2, rfl⟩,
      s3, _, ⟨h3, rfl⟩, s4, _, ⟨h4, rfl⟩, sHat, _, ⟨hHat, rfl⟩, sTilde, _, ⟨hTilde, rfl⟩, cs, _,
      ⟨hcs, rfl⟩, ds, _, ⟨hds, rfl⟩, rfl, rfl⟩
    refine ⟨⟨w.toNat, by omega, enough, w.toNat_lt, ⟨hc, h1, h2, h3, h4⟩, hHat, hTilde, hcs, hds⟩, ?_⟩
    simp [shufflePiece, Shuffle.CompleteProof.toProof, Shuffle.Proof.size, hcs.1, List.flatMap_map]
  · rintro ⟨⟨n, positive, enough, small, ⟨hc, h1, h2, h3, h4⟩, hHat, hTilde, hcs, hds⟩, rfl⟩
    have count := count_iff.2 ⟨small, rfl⟩
    have parts : shufflePiece G proof.toProof ++ rest
        = Bytes.ofUInt32 (UInt32.ofNat n) ++ (scalarPiece G (some proof.challenge) ++
          (scalarPiece G (some proof.s1) ++ (scalarPiece G (some proof.s2) ++
          (scalarPiece G (some proof.s3) ++ (scalarPiece G (some proof.s4) ++
          (proof.sHat.flatMap (fun s => scalarPiece G (some s)) ++
          (proof.sTilde.flatMap (fun s => scalarPiece G (some s)) ++
          (proof.commitment.flatMap (fun x => elementPiece G (some x)) ++
          (proof.chain.flatMap (fun x => elementPiece G (some x)) ++ rest))))))))) := by
      simp [shufflePiece, Shuffle.CompleteProof.toProof, Shuffle.Proof.size, hcs.1,
        List.flatMap_map]
    rw [count] at hHat hTilde hcs hds enough
    exact ⟨_, _, ⟨trivial, parts⟩, ⟨by omega, enough⟩, _, _, ⟨hc, rfl⟩, _, _, ⟨h1, rfl⟩, _, _,
      ⟨h2, rfl⟩, _, _, ⟨h3, rfl⟩, _, _, ⟨h4, rfl⟩, _, _, ⟨hHat, rfl⟩, _, _, ⟨hTilde, rfl⟩, _, _,
      ⟨hcs, rfl⟩, _, _, ⟨hds, rfl⟩, rfl, rfl⟩

/-- A proof of residues and scalars is written as its piece, whatever the lengths of its lists. -/
theorem encodeShuffle_eq {proof : Shuffle.Proof} (h : proof.Writable G) :
    encodeShuffle G proof = .ok (shufflePiece G proof) := by
  obtain ⟨residues, scalars⟩ := h
  simp only [Group.scalars_append, Group.scalars_cons, Group.scalars_nil, and_true] at scalars
  obtain ⟨⟨⟨hc, h1, h2, h3, h4⟩, hHat⟩, hTilde⟩ := scalars
  rw [Group.residues_append] at residues
  have adds := (Writer.adds_word (UInt32.ofNat proof.size)).andThen <|
    (adds_scalar hc).andThen <| (adds_scalar h1).andThen <| (adds_scalar h2).andThen <|
    (adds_scalar h3).andThen <| (adds_scalar h4).andThen <| (adds_forM_scalar hHat).andThen <|
    (adds_forM_scalar hTilde).andThen <|
    (adds_forM_element residues.1).andThen (adds_forM_element residues.2)
  exact adds.blob_eq

variable (G)

theorem shuffleFormat_spelled [G.Accepted] :
    (shuffleFormat G).Spelled fun proof => shufflePiece G proof.toProof where
  encode_eq := by
    rintro proof ⟨n, -, -, formed⟩
    exact encodeShuffle_eq formed.writable
  decode_iff := by
    intro b proof
    refine Reader.whole_eq_ok_iff.trans (returns_readShuffle_iff.trans ?_)
    rw [List.append_nil]
    have positive : 0 < 2 * G.scalarBytes + 2 * G.elementBytes :=
      Nat.add_pos_right _ (Nat.mul_pos two_pos elementBytes_pos)
    constructor
    · rintro ⟨⟨n, nonempty, -, small, formed⟩, same⟩
      exact ⟨⟨n, nonempty, small, formed⟩, same⟩
    · rintro ⟨⟨n, nonempty, small, formed⟩, same⟩
      -- The blob is long enough for its count: the lists alone are.
      refine ⟨⟨n, nonempty, ?_, small, formed⟩, same⟩
      rw [same, Nat.le_div_iff_mul_le positive, length_shufflePiece, formed.sHat, formed.sTilde,
        formed.chain, Shuffle.Proof.size, formed.commitment]
      linarith

/-! ## Contributions -/

def sharePiece (share : Sharing.DecryptionShare) : Bytes :=
  Bytes.ofUInt32 (UInt32.ofNat share.index.toNat) ++
    (elementPiece G share.value ++ logEqualityPiece G share.proof)

def shareFormat : Format Sharing.DecryptionShare where
  encode := encodeShare G
  decode := decodeShare G
  Fits share := share.index.toNat < 2 ^ 32 ∧ G.Members [share.value] ∧
    (logEqualityFormat G).Fits share.proof

variable {G}

theorem share_takes [G.Accepted] :
    (readShare G).Takes (shareFormat G).Fits (sharePiece G) := by
  refine ⟨fun {data rest share} => ?_⟩
  simp only [readShare, Draw.returns_bind_iff, Reader.word_takes.returns_iff,
    element_takes.returns_iff, logEquality_takes.returns_iff, Draw.returns_pure_iff, shareFormat,
    logEqualityFormat, Group.members_cons, Group.members_nil, and_true]
  constructor
  · rintro ⟨w, _, ⟨-, rfl⟩, x, _, ⟨hx, rfl⟩, proof, _, ⟨fits, rfl⟩, rfl, rfl⟩
    have small := w.toNat_lt
    have index : (UInt64.ofNat w.toNat).toNat = w.toNat :=
      UInt64.toNat_ofNat_of_lt' (lt_trans small (by decide))
    refine ⟨⟨by rwa [index], hx, fits⟩, ?_⟩
    simp [sharePiece]
  · rintro ⟨⟨small, hx, fits⟩, rfl⟩
    obtain ⟨index, value, proof⟩ := share
    obtain ⟨x, rfl, -⟩ := G.exists_of_isMember hx
    have count : index.toNat = (UInt32.ofNat index.toNat).toNat := count_iff.2 ⟨small, rfl⟩
    refine ⟨UInt32.ofNat index.toNat, _, ⟨trivial, ?_⟩, x, _, ⟨hx, rfl⟩, proof, rest, ⟨fits, rfl⟩,
      ?_, rfl⟩
    · simp [sharePiece]
    · rw [← count, UInt64.ofNat_toNat]

variable (G)

theorem shareFormat_spelled [G.Accepted] : (shareFormat G).Spelled (sharePiece G) where
  encode_eq := by
    rintro share ⟨small, member, -, formed⟩
    have adds := (Writer.adds_word (UInt32.ofNat share.index.toNat)).andThen <|
      (adds_element (member.residues _ List.mem_cons_self)).andThen (adds_logEquality formed)
    show encodeShare G share = _
    rw [encodeShare, if_neg (by simpa using small)]
    exact adds.blob_eq
  decode_iff := by
    intro b share
    refine Reader.whole_eq_ok_iff.trans ?_
    rw [share_takes.returns_iff, List.append_nil]

/-! ## All formats -/

/-- Decoding undoes encoding: every value whose elements are members, whose scalars lie in `[0, q)`
and whose counts fit in four bytes can be encoded, and is decoded from its blob. -/
theorem formats_lossless (G : Group) [G.Accepted] :
    (elementFormat G).Lossless ∧ (scalarFormat G).Lossless ∧ (ciphertextFormat G).Lossless ∧
      (ciphertextsFormat G).Lossless ∧ (elementsFormat G).Lossless ∧
      (reencryptionFormat G).Lossless ∧ (logEqualityFormat G).Lossless ∧
      (shuffleFormat G).Lossless ∧ (shareFormat G).Lossless :=
  ⟨(elementFormat_spelled G).lossless, (scalarFormat_spelled G).lossless,
    (ciphertextFormat_spelled G).lossless, (ciphertextsFormat_spelled G).lossless,
    (elementsFormat_spelled G).lossless, (reencryptionFormat_spelled G).lossless,
    (logEqualityFormat_spelled G).lossless, (shuffleFormat_spelled G).lossless,
    (shareFormat_spelled G).lossless⟩

/-- No ciphertexts, a shuffle proof and a contribution, there and back. -/
theorem formats_lossless_least :
    let proof : Shuffle.CompleteProof :=
      ⟨24779894, 856143225, 856143225, 818816757, 58371274, [856143225], [58371274], [2121465035],
        [1264624184]⟩
    let share : Sharing.DecryptionShare :=
      ⟨1, some 1048576, ⟨[some 390430993, some 655242468], some 312733457, some 506768404⟩⟩
    (∃ b, encodeCiphertexts Group.least [] = .ok b ∧ decodeCiphertexts Group.least b = .ok []) ∧
      (∃ b, encodeShuffle Group.least proof.toProof = .ok b ∧
        decodeShuffle Group.least b = .ok proof) ∧
      ∃ b, encodeShare Group.least share = .ok b ∧ decodeShare Group.least b = .ok share := by
  intro proof share
  obtain ⟨-, -, -, ciphertexts, -, -, -, shuffles, shares⟩ := formats_lossless Group.least
  refine ⟨ciphertexts [] ⟨by decide, fun _ h => by cases h⟩, shuffles proof ?_, shares share ?_⟩
  · exact ⟨1, le_rfl, by decide, formed_toProof_iff.2 (by decide +kernel)⟩
  · have members : ∀ x ∈ [some 1048576, some 390430993, some 655242468],
        Group.least.isMember x = true := by decide +kernel
    have scalars : ∀ s ∈ [some 312733457, some 506768404], Group.least.isScalar s = true := by
      decide +kernel
    rw [List.forall_mem_cons] at members
    exact ⟨by decide, by simpa using members.1, by decide, rfl, members.2,
      Group.scalars_iff.2 scalars⟩

/-- Decoding is canonical: the elements of what is decoded are members, its scalars lie in `[0, q)`
and its lists have the lengths they should have, and encoding it gives back the blob; so no two blobs
are decoded to the same value. -/
theorem formats_canonical (G : Group) [G.Accepted] :
    (elementFormat G).Canonical ∧ (scalarFormat G).Canonical ∧ (ciphertextFormat G).Canonical ∧
      (ciphertextsFormat G).Canonical ∧ (elementsFormat G).Canonical ∧
      (reencryptionFormat G).Canonical ∧ (logEqualityFormat G).Canonical ∧
      (shuffleFormat G).Canonical ∧ (shareFormat G).Canonical :=
  ⟨(elementFormat_spelled G).canonical, (scalarFormat_spelled G).canonical,
    (ciphertextFormat_spelled G).canonical, (ciphertextsFormat_spelled G).canonical,
    (elementsFormat_spelled G).canonical, (reencryptionFormat_spelled G).canonical,
    (logEqualityFormat_spelled G).canonical, (shuffleFormat_spelled G).canonical,
    (shareFormat_spelled G).canonical⟩

/-- Two elements behind their count, which only one blob is decoded to, and the same with a count
that claims too many. -/
theorem formats_canonical_least :
    decodeElements Group.least [0, 0, 0, 2, 0, 0, 0, 4, 0, 0, 0, 16] = .ok [4, 16] ∧
      encodeElements Group.least [some 4, some 16] = .ok [0, 0, 0, 2, 0, 0, 0, 4, 0, 0, 0, 16] ∧
      (∀ b, decodeElements Group.least b = .ok [4, 16] →
        [0, 0, 0, 2, 0, 0, 0, 4, 0, 0, 0, 16] = b) ∧
      decodeElements Group.least [255, 0, 0, 2, 0, 0, 0, 4, 0, 0, 0, 16]
        = .error (.argument .elementCount) := by
  obtain ⟨-, -, -, -, elements, -⟩ := formats_canonical Group.least
  have decoded : (elementsFormat Group.least).decode [0, 0, 0, 2, 0, 0, 0, 4, 0, 0, 0, 16]
      = .ok [4, 16] := by decide +kernel
  exact ⟨decoded, elements.encode _ _ decoded, fun b h => elements.unique _ b _ decoded h,
    by decide +kernel⟩

end BallotMix.Wire
