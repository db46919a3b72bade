import BallotMix.Proofs.Closure.Operations
import Mathlib

/-!
# Nothing outside the group leaves

An `Operation` is a call of the library with arguments of any kind: the numbers of keys, plaintexts,
ciphertexts, shares and commitments may be missing, lie outside the group or be scalars of any size
and sign.  What it returns is looked at through its `Numbers` alone.  Each of them that stands for an
element of the group is a member, and each that stands for a scalar lies in `[0, q)`
(`operations_closed`).
-/

namespace BallotMix

/-! ## Numbers of results -/

/-- The numbers in a result, by what they stand for. -/
structure Numbers where
  elements : List (Option ℤ)
  scalars : List (Option ℤ)
deriving DecidableEq

namespace Numbers

/-- Every element is there and is a member, and so from one to `p - 1`; every scalar is there and lies
in `[0, q)`. -/
structure Proper (G : Group) (numbers : Numbers) : Prop where
  elements : ∀ x ∈ numbers.elements, ∃ v : ℤ, x = some v ∧ G.isMember (some v) = true ∧
    1 ≤ v ∧ v < G.p
  scalars : ∀ s ∈ numbers.scalars, ∃ v : ℤ, s = some v ∧ 0 ≤ v ∧ v < G.q

instance : Append Numbers := ⟨fun a b => ⟨a.elements ++ b.elements, a.scalars ++ b.scalars⟩⟩

def ofElement (x : ℤ) : Numbers := ⟨[some x], []⟩

def ofElements (xs : List ℤ) : Numbers := ⟨xs.map some, []⟩

def ofScalar (s : ℤ) : Numbers := ⟨[], [some s]⟩

def ofKey (pk : PublicKey) : Numbers := ⟨[pk.h], []⟩

def ofPair (c : Pair) : Numbers := ⟨[some c.c1, some c.c2], []⟩

def ofPairs (cs : List Pair) : Numbers := ⟨cs.flatMap fun c => [some c.c1, some c.c2], []⟩

def ofLogEquality (proof : LogEquality.Proof) : Numbers :=
  ⟨proof.commitments, [proof.challenge, proof.response]⟩

def ofReencryption (proof : Reencryption.Proof) : Numbers :=
  ⟨[proof.a, proof.b], [proof.challenge, proof.response]⟩

def ofShuffle (proof : Shuffle.Proof) : Numbers :=
  ⟨proof.commitment ++ proof.chain,
    [proof.challenge, proof.s1, proof.s2, proof.s3, proof.s4] ++ proof.sHat ++ proof.sTilde⟩

def ofDealing (dealing : Sharing.Dealing) : Numbers :=
  ⟨dealing.electionKey.h :: dealing.commitments.coefficients ++
      dealing.shares.map Sharing.KeyShare.publicShare,
    dealing.shares.map Sharing.KeyShare.secret⟩

def ofShare (share : Sharing.DecryptionShare) : Numbers :=
  ⟨[share.value], []⟩ ++ ofLogEquality share.proof

def ofBatchShare (share : Sharing.BatchShare) : Numbers :=
  ⟨share.values, []⟩ ++ ofLogEquality share.proof

end Numbers

/-! ## Operations -/

/-- A call of the library, with its arguments. -/
inductive Operation
  | encrypt (pk : PublicKey) (m r : Option ℤ)
  | encryptWithNonce (pk : PublicKey) (m : Option ℤ)
  | encryptFresh (pk : PublicKey) (m : Option ℤ)
  | reencrypt (pk : PublicKey) (ct : Ciphertext) (r : Option ℤ)
  | reencryptFresh (pk : PublicKey) (ct : Ciphertext)
  | decrypt (sk : SecretKey) (ct : Ciphertext)
  | combine (a b : Ciphertext)
  | combineKeys (shares : List PublicKey)
  | accumulate (cts : List Ciphertext)
  | encodeExponential (value : UInt64)
  | encodeResidue (value : UInt64)
  | reencryptWithProof (pk : PublicKey) (ct : Ciphertext) (domain : Bytes)
  | shuffle (pk : PublicKey) (inputs : List Ciphertext) (options : Shuffle.Options)
  | proveShuffle (pk : PublicKey) (inputs outputs : List Ciphertext) (permutation : List ℕ)
      (randomizers : List ℤ) (options : Shuffle.Options)
  | partialDecrypt (share : Sharing.KeyShare) (ct : Ciphertext) (domain : Bytes)
  | partialDecryptBatch (share : Sharing.KeyShare) (cts : List Ciphertext) (domain : Bytes)
  | publicShare (commitments : Sharing.Commitments) (index : UInt64)
  | deal (threshold total : UInt64)
  | dealSecret (secret : SecretKey) (threshold total : UInt64)
  | combineShares (commitments : Sharing.Commitments) (ct : Ciphertext)
      (shares : List Sharing.DecryptionShare) (domain : Bytes)
  | combineBatch (commitments : Sharing.Commitments) (cts : List Ciphertext)
      (shares : List Sharing.BatchShare) (domain : Bytes)
  | decodeElement (data : Bytes)
  | decodeScalar (data : Bytes)
  | decodeElements (data : Bytes)
  | decodeCiphertext (data : Bytes)
  | decodeCiphertexts (data : Bytes)
  | decodeReencryption (data : Bytes)
  | decodeLogEquality (data : Bytes)
  | decodeShuffle (data : Bytes)
  | decodeShare (data : Bytes)

namespace Operation

variable [Workers.Scheduler] {σ : Type} [Source σ]

/-- The numbers in what the call returns. -/
def run (G : Group) : Operation → Draw σ Numbers
  | encrypt pk m r => do pure (.ofPair (← G.encrypt pk m r))
  | encryptWithNonce pk m => do
    let (c, r) ← G.encryptWithNonce pk m
    pure (.ofPair c ++ .ofScalar r)
  | encryptFresh pk m => do pure (.ofPair (← G.encryptFresh pk m))
  | reencrypt pk ct r => do pure (.ofPair (← G.reencrypt pk ct r))
  | reencryptFresh pk ct => do pure (.ofPair (← G.reencryptFresh pk ct))
  | decrypt sk ct => do pure (.ofElement (← G.decrypt sk ct))
  | combine a b => do pure (.ofPair (← G.combine a b))
  | combineKeys shares => do pure (.ofKey (← G.combineKeys shares))
  | accumulate cts => do pure (.ofPair (← Tally.accumulate G cts))
  | encodeExponential value => do pure (.ofElement (← G.encodeExponential value))
  | encodeResidue value => do pure (.ofElement (← G.encodeResidue value))
  | reencryptWithProof pk ct domain => do
    let (c, proof) ← Reencryption.reencryptWithProof G pk ct domain
    pure (.ofPair c ++ .ofReencryption proof)
  | shuffle pk inputs options => do
    let (outputs, proof) ← Shuffle.shuffle G pk inputs options
    pure (.ofPairs outputs ++ .ofShuffle proof.toProof)
  | proveShuffle pk inputs outputs permutation randomizers options => do
    let proof ← Shuffle.prove G pk inputs outputs permutation randomizers options
    pure (.ofShuffle proof.toProof)
  | partialDecrypt share ct domain => do
    pure (.ofShare (← Sharing.partialDecrypt G share ct domain))
  | partialDecryptBatch share cts domain => do
    pure (.ofBatchShare (← Sharing.partialDecryptBatch G share cts domain))
  | publicShare commitments index => do
    pure (.ofElement (← Sharing.publicShare G commitments index))
  | deal threshold total => do pure (.ofDealing (← Sharing.deal G threshold total))
  | dealSecret secret threshold total => do
    pure (.ofDealing (← Sharing.dealSecret G secret threshold total))
  | combineShares commitments ct shares domain => do
    pure (.ofElement (← Sharing.combine G commitments ct shares domain).plaintext)
  | combineBatch commitments cts shares domain => do
    pure (.ofElements (← Sharing.combineBatch G commitments cts shares domain).plaintexts)
  | decodeElement data => do pure (.ofElement (← Wire.decodeElement G data))
  | decodeScalar data => do pure (.ofScalar (← Wire.decodeScalar G data))
  | decodeElements data => do pure (.ofElements (← Wire.decodeElements G data))
  | decodeCiphertext data => do pure (.ofPair (← Wire.decodeCiphertext G data))
  | decodeCiphertexts data => do pure (.ofPairs (← Wire.decodeCiphertexts G data))
  | decodeReencryption data => do pure (.ofReencryption (← Wire.decodeReencryption G data))
  | decodeLogEquality data => do pure (.ofLogEquality (← Wire.decodeLogEquality G data))
  | decodeShuffle data => do pure (.ofShuffle (← Wire.decodeShuffle G data).toProof)
  | decodeShare data => do pure (.ofShare (← Wire.decodeShare G data))

end Operation

/-! ## Proper numbers -/

namespace Numbers

variable {G : Group} [accepted : G.Accepted]

theorem proper_iff {numbers : Numbers} :
    numbers.Proper G ↔ G.Members numbers.elements ∧ G.Scalars numbers.scalars := by
  constructor
  · rintro ⟨elements, scalars⟩
    refine ⟨fun x hx => ?_, scalars⟩
    obtain ⟨v, rfl, member, -⟩ := elements x hx
    exact member
  · rintro ⟨members, scalars⟩
    refine ⟨fun x hx => ?_, scalars⟩
    obtain ⟨a, rfl⟩ := G.isMember_iff.1 (members x hx)
    have bounds := G.element_bounds a
    exact ⟨_, rfl, G.isMember_element a, by omega, bounds.2⟩

omit accepted in
theorem Proper.append {a b : Numbers} (ha : a.Proper G) (hb : b.Proper G) : (a ++ b).Proper G :=
  ⟨List.forall_mem_append.2 ⟨ha.elements, hb.elements⟩,
    List.forall_mem_append.2 ⟨ha.scalars, hb.scalars⟩⟩

theorem proper_ofElement {x : ℤ} (h : G.IsElement x) : (ofElement x).Proper G :=
  proper_iff.2 ⟨Group.members_cons.2 ⟨h, Group.members_nil⟩, Group.scalars_nil⟩

theorem proper_ofElements {xs : List ℤ} (h : ∀ x ∈ xs, G.IsElement x) : (ofElements xs).Proper G :=
  proper_iff.2 ⟨Group.members_map_some.2 h, Group.scalars_nil⟩

theorem proper_ofScalar {s : ℤ} (h : G.IsScalar s) : (ofScalar s).Proper G :=
  proper_iff.2 ⟨Group.members_nil, Group.scalars_cons.2 ⟨h, Group.scalars_nil⟩⟩

theorem proper_ofPair {c : Pair} (h : G.IsPair c) : (ofPair c).Proper G :=
  proper_iff.2 ⟨by simpa [ofPair] using ⟨h.c1, h.c2⟩, Group.scalars_nil⟩

theorem proper_ofPairs {cs : List Pair} (h : ∀ c ∈ cs, G.IsPair c) : (ofPairs cs).Proper G := by
  refine proper_iff.2 ⟨fun x hx => ?_, Group.scalars_nil⟩
  obtain ⟨c, hc, hx⟩ := List.mem_flatMap.1 hx
  exact (proper_iff.1 (proper_ofPair (h c hc))).1 x hx

theorem proper_ofLogEquality {n : ℕ} {proof : LogEquality.Proof} (h : proof.Formed G n) :
    (ofLogEquality proof).Proper G :=
  proper_iff.2 ⟨h.members, h.scalars⟩

theorem proper_ofReencryption {proof : Reencryption.Proof} (h : proof.Formed G) :
    (ofReencryption proof).Proper G :=
  proper_iff.2 ⟨h.members, h.scalars⟩

theorem proper_ofShuffle {n : ℕ} {proof : Shuffle.Proof} (h : proof.Formed G n) :
    (ofShuffle proof).Proper G :=
  proper_iff.2 ⟨h.members, h.scalars⟩

theorem proper_ofShare {n : ℕ} {share : Sharing.DecryptionShare} (value : G.isMember share.value = true)
    (proof : share.proof.Formed G n) : (ofShare share).Proper G :=
  (proper_iff.2 ⟨by simpa using value, Group.scalars_nil⟩).append (proper_ofLogEquality proof)

end Numbers

/-! ## Closure -/

namespace Operation

open Result Numbers

variable {G : Group} {σ : Type}

theorem ensures_numbers {α : Type} {d : Draw σ α} {P : α → Prop} (h : d.Ensures P)
    {numbers : α → Numbers} (proper : ∀ a, P a → (numbers a).Proper G) :
    (do pure (numbers (← d)) : Draw σ Numbers).Ensures (Numbers.Proper G) :=
  h.bind fun a ha => Draw.ensures_pure (proper a ha)

/-- What a format decodes fits it. -/
theorem ensures_decode {α : Type} {F : Wire.Format α} {piece : α → Bytes} (spelled : F.Spelled piece)
    (data : Bytes) : (F.decode data).Ensures F.Fits := fun a => spelled.canonical.fits data a

section

variable [accepted : G.Accepted] [Workers.Scheduler] [Source σ]

/-- Whatever its arguments, the source and the order of the workers are, an operation either fails, or
all elements in its result are members and all scalars in it lie in `[0, q)`. -/
theorem operations_closed (op : Operation) {s s' : σ} {numbers : Numbers}
    (run : (op.run G).Returns s numbers s') : numbers.Proper G := by
  suffices ensures : (op.run G : Draw σ Numbers).Ensures (Numbers.Proper G) from
    ensures s numbers s' run
  -- One case for each operation: what it ensures, and why these numbers are proper.
  cases op with
  | encrypt pk m r =>
    exact ensures_numbers (Draw.ensures_liftM (G.ensures_encrypt pk m r)) fun _ => proper_ofPair
  | encryptWithNonce pk m =>
    exact ensures_numbers (G.ensures_encryptWithNonce pk m) fun _ h =>
      (proper_ofPair h.1).append (proper_ofScalar h.2)
  | encryptFresh pk m =>
    exact ensures_numbers (G.ensures_encryptFresh pk m) fun _ => proper_ofPair
  | reencrypt pk ct r =>
    exact ensures_numbers (Draw.ensures_liftM (G.ensures_reencrypt pk ct r)) fun _ => proper_ofPair
  | reencryptFresh pk ct =>
    exact ensures_numbers (G.ensures_reencryptFresh pk ct) fun _ => proper_ofPair
  | decrypt sk ct =>
    exact ensures_numbers (Draw.ensures_liftM (G.ensures_decrypt sk ct)) fun _ => proper_ofElement
  | combine a b =>
    exact ensures_numbers (Draw.ensures_liftM (G.ensures_combine a b)) fun _ => proper_ofPair
  | combineKeys shares =>
    refine ensures_numbers (Draw.ensures_liftM (G.ensures_combineKeys shares)) ?_
    rintro _ ⟨h, rfl, member⟩
    exact proper_ofElement member
  | accumulate cts =>
    exact ensures_numbers (Draw.ensures_liftM (Tally.ensures_accumulate cts)) fun _ => proper_ofPair
  | encodeExponential value =>
    exact ensures_numbers (Draw.ensures_liftM (G.ensures_genPow value.toNat)) fun _ =>
      proper_ofElement
  | encodeResidue value =>
    exact ensures_numbers (Draw.ensures_liftM (G.ensures_encodeResidue value)) fun _ =>
      proper_ofElement
  | reencryptWithProof pk ct domain =>
    exact ensures_numbers (Reencryption.ensures_reencryptWithProof pk ct domain) fun _ h =>
      (proper_ofPair h.1).append (proper_ofReencryption h.2)
  | shuffle pk inputs options =>
    exact ensures_numbers (Shuffle.ensures_shuffle pk inputs options) fun _ h =>
      (proper_ofPairs h.1).append (proper_ofShuffle h.2)
  | proveShuffle pk inputs outputs permutation randomizers options =>
    exact ensures_numbers (Shuffle.ensures_prove pk inputs outputs permutation randomizers options)
      fun _ => proper_ofShuffle
  | partialDecrypt share ct domain =>
    exact ensures_numbers (Sharing.ensures_partialDecrypt share ct domain) fun _ h =>
      proper_ofShare h.value h.proof
  | partialDecryptBatch share cts domain =>
    exact ensures_numbers (Sharing.ensures_partialDecryptBatch share cts domain) fun _ h =>
      (proper_iff.2 ⟨h.values, Group.scalars_nil⟩).append (proper_ofLogEquality h.proof)
  | publicShare commitments index =>
    exact ensures_numbers (Draw.ensures_liftM (Sharing.ensures_publicShareFrom index.toNat
      Group.isElement_one 1 commitments.coefficients)) fun _ => proper_ofElement
  | deal threshold total =>
    exact ensures_numbers (Sharing.ensures_deal threshold total) fun _ h =>
      proper_iff.2 ⟨h.members, h.scalars⟩
  | dealSecret secret threshold total =>
    exact ensures_numbers (Sharing.ensures_dealSecret secret threshold total) fun _ h =>
      proper_iff.2 ⟨h.members, h.scalars⟩
  | combineShares commitments ct shares domain =>
    exact ensures_numbers (Draw.ensures_liftM (Sharing.ensures_combine commitments ct shares domain))
      fun _ => proper_ofElement
  | combineBatch commitments cts shares domain =>
    exact ensures_numbers (Draw.ensures_liftM
      (Sharing.ensures_combineBatch commitments cts shares domain)) fun _ => proper_ofElements
  | decodeElement data =>
    exact ensures_numbers (Draw.ensures_liftM (ensures_decode (Wire.elementFormat_spelled G) data))
      fun _ => proper_ofElement
  | decodeScalar data =>
    exact ensures_numbers (Draw.ensures_liftM (ensures_decode (Wire.scalarFormat_spelled G) data))
      fun _ h => proper_iff.2 ⟨Group.members_nil, h⟩
  | decodeElements data =>
    exact ensures_numbers (Draw.ensures_liftM (ensures_decode (Wire.elementsFormat_spelled G) data))
      fun _ h => proper_iff.2 ⟨h.2, Group.scalars_nil⟩
  | decodeCiphertext data =>
    exact ensures_numbers (Draw.ensures_liftM
      (ensures_decode (Wire.ciphertextFormat_spelled G) data)) fun _ h =>
        proper_iff.2 ⟨h _ List.mem_cons_self, Group.scalars_nil⟩
  | decodeCiphertexts data =>
    refine ensures_numbers (Draw.ensures_liftM
      (ensures_decode (Wire.ciphertextsFormat_spelled G) data)) fun cs h => proper_ofPairs ?_
    intro c hc
    have members := h.2 _ (List.mem_map_of_mem hc)
    simp only [Group.members_cons, Group.members_nil, and_true] at members
    exact ⟨members.1, members.2⟩
  | decodeReencryption data =>
    exact ensures_numbers (Draw.ensures_liftM
      (ensures_decode (Wire.reencryptionFormat_spelled G) data)) fun _ => proper_ofReencryption
  | decodeLogEquality data =>
    exact ensures_numbers (Draw.ensures_liftM
      (ensures_decode (Wire.logEqualityFormat_spelled G) data)) fun _ h => proper_ofLogEquality h.2
  | decodeShuffle data =>
    refine ensures_numbers (Draw.ensures_liftM
      (ensures_decode (Wire.shuffleFormat_spelled G) data)) fun proof h => ?_
    obtain ⟨n, -, -, formed⟩ := h
    exact proper_ofShuffle formed
  | decodeShare data =>
    refine ensures_numbers (Draw.ensures_liftM
      (ensures_decode (Wire.shareFormat_spelled G) data)) fun share h => ?_
    obtain ⟨-, value, -, formed⟩ := h
    exact proper_ofShare (value _ List.mem_cons_self) formed

end

/-- A contribution of a share whose secret is below `-q` and whose public half is no member. -/
theorem operations_closed_least :
    let op : Operation := .partialDecrypt ⟨1, some (-1073741896), some 5⟩ ⟨some 16, some 64⟩ []
    let numbers : Numbers :=
      ⟨[some 1048576, some 390430993, some 655242468], [some 1017756790, some 296768515]⟩
    Group.least.isMember (some 5) = false ∧
    (op.run Group.least).Returns (⟨[1, 1, 1, 1]⟩ : Tape) numbers ⟨[]⟩ ∧
    numbers.Proper Group.least := by
  intro op numbers
  have outside : Group.least.isMember (some 5) = false := by decide +kernel
  have returned : (op.run Group.least).Returns (⟨[1, 1, 1, 1]⟩ : Tape) numbers ⟨[]⟩ := by
    show (_ : Result Numbers × Tape) = _
    decide +kernel
  exact ⟨outside, returned, operations_closed op returned⟩

end Operation

end BallotMix
