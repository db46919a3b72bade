import BallotMix.Proof.Reencryption
import BallotMix.Proofs.ElGamal.Exponents
import BallotMix.Proofs.LogEquality.Soundness
import Mathlib

/-!
# What proofs of re-encryption are bound to

On members the verifier is the one of equal logarithms, applied to the quotients of the components
(`verify_cipherOf`), and it sees the two ciphertexts through them only.  So an accepted proof is
accepted for all pairs of ciphertexts with the same quotients, and under a challenge other than zero for
no others (`verify_eq_decide`); from one original these are one (`output_eq_of_verify`).
-/

namespace BallotMix.Reencryption

/-! ## Quotients -/

/-- The exponents of the quotients of two ciphertexts. -/
def quotientsOf {q : ℕ} (a b : ZMod q × ZMod q) : List (ZMod q) := [b.1 - a.1, b.2 - a.2]

/-- From one original there is one ciphertext with given quotients. -/
theorem quotientsOf_right_inj {q : ℕ} {a b b' : ZMod q × ZMod q} :
    quotientsOf a b' = quotientsOf a b ↔ b' = b := by
  simp [quotientsOf, Prod.ext_iff]

variable (G : Group) [accepted : G.Accepted]

theorem quotients_pairOf (a b : ZMod G.q × ZMod G.q) :
    quotients G (G.pairOf a) (G.pairOf b) = .ok ((quotientsOf a b).map G.element) := by
  simp [quotients, quotientsOf, Group.pairOf]

theorem quotientsOf_inj {a b a' b' : ZMod G.q × ZMod G.q} :
    quotientsOf a' b' = quotientsOf a b ↔
      (G.element b'.1 / G.element a'.1 : ZMod G.p) = G.element b.1 / G.element a.1 ∧
        (G.element b'.2 / G.element a'.2 : ZMod G.p) = G.element b.2 / G.element a.2 := by
  simp [quotientsOf, ← Group.residue_sub, G.residue_injective.eq_iff]

/-! ## Verifying -/

theorem exists_exponents {pk : PublicKey} {input output : Ciphertext}
    (members : [pk.h, input.c1, input.c2, output.c1, output.c2].all G.isMember = true) :
    ∃ k a b, pk = ⟨some (G.element k)⟩ ∧ input = G.cipherOf a ∧ output = G.cipherOf b := by
  obtain ⟨h⟩ := pk
  simp only [List.all_cons, List.all_nil, Bool.and_true, Bool.and_eq_true] at members
  obtain ⟨hk, i₁, i₂, o₁, o₂⟩ := members
  obtain ⟨k, rfl⟩ := G.isMember_iff.1 hk
  obtain ⟨a, rfl⟩ := G.exists_cipherOf i₁ i₂
  obtain ⟨b, rfl⟩ := G.exists_cipherOf o₁ o₂
  exact ⟨k, a, b, rfl, rfl, rfl⟩

theorem verify_cipherOf (k : ZMod G.q) (a b : ZMod G.q × ZMod G.q) {proof : Proof}
    (complete : proof.isComplete = true) (domain : Bytes) :
    verify G ⟨some (G.element k)⟩ (G.cipherOf a) (G.cipherOf b) proof domain
      = LogEquality.verify G (context domain) [some G.g, some (G.element k)]
          (((quotientsOf a b).map G.element).map some) proof.toLogEquality := by
  simp [verify, complete, quotients_pairOf]

/-- A verification never fails. -/
theorem exists_verify (pk : PublicKey) (input output : Ciphertext) (proof : Proof) (domain : Bytes) :
    ∃ b, verify G pk input output proof domain = .ok b := by
  by_cases members : [pk.h, input.c1, input.c2, output.c1, output.c2].all G.isMember = true
  · by_cases complete : proof.isComplete = true
    · obtain ⟨k, a, b, rfl, rfl, rfl⟩ := exists_exponents G members
      rw [verify_cipherOf G k a b complete]
      exact LogEquality.exists_verify G _ _ _ _
    · exact ⟨false, by simp only [verify, members, complete]; rfl⟩
  · exact ⟨false, by simp only [verify, members]; rfl⟩

/-- What is accepted are members and a complete proof. -/
theorem exists_exponents_of_verify {pk : PublicKey} {input output : Ciphertext} {proof : Proof}
    {domain : Bytes} (h : verify G pk input output proof domain = .ok true) :
    (∃ k a b, pk = ⟨some (G.element k)⟩ ∧ input = G.cipherOf a ∧ output = G.cipherOf b) ∧
      proof.isComplete = true := by
  simp only [verify, Result.pure_eq_ok, Result.ite_false_eq_true_iff, Bool.not_eq_true',
    Bool.not_eq_false] at h
  obtain ⟨members, complete, -⟩ := h
  exact ⟨exists_exponents G members, complete⟩

variable {G}

/-- A proof that is accepted once is accepted for the same quotients only. -/
theorem verify_eq_decide {k : ZMod G.q} {a b : ZMod G.q × ZMod G.q} {proof : Proof} {domain : Bytes}
    (h : verify G ⟨some (G.element k)⟩ (G.cipherOf a) (G.cipherOf b) proof domain = .ok true)
    (nonzero : proof.challenge ≠ some 0) (a' b' : ZMod G.q × ZMod G.q) :
    verify G ⟨some (G.element k)⟩ (G.cipherOf a') (G.cipherOf b') proof domain
      = .ok (decide (quotientsOf a' b' = quotientsOf a b)) := by
  obtain ⟨-, complete⟩ := exists_exponents_of_verify G h
  rw [verify_cipherOf G k _ _ complete] at h ⊢
  by_cases same : quotientsOf a' b' = quotientsOf a b
  · rw [same, h, decide_eq_true rfl]
  · rw [decide_eq_false same]
    -- Accepted again, the proof would be one for two lists of images.
    apply Result.eq_ok_false (LogEquality.exists_verify G _ _ _ _)
    intro h'
    have images := LogEquality.images_eq_of_verify h' h nonzero
    exact same (LogEquality.column_inj.1 images)

/-- From one original a proof is accepted for one ciphertext. -/
theorem output_eq_of_verify {pk : PublicKey} {input output output' : Ciphertext} {proof : Proof}
    {domain : Bytes} (h : verify G pk input output proof domain = .ok true)
    (h' : verify G pk input output' proof domain = .ok true) (nonzero : proof.challenge ≠ some 0) :
    output = output' := by
  obtain ⟨⟨k, a, b, rfl, rfl, rfl⟩, -⟩ := exists_exponents_of_verify G h
  obtain ⟨⟨_, _, b', -, -, rfl⟩, -⟩ := exists_exponents_of_verify G h'
  have decided := (verify_eq_decide h nonzero a b').symm.trans h'
  rw [Except.ok.injEq, decide_eq_true_eq, quotientsOf_right_inj] at decided
  rw [decided]

/-- A proof with a challenge other than zero that is accepted for two ciphertexts is accepted for two
others, under the same key and domain, exactly if the quotients of their components are the same; so
from the same original it is accepted for no other ciphertext. -/
theorem verify_iff_quotients {pk : PublicKey} {o r : Pair} {proof : Proof} {domain : Bytes}
    (h : verify G pk o.toCiphertext r.toCiphertext proof domain = .ok true)
    (nonzero : proof.challenge ≠ some 0) :
    (∀ o' r' : Pair, (∀ v ∈ [o'.c1, o'.c2, r'.c1, r'.c2], G.isMember (some v) = true) →
      verify G pk o'.toCiphertext r'.toCiphertext proof domain
        = .ok (decide ((r'.c1 / o'.c1 : ZMod G.p) = r.c1 / o.c1 ∧
            (r'.c2 / o'.c2 : ZMod G.p) = r.c2 / o.c2))) ∧
    (∀ r' ≠ r.toCiphertext, verify G pk o.toCiphertext r' proof domain = .ok false) := by
  obtain ⟨⟨k, a, b, rfl, ho, hr⟩, -⟩ := exists_exponents_of_verify G h
  obtain rfl : o = G.pairOf a := Group.toCiphertext_injective ho
  obtain rfl : r = G.pairOf b := Group.toCiphertext_injective hr
  constructor
  · intro o' r' members
    simp only [List.forall_mem_cons] at members
    obtain ⟨o₁, o₂, r₁, r₂, -⟩ := members
    obtain ⟨a', rfl⟩ := G.exists_pairOf o₁ o₂
    obtain ⟨b', rfl⟩ := G.exists_pairOf r₁ r₂
    have decided := verify_eq_decide h nonzero a' b'
    simp only [quotientsOf_inj] at decided
    exact decided
  · intro r' ne
    apply Result.eq_ok_false (exists_verify G _ _ _ _ _)
    intro h'
    exact ne (output_eq_of_verify h' h nonzero)

/-- A proof for the nonce three, taken to another ballot that is re-encrypted with it, to one that is
not, and to an output with its lowest bit changed. -/
theorem verify_iff_quotients_least :
    let pk : PublicKey := ⟨some 16384⟩
    let proof : Proof := ⟨some 390430993, some 1171387715, some 502824122, some 451573485⟩
    let ballot : Pair := ⟨16, 64⟩
    let other : Pair := ⟨4, 4⟩
    verify Group.least pk ballot.toCiphertext ⟨some 1024, some 2129789063⟩ proof [] = .ok true ∧
      verify Group.least pk other.toCiphertext ⟨some 256, some 2146377863⟩ proof [] = .ok true ∧
      verify Group.least pk other.toCiphertext ⟨some 256, some 4⟩ proof [] = .ok false ∧
      verify Group.least pk ballot.toCiphertext ⟨some 1025, some 2129789063⟩ proof []
        = .ok false := by
  intro pk proof ballot other
  let output : Pair := ⟨1024, 2129789063⟩
  have verified : verify Group.least pk ballot.toCiphertext output.toCiphertext proof [] = .ok true := by
    decide +kernel
  obtain ⟨replays, flips⟩ := verify_iff_quotients verified (by decide)
  have replayed := replays other ⟨256, 2146377863⟩ (by decide +kernel)
  have refused := replays other ⟨256, 4⟩ (by decide +kernel)
  rw [decide_eq_true (by decide +kernel)] at replayed
  rw [decide_eq_false (by decide +kernel)] at refused
  exact ⟨verified, replayed, refused, flips _ (by decide)⟩

end BallotMix.Reencryption
