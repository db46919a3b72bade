import BallotMix.Proof.Reencryption
import BallotMix.Proofs.Group.Exponents
import BallotMix.Sharing.Decryption
import BallotMix.Shuffle.Basic
import Mathlib

/-!
# Well-formed data

What comes from outside is well formed if no number of it is missing, its elements lie in the group,
its scalars lie in `[0, q)` and its lists have the lengths they should have.  Verifiers accept
nothing else, decoders return nothing else, and all of it can be encoded.
-/

namespace BallotMix

namespace Group

variable (G : Group)

/-- All are there and lie in the group. -/
def Members (xs : List (Option ℤ)) : Prop := ∀ x ∈ xs, G.isMember x = true

/-- The number is there and lies in `[0, p)`. -/
def IsResidue (x : Option ℤ) : Prop := ∃ v : ℤ, x = some v ∧ 0 ≤ v ∧ v < G.p

/-- All are there and lie in `[0, p)`. -/
def Residues (xs : List (Option ℤ)) : Prop := ∀ x ∈ xs, G.IsResidue x

/-- All are there and lie in `[0, q)`. -/
def Scalars (ss : List (Option ℤ)) : Prop := ∀ s ∈ ss, ∃ v : ℤ, s = some v ∧ 0 ≤ v ∧ v < G.q

/-- All components of the ciphertexts lie in the group. -/
def MemberPairs (cts : List Ciphertext) : Prop := ∀ ct ∈ cts, G.Members [ct.c1, ct.c2]

variable {G}

theorem isScalar_iff_bounds {s : Option ℤ} :
    G.isScalar s = true ↔ ∃ v : ℤ, s = some v ∧ 0 ≤ v ∧ v < G.q := by
  cases s with
  | none => simp [isScalar]
  | some v => simp [isScalar]

theorem scalars_iff {ss : List (Option ℤ)} : G.Scalars ss ↔ ∀ s ∈ ss, G.isScalar s = true := by
  simp only [Scalars, isScalar_iff_bounds]

@[simp]
theorem isResidue_some {v : ℤ} : G.IsResidue (some v) ↔ 0 ≤ v ∧ v < G.p := by simp [IsResidue]

theorem isResidue_of_isMember {x : Option ℤ} (h : G.isMember x = true) : G.IsResidue x := by
  obtain ⟨v, rfl, positive, small, -⟩ := G.exists_of_isMember h
  exact isResidue_some.2 ⟨positive.le, small⟩

theorem Members.residues {xs : List (Option ℤ)} (h : G.Members xs) : G.Residues xs :=
  fun x hx => isResidue_of_isMember (h x hx)

@[simp]
theorem residues_nil : G.Residues [] := by simp [Residues]

@[simp]
theorem residues_cons {x : Option ℤ} {xs : List (Option ℤ)} :
    G.Residues (x :: xs) ↔ G.IsResidue x ∧ G.Residues xs :=
  List.forall_mem_cons

@[simp]
theorem residues_append {xs ys : List (Option ℤ)} :
    G.Residues (xs ++ ys) ↔ G.Residues xs ∧ G.Residues ys :=
  List.forall_mem_append

theorem residues_map_some {vs : List ℤ} :
    G.Residues (vs.map some) ↔ ∀ v ∈ vs, G.IsResidue (some v) := by
  simp [Residues]

@[simp]
theorem members_nil : G.Members [] := by simp [Members]

@[simp]
theorem members_cons {x : Option ℤ} {xs : List (Option ℤ)} :
    G.Members (x :: xs) ↔ G.isMember x = true ∧ G.Members xs :=
  List.forall_mem_cons

@[simp]
theorem members_append {xs ys : List (Option ℤ)} :
    G.Members (xs ++ ys) ↔ G.Members xs ∧ G.Members ys :=
  List.forall_mem_append

@[simp]
theorem scalars_nil : G.Scalars [] := by simp [Scalars]

@[simp]
theorem scalars_cons {s : Option ℤ} {ss : List (Option ℤ)} :
    G.Scalars (s :: ss) ↔ G.isScalar s = true ∧ G.Scalars ss := by
  rw [scalars_iff, scalars_iff, List.forall_mem_cons]

@[simp]
theorem scalars_append {ss ts : List (Option ℤ)} :
    G.Scalars (ss ++ ts) ↔ G.Scalars ss ∧ G.Scalars ts :=
  List.forall_mem_append

theorem members_map_some {vs : List ℤ} :
    G.Members (vs.map some) ↔ ∀ v ∈ vs, G.isMember (some v) = true := by
  simp [Members]

theorem scalars_map_some {vs : List ℤ} :
    G.Scalars (vs.map some) ↔ ∀ v ∈ vs, G.isScalar (some v) = true := by
  simp [scalars_iff]

theorem Members.exists_numbers {xs : List (Option ℤ)} (h : G.Members xs) :
    ∃ vs : List ℤ, xs = vs.map some := by
  refine exists_map_of_forall_mem fun x hx => ?_
  obtain ⟨v, rfl, -⟩ := G.exists_of_isMember (h x hx)
  exact ⟨v, rfl⟩

end Group

/-- A well-formed proof about `n` bases. -/
structure LogEquality.Proof.Formed (G : Group) (n : ℕ) (proof : LogEquality.Proof) : Prop where
  size : proof.commitments.length = n
  members : G.Members proof.commitments
  scalars : G.Scalars [proof.challenge, proof.response]

/-- A well-formed proof of re-encryption. -/
structure Reencryption.Proof.Formed (G : Group) (proof : Reencryption.Proof) : Prop where
  members : G.Members [proof.a, proof.b]
  scalars : G.Scalars [proof.challenge, proof.response]

/-- A proof of re-encryption that can be written: its elements are residues, members or not. -/
structure Reencryption.Proof.Writable (G : Group) (proof : Reencryption.Proof) : Prop where
  residues : G.Residues [proof.a, proof.b]
  scalars : G.Scalars [proof.challenge, proof.response]

/-- A proof of a shuffle that can be written: its elements are residues, members or not, and its lists
have any lengths. -/
structure Shuffle.Proof.Writable (G : Group) (proof : Shuffle.Proof) : Prop where
  residues : G.Residues (proof.commitment ++ proof.chain)
  scalars : G.Scalars
    ([proof.challenge, proof.s1, proof.s2, proof.s3, proof.s4] ++ proof.sHat ++ proof.sTilde)

/-- A well-formed proof about `n` ciphertexts. -/
@[mk_iff]
structure Shuffle.Proof.Formed (G : Group) (n : ℕ) (proof : Shuffle.Proof) : Prop where
  sHat : proof.sHat.length = n
  sTilde : proof.sTilde.length = n
  commitment : proof.commitment.length = n
  chain : proof.chain.length = n
  members : G.Members (proof.commitment ++ proof.chain)
  scalars : G.Scalars
    ([proof.challenge, proof.s1, proof.s2, proof.s3, proof.s4] ++ proof.sHat ++ proof.sTilde)

theorem Reencryption.Proof.Formed.writable {G : Group} {proof : Reencryption.Proof}
    (h : proof.Formed G) : proof.Writable G := ⟨h.members.residues, h.scalars⟩

theorem Shuffle.Proof.Formed.writable {G : Group} {n : ℕ} {proof : Shuffle.Proof}
    (h : proof.Formed G n) : proof.Writable G := ⟨h.members.residues, h.scalars⟩

end BallotMix
