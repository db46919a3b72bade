import BallotMix.Proofs.LogEquality
import Mathlib

/-!
# What accepted proofs determine

In a row that holds, the equation `b s = a + y c` gives the commitment from the other four numbers, the
image if the challenge is not zero, and the response if the base is not one.  So an accepted proof is
known from its commitments and from its answers (`eq_of_verify`), no part of it can be altered alone
(`Altered.verify_ne`), and under a challenge other than zero it is accepted for one list of images only
(`images_eq_of_verify`).

Two rows with one base, image and commitment that hold under different challenges give the exponent of
the image (`Row.Holds.image_eq_of_holds`).  It is computed from the answers of the two proofs alone
(`extract`, `exists_extract`).
-/

namespace BallotMix.LogEquality

/-! ## Rows -/

namespace Row

variable {q : ℕ} {e : Row q} {c c' s s' : ZMod q}

theorem Holds.commitment_eq (h : e.Holds c s) : e.commitment = e.base * s - e.image * c :=
  eq_sub_of_add_eq h.symm

/-- A column that depends on two others is known from them. -/
theorem map_eq_map {g h k k' : Row q → ZMod q} (f : ZMod q → ZMod q → ZMod q)
    {rows rows' : List (Row q)} (same : rows.map g = rows'.map g)
    (same' : rows.map h = rows'.map h) (column : ∀ e ∈ rows, k e = f (g e) (h e))
    (column' : ∀ e ∈ rows', k' e = f (g e) (h e)) : rows.map k = rows'.map k' := by
  have values (rows : List (Row q)) :
      rows.map (fun e => f (g e) (h e)) = List.zipWith f (rows.map g) (rows.map h) := by
    rw [List.zipWith_map, List.zipWith_self]
  rw [List.map_congr_left column, List.map_congr_left column', values, values, same, same']

variable [Fact q.Prime]

theorem Holds.image_eq (h : e.Holds c s) (nonzero : c ≠ 0) :
    e.image = (e.base * s - e.commitment) * c⁻¹ := by
  rw [eq_mul_inv_iff_mul_eq₀ nonzero, eq_sub_iff_add_eq']
  exact h.symm

/-- Two answers to two challenges give the exponent of the image. -/
theorem Holds.image_eq_of_holds (h : e.Holds c s) (h' : e.Holds c' s') (differ : c ≠ c') :
    e.image = e.base * ((s - s') * (c - c')⁻¹) := by
  rw [← mul_assoc, eq_mul_inv_iff_mul_eq₀ (sub_ne_zero.2 differ)]
  rw [Holds] at h h'
  linear_combination h' - h

end Row

variable {G : Group} [accepted : G.Accepted]

theorem column_inj {as bs : List (ZMod G.q)} :
    (as.map G.element).map some = (bs.map G.element).map some ↔ as = bs :=
  (Option.some_injective ℤ).list_map.eq_iff.trans G.element_injective.list_map.eq_iff

/-- Proofs are the same if their columns of commitments, their challenges and their responses are. -/
theorem proofOf_inj {rows rows' : List (Row G.q)} {c c' s s' : ZMod G.q} :
    proofOf G rows c s = proofOf G rows' c' s' ↔
      rows.map Row.commitment = rows'.map Row.commitment ∧ c = c' ∧ s = s' := by
  rw [proofOf, proofOf, Proof.mk.injEq, commitmentsOf, commitmentsOf, column_inj, Option.some.injEq,
    Option.some.injEq, G.scalar_inj, G.scalar_inj]

/-! ## Accepted proofs -/

attribute [ext] Proof

variable {context context' : Transcript} {bases images images' : List (Option ℤ)}
  {proof proof' : Proof}

/-- Challenge and response determine the commitments. -/
theorem commitments_eq_of_verify (h : verify G context bases images proof = .ok true)
    (h' : verify G context' bases images proof' = .ok true)
    (challenges : proof.challenge = proof'.challenge) (responses : proof.response = proof'.response) :
    proof.commitments = proof'.commitments := by
  obtain ⟨rows, c, s, rfl, rfl, rfl, -, holds⟩ := exists_accepts G h
  obtain ⟨rows', c', s', bases, images, rfl, -, holds'⟩ := exists_accepts G h'
  obtain rfl : c = c' := G.scalar_injective (Option.some.inj challenges)
  obtain rfl : s = s' := G.scalar_injective (Option.some.inj responses)
  exact column_inj.2 (Row.map_eq_map (fun b y => b * s - y * c) (column_inj.1 bases)
    (column_inj.1 images) (fun e he => (holds e he).commitment_eq)
    fun e he => (holds' e he).commitment_eq)

/-- The commitments determine the challenge, and the response as well if some base is not one. -/
theorem answers_eq_of_verify (h : verify G context bases images proof = .ok true)
    (h' : verify G context bases images proof' = .ok true)
    (commitments : proof.commitments = proof'.commitments) (proper : ∃ b ∈ bases, b ≠ some 1) :
    proof.challenge = proof'.challenge ∧ proof.response = proof'.response := by
  obtain ⟨rows, c, s, rfl, rfl, rfl, hc, holds⟩ := exists_accepts G h
  obtain ⟨rows', c', s', bases, images, rfl, hc', holds'⟩ := exists_accepts G h'
  replace bases : rows.map Row.base = rows'.map Row.base := column_inj.1 bases
  replace images : rows.map Row.image = rows'.map Row.image := column_inj.1 images
  replace commitments : rows.map Row.commitment = rows'.map Row.commitment :=
    column_inj.1 commitments
  obtain rfl : c = c' := by
    rw [basesOf, imagesOf, commitmentsOf, bases, images, commitments] at hc
    exact G.scalar_injective (Except.ok.inj (hc.symm.trans hc'))
  -- The products with the two responses are what the other columns say, in both lists of rows.
  have products : rows.map (fun e => e.base * s) = rows.map fun e => e.base * s' :=
    (Row.map_eq_map (fun a y => a + y * c) commitments images holds holds').trans
      (Row.map_eq_map (fun b _ => b * s') bases.symm bases.symm (fun _ _ => rfl) fun _ _ => rfl)
  obtain ⟨e, he, ne⟩ : ∃ e ∈ rows, e.base ≠ 0 := by
    obtain ⟨b, hb, ne⟩ := proper
    simp only [basesOf, List.map_map, List.mem_map, Function.comp_apply] at hb
    obtain ⟨e, he, rfl⟩ := hb
    exact ⟨e, he, fun zero => ne (by rw [zero, G.element_zero])⟩
  obtain rfl : s = s' := mul_left_cancel₀ ne (List.map_inj_left.1 products e he)
  exact ⟨rfl, rfl⟩

/-- Under a challenge other than zero a proof is accepted for one list of images. -/
theorem images_eq_of_verify (h : verify G context bases images proof = .ok true)
    (h' : verify G context' bases images' proof = .ok true) (nonzero : proof.challenge ≠ some 0) :
    images = images' := by
  obtain ⟨rows, c, s, rfl, rfl, rfl, -, holds⟩ := exists_accepts G h
  obtain ⟨rows', c', s', bases, rfl, same, -, holds'⟩ := exists_accepts G h'
  obtain ⟨commitments, rfl, rfl⟩ := proofOf_inj.1 same
  have unit : c ≠ 0 := fun zero => nonzero (by rw [proofOf, zero, G.scalar_zero])
  exact column_inj.2 (Row.map_eq_map (fun b a => (b * s - a) * c⁻¹) (column_inj.1 bases) commitments
    (fun e he => (holds e he).image_eq unit) fun e he => (holds' e he).image_eq unit)

/-- A proof is known from its commitments, and from its challenge and response. -/
theorem eq_of_verify (h : verify G context bases images proof = .ok true)
    (h' : verify G context bases images proof' = .ok true) (proper : ∃ b ∈ bases, b ≠ some 1)
    (agree : proof.commitments = proof'.commitments ∨
      (proof.challenge = proof'.challenge ∧ proof.response = proof'.response)) : proof = proof' := by
  cases agree with
  | inl commitments =>
    obtain ⟨challenge, response⟩ := answers_eq_of_verify h h' commitments proper
    exact Proof.ext commitments challenge response
  | inr answers =>
    exact Proof.ext (commitments_eq_of_verify h h' answers.1 answers.2) answers.1 answers.2

/-! ## Alterations -/

/-- One of the three parts of a proof was changed, to whatever else. -/
inductive Altered (proof : Proof) : Proof → Prop
  | commitments {as : List (Option ℤ)} (ne : as ≠ proof.commitments) :
      Altered proof { proof with commitments := as }
  | challenge {c : Option ℤ} (ne : c ≠ proof.challenge) : Altered proof { proof with challenge := c }
  | response {s : Option ℤ} (ne : s ≠ proof.response) : Altered proof { proof with response := s }

omit accepted in
/-- What an alteration leaves is enough to know the proof from. -/
theorem Altered.agree (altered : Altered proof proof') :
    proof.commitments = proof'.commitments ∨
      (proof.challenge = proof'.challenge ∧ proof.response = proof'.response) := by
  cases altered with
  | commitments => exact Or.inr ⟨rfl, rfl⟩
  | challenge | response => exact Or.inl rfl

omit accepted in
theorem Altered.ne (altered : Altered proof proof') : proof ≠ proof' := by
  intro same
  cases altered with
  | commitments ne => exact ne (congrArg Proof.commitments same).symm
  | challenge ne => exact ne (congrArg Proof.challenge same).symm
  | response ne => exact ne (congrArg Proof.response same).symm

theorem Altered.verify_ne (altered : Altered proof proof')
    (h : verify G context bases images proof = .ok true) (proper : ∃ b ∈ bases, b ≠ some 1) :
    verify G context bases images proof' ≠ .ok true :=
  fun h' => altered.ne (eq_of_verify h h' proper altered.agree)

/-! ## Extraction -/

/-- The exponent that the answers of two proofs give: the difference of the responses over that of the
challenges. -/
def extract (G : Group) (proof proof' : Proof) : Result ℤ := do
  let s ← G.scalarSub (← present proof.response) (← present proof'.response)
  let c ← G.scalarSub (← present proof.challenge) (← present proof'.challenge)
  G.scalarMul s (← Modular.inverse c G.q)

/-- The base, the image and the commitment that stand at place `i` of a call of the verifier. -/
def HasAt (bases images : List (Option ℤ)) (proof : Proof) (i : ℕ) (b y a : ℤ) : Prop :=
  bases[i]? = some (some b) ∧ images[i]? = some (some y) ∧ proof.commitments[i]? = some (some a)

theorem extract_eq {as as' : List (Option ℤ)} {c c' s s' : ZMod G.q} (differ : c ≠ c') :
    extract G ⟨as, some (G.scalar c), some (G.scalar s)⟩ ⟨as', some (G.scalar c'), some (G.scalar s')⟩
      = .ok (G.scalar ((s - s') * (c - c')⁻¹)) := by
  have unit : IsUnit ((G.scalar (c - c') : ℤ) : ZMod G.q) := by
    rw [G.cast_scalar]
    exact isUnit_iff_ne_zero.2 (sub_ne_zero.2 differ)
  have inverse : Modular.inverse (G.scalar (c - c')) G.q = .ok (G.scalar (c - c')⁻¹) := by
    rw [Modular.inverse_of_isUnit accepted.prime_order.one_lt unit, G.cast_scalar]
    rfl
  simp [extract, inverse]

theorem Accepts.exists_row {rows : List (Row G.q)} {c s : ZMod G.q}
    (run : Accepts G context bases images proof rows c s) {i : ℕ} {b y a : ℤ}
    (h : HasAt bases images proof i b y a) :
    ∃ e ∈ rows, b = G.element e.base ∧ y = G.element e.image ∧ a = G.element e.commitment := by
  obtain ⟨rfl, rfl, rfl, -, -⟩ := run
  obtain ⟨hb, hy, ha⟩ := h
  simp only [basesOf, imagesOf, commitmentsOf, proofOf, List.map_map, List.getElem?_map,
    Option.map_eq_some_iff, Function.comp_apply, Option.some.injEq] at hb hy ha
  obtain ⟨e, he, rfl⟩ := hb
  simp only [he, Option.some.injEq, exists_eq_left'] at hy ha
  exact ⟨e, List.mem_of_getElem? he, rfl, hy.symm, ha.symm⟩

/-- What two accepted proofs with different challenges give is the logarithm of every image that stands
beside its base and its commitment in both. -/
theorem exists_extract {bases' : List (Option ℤ)}
    (h : verify G context bases images proof = .ok true)
    (h' : verify G context' bases' images' proof' = .ok true)
    (differ : proof.challenge ≠ proof'.challenge) :
    ∃ x, extract G proof proof' = .ok x ∧ ∀ i j b y a, HasAt bases images proof i b y a →
      HasAt bases' images' proof' j b y a → G.pow b x = .ok y := by
  obtain ⟨rows, c, s, run⟩ := exists_accepts G h
  obtain ⟨rows', c', s', run'⟩ := exists_accepts G h'
  have challenges : c ≠ c' := by
    rintro rfl
    exact differ (by rw [run.proof, run'.proof]; rfl)
  have extracted : extract G proof proof' = .ok (G.scalar ((s - s') * (c - c')⁻¹)) := by
    rw [run.proof, run'.proof]
    exact extract_eq challenges
  refine ⟨_, extracted, ?_⟩
  intro i j b y a at₁ at₂
  obtain ⟨e, he, rfl, rfl, rfl⟩ := run.exists_row at₁
  obtain ⟨e', he', base, image, commitment⟩ := run'.exists_row at₂
  rw [G.element_inj] at base image commitment
  -- The two places hold one row, which holds under both challenges.
  obtain rfl : e = e' := Row.ext base image commitment
  rw [G.pow_element_scalar, ← (run.holds e he).image_eq_of_holds (run'.holds e he') challenges]

end BallotMix.LogEquality
