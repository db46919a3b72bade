import BallotMix.Proofs.Dot
import BallotMix.Proofs.ElGamal.Exponents
import BallotMix.Proofs.Workers
import BallotMix.Shuffle.Verify
import Mathlib

/-!
# Shuffle proofs by exponents

A proof whose elements are members and whose scalars are in range is given by exponents
(`ProofLogs`), and so are the statement it is about and the announcement that is recomputed from it.
`recompute_eq` says what the verifier computes: each number of the announcement is a linear
expression in the exponents of the proof.
-/

namespace BallotMix.Shuffle

/-! ## Exponents -/

/-- What the verifier's equations are about, by exponents: the generators, the key, the ciphertexts
and the scalars of the inputs. -/
structure StatementLogs (q : ℕ) where
  base : ZMod q
  h : List (ZMod q)
  key : ZMod q
  inputs : List (ZMod q × ZMod q)
  outputs : List (ZMod q × ZMod q)
  u : List (ZMod q)

/-- A proof by exponents. -/
structure ProofLogs (q : ℕ) where
  challenge : ZMod q
  s1 : ZMod q
  s2 : ZMod q
  s3 : ZMod q
  s4 : ZMod q
  sHat : List (ZMod q)
  sTilde : List (ZMod q)
  commitment : List (ZMod q)
  chain : List (ZMod q)

/-- An announcement by exponents. -/
@[ext]
structure AnnouncementLogs (q : ℕ) where
  t1 : ZMod q
  t2 : ZMod q
  t3 : ZMod q
  t41 : ZMod q
  t42 : ZMod q
  tHat : List (ZMod q)

section Logs

variable {q : ℕ}

/-- The exponents that come before those of a chain. -/
def previousLogs (base : ZMod q) (chain : List (ZMod q)) : List (ZMod q) := base :: chain.dropLast

theorem zip_previousLogs {α : Type} {base : ZMod q} {chain : List (ZMod q)} {ys : List α}
    (h : ys.length ≤ chain.length) :
    (previousLogs base chain).zip ys = (base :: chain).zip ys := by
  induction ys generalizing base chain with
  | nil => simp
  | cons y ys ih =>
    match chain, h with
    | [d], h => simp_all [previousLogs]
    | d :: d' :: ds, h =>
      have shorter : ys.length ≤ (d' :: ds).length := by simpa using h
      exact congrArg ((base, y) :: ·) (ih shorter)

/-- The links of a proof: each with the one before it and its two responses. -/
def ProofLogs.links (base : ZMod q) (π : ProofLogs q) :
    List (ZMod q × ZMod q × ZMod q × ZMod q) :=
  (previousLogs base π.chain).zip (π.chain.zip (π.sHat.zip π.sTilde))

/-- The announcement that satisfies all equations under the challenge of the proof. -/
def recomputeLogs (x : StatementLogs q) (π : ProofLogs q) : AnnouncementLogs q where
  t1 := (π.commitment.sum - x.h.sum) * π.challenge + π.s1
  t2 := (π.chain.getLastD 0 - x.base * x.u.prod) * π.challenge + π.s2
  t3 := dot π.commitment x.u * π.challenge + π.s3 + dot x.h π.sTilde
  t41 := dot (x.inputs.map Prod.fst) x.u * π.challenge + -π.s4 +
    dot (x.outputs.map Prod.fst) π.sTilde
  t42 := dot (x.inputs.map Prod.snd) x.u * π.challenge + x.key * -π.s4 +
    dot (x.outputs.map Prod.snd) π.sTilde
  tHat := (π.links x.base).map fun l => l.2.1 * π.challenge + l.2.2.1 + l.1 * l.2.2.2

end Logs

variable (G : Group) [accepted : G.Accepted]

/-- The generators with the given exponents. -/
def generatorsOf (base : ZMod G.q) (h : List (ZMod G.q)) : Generators :=
  ⟨G.element base, h.map G.element⟩

/-- The proof with the given exponents. -/
def proofOf (π : ProofLogs G.q) : CompleteProof where
  challenge := G.scalar π.challenge
  s1 := G.scalar π.s1
  s2 := G.scalar π.s2
  s3 := G.scalar π.s3
  s4 := G.scalar π.s4
  sHat := π.sHat.map G.scalar
  sTilde := π.sTilde.map G.scalar
  commitment := π.commitment.map G.element
  chain := π.chain.map G.element

/-- The announcement with the given exponents. -/
def announcementOf (t : AnnouncementLogs G.q) : Announcement where
  t1 := G.element t.t1
  t2 := G.element t.t2
  t3 := G.element t.t3
  t41 := G.element t.t41
  t42 := G.element t.t42
  tHat := t.tHat.map G.element

/-- The elements of an announcement. -/
def Announcement.elements (t : Announcement) : List ℤ :=
  t.t1 :: t.t2 :: t.t3 :: t.t41 :: t.t42 :: t.tHat

/-- Announcements of members are those with exponents. -/
theorem exists_announcementOf {t : Announcement}
    (members : ∀ v ∈ t.elements, G.isMember (some v) = true) :
    ∃ l : AnnouncementLogs G.q, t = announcementOf G l := by
  obtain ⟨t1, t2, t3, t41, t42, tHat⟩ := t
  simp only [Announcement.elements, List.forall_mem_cons] at members
  obtain ⟨h1, h2, h3, h41, h42, hHat⟩ := members
  obtain ⟨t1, rfl⟩ := G.exists_element h1
  obtain ⟨t2, rfl⟩ := G.exists_element h2
  obtain ⟨t3, rfl⟩ := G.exists_element h3
  obtain ⟨t41, rfl⟩ := G.exists_element h41
  obtain ⟨t42, rfl⟩ := G.exists_element h42
  obtain ⟨tHat, rfl⟩ := G.exists_elements hHat
  exact ⟨⟨t1, t2, t3, t41, t42, tHat⟩, rfl⟩

theorem generatorsOf_inj {base base' : ZMod G.q} {h h' : List (ZMod G.q)} :
    generatorsOf G base h = generatorsOf G base' h' ↔ base = base' ∧ h = h' := by
  rw [generatorsOf, generatorsOf, Generators.mk.injEq, Group.element_inj,
    G.element_injective.list_map.eq_iff]

theorem announcementOf_injective : Function.Injective (announcementOf G) := by
  intro t t' h
  simp only [announcementOf, Announcement.mk.injEq, Group.element_inj] at h
  obtain ⟨h1, h2, h3, h41, h42, hHat⟩ := h
  exact AnnouncementLogs.ext h1 h2 h3 h41 h42 (G.element_injective.list_map hHat)

/-! ## What is computed -/

theorem powProd_eq (threads : ℕ) (as bs : List (ZMod G.q)) :
    powProd G threads (as.map G.element) (bs.map G.scalar) = .ok (G.element (dot as bs)) := by
  have powers : ∀ ab ∈ as.zip bs,
      G.pow (Prod.map G.element G.scalar ab).1 (Prod.map G.element G.scalar ab).2
        = .ok (G.element (ab.1 * ab.2)) := fun ab _ => G.pow_element_scalar ab.1 ab.2
  rw [powProd, List.zip_map, Workers.forList_map_eq_ok powers, Result.ok_bind,
    ← Function.comp_def G.element, ← List.map_map, G.prod_elements, sum_map_zip]

theorem previousLinks_elements (base : ZMod G.q) (chain : List (ZMod G.q)) :
    previousLinks (G.element base) (chain.map G.element)
      = (previousLogs base chain).map G.element := by
  rw [previousLinks, previousLogs, List.map_cons, List.map_dropLast]

theorem getLastD_elements {chain : List (ZMod G.q)} (h : chain ≠ []) :
    (chain.map G.element).getLastD 0 = G.element (chain.getLastD 0) := by
  rw [List.getLastD_eq_getLast?, List.getLastD_eq_getLast?, List.getLast?_map,
    List.getLast?_eq_some_getLast h]
  rfl

theorem getD_elements {as : List (ZMod G.q)} {i : ℕ} (h : i < as.length) :
    (as.map G.element).getD i 0 = G.element (as.getD i 0) := by
  rw [List.getD_eq_getElem _ _ (by rwa [List.length_map]), List.getElem_map,
    List.getD_eq_getElem _ _ h]

/-- The verifier recomputes the announcement in the exponents. -/
theorem recompute_eq (threads : ℕ) (x : StatementLogs G.q) {π : ProofLogs G.q}
    (h : π.chain ≠ []) :
    recompute G threads (generatorsOf G x.base x.h) (G.element x.key) (x.inputs.map G.pairOf)
      (x.outputs.map G.pairOf) (x.u.map G.scalar) (proofOf G π)
      = .ok (announcementOf G (recomputeLogs x π)) := by
  simp only [recompute, generatorsOf, proofOf, G.map_c1_pairOf, G.map_c2_pairOf, powProd_eq,
    G.prod_elements, G.div_element, G.scalarProd_eq, G.map_cast_scalars, G.pow_element_scalar, Result.ok_bind,
    G.scalarNeg_eq, G.cast_scalar, G.genPow_scalar, G.mul_element, previousLinks_elements,
    getLastD_elements G h, List.zip_map]
  rw [Workers.forList_map_eq_ok (g := fun l => G.element (l.2.1 * π.challenge + l.2.2.1 +
    l.1 * l.2.2.2)) fun l _ => by simp]
  simp [announcementOf, recomputeLogs, ProofLogs.links]

end BallotMix.Shuffle
