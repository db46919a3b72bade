import BallotMix.Bytes.Lemmas
import BallotMix.Proofs.Group.Generators
import BallotMix.Shuffle.Basic
import Mathlib

/-!
# What derived generators depend on

Element `i` of a domain depends on the domain and on `i` alone, so a longer list starts with a shorter
one.  The string that is hashed ends in the tag, the index and the counter, twelve bytes at fixed
places from the end, and the length in front has a fixed width too.  So it tells the domain, the index
and the counter, whatever bytes the domain has (`generatorSeed_inj`).  The generators of a shuffle are
the first elements of a domain that tells the election, and those of two elections have no seed in
common (`derivedGenerators_exact`).
-/

namespace BallotMix

namespace Group

/-! ## Seeds -/

/-- A seed tells what it was made from. -/
theorem generatorSeed_inj {domain domain' : Bytes} {index index' counter counter' : UInt32} :
    generatorSeed domain index counter = generatorSeed domain' index' counter' ↔
      domain = domain' ∧ index = index' ∧ counter = counter' := by
  constructor
  · intro same
    -- The domain may hold any bytes, so the fields behind it are read from the end.
    obtain ⟨front, counters⟩ := List.append_inj' same (by simp)
    obtain ⟨front, indices⟩ := List.append_inj' front (by simp)
    have texts := List.append_cancel_right front
    exact ⟨(List.append_inj texts (by simp)).2, Bytes.ofUInt32_injective indices,
      Bytes.ofUInt32_injective counters⟩
  · rintro ⟨rfl, rfl, rfl⟩
    rfl

variable (G : Group)

/-! ## Lists of elements -/

/-- A list of elements holds the element for each index. -/
theorem derivedGenerators_eq_ok_iff {domain : Bytes} {count : ℕ} {gens : List ℤ} :
    G.derivedGenerators domain count = .ok gens ↔
      gens.length = count ∧ ∀ i, ∀ hi : i < gens.length, G.derivedGenerator domain i = .ok gens[i] := by
  rw [derivedGenerators, Result.mapM_eq_ok_iff, List.forall₂_iff_get]
  constructor
  · rintro ⟨length, each⟩
    refine ⟨by rw [← length, List.length_range], fun i hi => ?_⟩
    simpa using each i (length ▸ hi) hi
  · rintro ⟨rfl, each⟩
    refine ⟨List.length_range, fun i low high => ?_⟩
    simpa using each i high

/-- The first elements of a domain do not depend on how many are asked for. -/
theorem derivedGenerators_take {domain : Bytes} {count m : ℕ} {gens : List ℤ}
    (derived : G.derivedGenerators domain count = .ok gens) (le : m ≤ count) :
    G.derivedGenerators domain m = .ok (gens.take m) := by
  obtain ⟨length, each⟩ := G.derivedGenerators_eq_ok_iff.1 derived
  refine G.derivedGenerators_eq_ok_iff.2 ⟨by rw [List.length_take]; omega, fun i hi => ?_⟩
  rw [List.getElem_take]
  rw [List.length_take] at hi
  exact each i (by omega)

/-- The generators of a shuffle are the first elements of a domain that tells the election. -/
theorem shuffleGenerators_eq_ok_iff {domain : Bytes} {n : ℕ} {gens : Shuffle.Generators} :
    Shuffle.generators G domain n = .ok gens ↔
      G.derivedGenerators (domain ++ Bytes.ofText "/shuffle") (n + 1) =
        .ok (gens.base :: gens.h) := by
  obtain ⟨base, h⟩ := gens
  rw [Shuffle.generators, derivedGenerators, List.range_succ_eq_map, List.mapM_cons, List.mapM_map]
  simp only [Result.bind_eq_ok_iff, Result.pure_eq_ok, Except.ok.injEq, Shuffle.Generators.mk.injEq,
    List.cons.injEq, Function.comp_def, Nat.succ_eq_add_one]

/-! ## What derivation gives -/

variable [accepted : G.Accepted]

/-- What derivation gives for a count: that many members other than one, with the elements for each
smaller count in front, each the square at the least usable counter for its index.  Seeds for other
domains, indices or counters are other strings.  A shuffle takes its generators from a domain that
tells the election, so the seeds of two elections are never the same. -/
theorem derivedGenerators_exact (domain : Bytes) :
    (∀ count gens, G.derivedGenerators domain count = .ok gens →
      gens.length = count ∧
      (∀ h ∈ gens, G.isMember (some h) = true ∧ h ≠ 1) ∧
      (∀ m ≤ count, G.derivedGenerators domain m = .ok (gens.take m)) ∧
      ∀ i < count, ∃ k, IsLeast (Set.Iio (2 ^ 32) ∩ G.usable domain (UInt32.ofNat i)) k ∧
        gens[i]? = some
          (G.seedSquare (generatorSeed domain (UInt32.ofNat i) (UInt32.ofNat k)) : ℤ)) ∧
    (∀ domain', ∀ i < 2 ^ 32, ∀ i' < 2 ^ 32, ∀ counter counter',
      generatorSeed domain (UInt32.ofNat i) counter =
          generatorSeed domain' (UInt32.ofNat i') counter' →
        domain = domain' ∧ i = i' ∧ counter = counter') ∧
    (∀ n gens, Shuffle.generators G domain n = .ok gens ↔
      G.derivedGenerators (domain ++ Bytes.ofText "/shuffle") (n + 1) =
        .ok (gens.base :: gens.h)) ∧
    ∀ domain' ≠ domain, ∀ index index' counter counter',
      generatorSeed (domain ++ Bytes.ofText "/shuffle") index counter ≠
        generatorSeed (domain' ++ Bytes.ofText "/shuffle") index' counter' := by
  refine ⟨fun count gens derived => ?_, fun domain' i hi i' hi' counter counter' same => ?_,
    fun n gens => G.shuffleGenerators_eq_ok_iff, fun domain' ne index index' counter counter' same =>
    ?_⟩
  · obtain ⟨length, each⟩ := G.derivedGenerators_eq_ok_iff.1 derived
    refine ⟨length, fun h hh => ?_, fun m le => G.derivedGenerators_take derived le,
      fun i hi => ?_⟩
    · obtain ⟨i, hi, rfl⟩ := List.getElem_of_mem hh
      obtain ⟨a, ne, ha⟩ := G.derivedGenerator_returns (each i hi)
      rw [ha, ← G.element_zero, Ne, G.element_inj]
      exact ⟨G.isMember_element a, ne⟩
    · have low : i < gens.length := by omega
      obtain ⟨k, least, value⟩ := G.derivedGenerator_eq_ok_iff.1 (each i low)
      exact ⟨k, least, by rw [List.getElem?_eq_getElem low, value]⟩
  · obtain ⟨domains, indices, counters⟩ := generatorSeed_inj.1 same
    have words := congrArg UInt32.toNat indices
    rw [UInt32.toNat_ofNat_of_lt' hi, UInt32.toNat_ofNat_of_lt' hi'] at words
    exact ⟨domains, words, counters⟩
  · have domains := (generatorSeed_inj.1 same).1
    exact ne (List.append_cancel_right domains).symm

/-- Two elements of a domain that itself ends in the tag. -/
theorem derivedGenerators_exact_least :
    Group.least.Accepted ∧
    ∃ gens, least.derivedGenerators (Bytes.ofText "ggen") 2 = .ok gens ∧ gens.length = 2 ∧
      (∀ h ∈ gens, least.isMember (some h) = true ∧ h ≠ 1) ∧
      least.derivedGenerators (Bytes.ofText "ggen") 1 = .ok (gens.take 1) := by
  have derived : (least.derivedGenerators (Bytes.ofText "ggen") 2).isOk = true := by
    decide +kernel
  obtain ⟨gens, h⟩ := Result.exists_eq_ok_iff.2 derived
  obtain ⟨length, members, shorter, -⟩ :=
    (derivedGenerators_exact least (Bytes.ofText "ggen")).1 2 gens h
  exact ⟨inferInstance, gens, h, length, members, shorter 1 (by omega)⟩

end Group

end BallotMix
