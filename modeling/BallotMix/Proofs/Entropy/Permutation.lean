import BallotMix.Entropy.Permutation
import BallotMix.Proofs.Dot
import BallotMix.Proofs.Entropy.Draws
import Mathlib

/-!
# Permutations as lists

Whatever places are drawn, the exchanges give a permutation of `[0, n)` (`draw_returns`).  Gathering
along a permutation and scattering along it are inverse to each other up to order: the pairs of
scattered entries with entries are the pairs of entries with gathered entries
(`zip_scatter_perm`).
-/

namespace BallotMix.Permutation

variable {α β : Type} [Inhabited α] [Inhabited β]

/-! ## Exchanges -/

theorem exchange_perm {values : List ℕ} {i j : ℕ} (hi : i < values.length)
    (hj : j < values.length) : (exchange i j values).Perm values := by
  rw [exchange, List.getD_eq_getElem _ _ hi, List.getD_eq_getElem _ _ hj]
  exact List.set_set_perm hi hj

/-- The places that exchanges on `n` values can name: one below `n`, one below `n - 1`, …, one below
two. -/
def ArePlaces : ℕ → List ℕ → Prop
  | n + 2, j :: places => j < n + 2 ∧ ArePlaces (n + 1) places
  | _ + 2, [] => False
  | _, places => places = []

theorem exchangeAll_perm {n : ℕ} {places values : List ℕ} (h : ArePlaces n places)
    (hn : n ≤ values.length) : (exchangeAll n places values).Perm values := by
  induction n, places, values using exchangeAll.induct with
  | case1 n j places values ih =>
    have hj : j < n + 2 := h.1
    have first : (exchange (n + 1) j values).Perm values := exchange_perm (by omega) (by omega)
    rw [exchangeAll]
    exact (ih h.2 (by rw [first.length_eq]; omega)).trans first
  | case2 n places values stop =>
    unfold exchangeAll
    split
    · exact absurd rfl (stop _ _ _ rfl)
    · exact List.Perm.refl _

theorem ofExchanges_perm {n : ℕ} {places : List ℕ} (h : ArePlaces n places) :
    (ofExchanges n places).Perm (List.range n) :=
  exchangeAll_perm h (by rw [List.length_range])

/-! ## Draws -/

variable {σ : Type} [Source σ]

open Draw

theorem drawPlaces_returns {n : ℕ} {places : List ℕ} {s s' : σ}
    (h : (drawPlaces n).Returns s places s') : ArePlaces n places := by
  induction n generalizing places s s' with
  | zero => exact (returns_pure_iff.1 h).1.symm
  | succ n ih =>
    cases n with
    | zero => exact (returns_pure_iff.1 h).1.symm
    | succ n =>
      simp only [drawPlaces, returns_bind_iff, returns_pure_iff] at h
      obtain ⟨j, t, hj, rest, t', hrest, rfl, -⟩ := h
      refine ⟨?_, ih hrest⟩
      have below := uniformIndex_lt hj
      rw [UInt64.lt_iff_toNat_lt, UInt64.toNat_ofNat'] at below
      exact below.trans_le (Nat.mod_le _ _)

/-- A drawn permutation is one. -/
theorem draw_returns {n : ℕ} {permutation : List ℕ} {s s' : σ}
    (h : (draw n).Returns s permutation s') : permutation.Perm (List.range n) := by
  simp only [draw, returns_bind_iff, returns_pure_iff] at h
  obtain ⟨places, _, hplaces, rfl, -⟩ := h
  exact ofExchanges_perm (drawPlaces_returns hplaces)

/-! ## Recognition -/

theorem isPermutation_iff {permutation : List ℕ} :
    isPermutation permutation = true ↔ permutation.Perm (List.range permutation.length) := by
  simp only [isPermutation, Bool.and_eq_true, List.all_eq_true, decide_eq_true_eq]
  constructor
  · rintro ⟨low, nodup⟩
    refine List.Subperm.perm_of_length_le ?_ (by rw [List.length_range])
    exact List.subperm_of_subset nodup fun j hj => List.mem_range.2 (low j hj)
  · intro h
    exact ⟨fun j hj => List.mem_range.1 (h.mem_iff.1 hj), h.nodup_iff.2 List.nodup_range⟩

/-! ## Gathering and scattering -/

@[simp]
theorem length_gather (permutation : List ℕ) (xs : List α) :
    (gather permutation xs).length = permutation.length := by
  simp [gather]

@[simp]
theorem length_scatter (permutation : List ℕ) (xs : List α) :
    (scatter permutation xs).length = permutation.length := by
  simp [scatter]

/-- What is true of all entries and of the one that stands in for a missing one is true of all
scattered entries. -/
theorem forall_mem_scatter {P : α → Prop} {permutation : List ℕ} {xs : List α} (filler : P default)
    (h : ∀ x ∈ xs, P x) : ∀ x ∈ scatter permutation xs, P x := by
  refine List.forall_mem_map.2 fun j _ => ?_
  rw [List.getD_eq_getElem?_getD]
  cases entry : xs[permutation.idxOf j]? with
  | none => exact filler
  | some x => exact h x (List.mem_of_getElem? entry)

variable {n : ℕ} {permutation : List ℕ}

omit [Inhabited α] [Inhabited β] in
theorem lt_of_mem (hp : permutation.Perm (List.range n)) {j : ℕ} (hj : j ∈ permutation) : j < n :=
  List.mem_range.1 (hp.mem_iff.1 hj)

theorem gather_range {xs : List α} : gather (List.range xs.length) xs = xs := by
  refine List.ext_getElem (by simp) fun i h₁ h₂ => ?_
  simp [gather, h₂]

theorem gather_perm (hp : permutation.Perm (List.range n)) {xs : List α} (hx : xs.length = n) :
    (gather permutation xs).Perm xs := by
  subst hx
  exact (hp.map _).trans (List.Perm.of_eq gather_range)

theorem gather_map (hp : permutation.Perm (List.range n)) {xs : List α} (hx : xs.length = n)
    (f : α → β) : gather permutation (xs.map f) = (gather permutation xs).map f := by
  rw [gather, gather, List.map_map]
  refine List.map_congr_left fun j hj => ?_
  have hj : j < xs.length := hx ▸ lt_of_mem hp hj
  simp [hj]

theorem scatter_map (hp : permutation.Perm (List.range n)) {xs : List α} (hx : xs.length = n)
    (f : α → β) : scatter permutation (xs.map f) = (scatter permutation xs).map f := by
  rw [scatter, scatter, List.map_map]
  refine List.map_congr_left fun j hj => ?_
  have hj : permutation.idxOf j < xs.length := by
    have mem : j ∈ permutation := by
      rw [hp.mem_iff, ← hp.length_eq.trans List.length_range]
      exact hj
    rw [hx, ← hp.length_eq.trans List.length_range]
    exact List.idxOf_lt_length_of_mem mem
  simp [hj]

/-- What is scattered along a permutation is gathered again. -/
theorem gather_scatter (hp : permutation.Perm (List.range n)) {xs : List α} (hx : xs.length = n) :
    gather permutation (scatter permutation xs) = xs := by
  have hlen : permutation.length = n := hp.length_eq.trans List.length_range
  refine List.ext_getElem (by simp [hlen, hx]) fun i h₁ h₂ => ?_
  have hi : i < permutation.length := by simpa using h₁
  have low : permutation[i] < n := lt_of_mem hp (List.getElem_mem hi)
  have place : permutation.idxOf permutation[i] = i :=
    (hp.nodup_iff.2 List.nodup_range).idxOf_getElem i hi
  simp [gather, scatter, hlen, low, place, h₂]

theorem scatter_gather (hp : permutation.Perm (List.range n)) {ys : List α} (hy : ys.length = n) :
    scatter permutation (gather permutation ys) = ys := by
  have hlen : permutation.length = n := hp.length_eq.trans List.length_range
  refine List.ext_getElem (by simp [hlen, hy]) fun i h₁ h₂ => ?_
  have mem : i ∈ permutation := hp.mem_iff.2 (List.mem_range.2 (hy ▸ h₂))
  have low : permutation.idxOf i < permutation.length := List.idxOf_lt_length_of_mem mem
  simp [gather, scatter, low, h₂]

/-- Pairing scattered entries with entries gives, in another order, the pairs of entries with
gathered entries. -/
theorem zip_scatter_perm (hp : permutation.Perm (List.range n)) {xs : List α} {ys : List β}
    (hx : xs.length = n) (hy : ys.length = n) :
    ((scatter permutation xs).zip ys).Perm (xs.zip (gather permutation ys)) := by
  have hlen : permutation.length = n := hp.length_eq.trans List.length_range
  have left : (scatter permutation xs).zip ys
      = (List.range n).map fun j => (xs.getD (permutation.idxOf j) default, ys.getD j default) := by
    refine List.ext_getElem (by simp [hlen, hy]) fun i h₁ h₂ => ?_
    have : i < ys.length := by simpa [hlen, hy] using h₁
    simp [scatter, this]
  have right : permutation.map
        (fun j => (xs.getD (permutation.idxOf j) default, ys.getD j default))
      = xs.zip (gather permutation ys) := by
    refine List.ext_getElem (by simp [hlen, hx]) fun i h₁ h₂ => ?_
    have hi : i < permutation.length := by simpa using h₁
    have place : permutation.idxOf permutation[i] = i :=
      (hp.nodup_iff.2 List.nodup_range).idxOf_getElem i hi
    have : i < xs.length := by omega
    simp [gather, place, this]
  rw [left, ← right]
  exact (hp.map _).symm

theorem scatter_perm (hp : permutation.Perm (List.range n)) {xs : List α} (hx : xs.length = n) :
    (scatter permutation xs).Perm xs := by
  have hlen : permutation.length = n := hp.length_eq.trans List.length_range
  have pairs : ((scatter permutation xs).zip (List.range n)).Perm
      (xs.zip (gather permutation (List.range n))) := zip_scatter_perm hp hx (by simp)
  have h := pairs.map Prod.fst
  rwa [List.map_fst_zip (by simp [hlen]), List.map_fst_zip (by simp [hlen, hx])] at h

/-! ## Sums along a permutation -/

variable {R : Type} [CommRing R] [Inhabited R]

theorem dot_scatter (hp : permutation.Perm (List.range n)) {as bs : List R} (ha : as.length = n)
    (hb : bs.length = n) : dot (scatter permutation as) bs = dot as (gather permutation bs) := by
  rw [← sum_map_zip, ← sum_map_zip]
  exact ((zip_scatter_perm hp ha hb).map _).sum_eq

theorem dot_gather (hp : permutation.Perm (List.range n)) {as bs : List R} (ha : as.length = n)
    (hb : bs.length = n) :
    dot (gather permutation as) (gather permutation bs) = dot as bs := by
  have along : (gather permutation as).zip (gather permutation bs)
      = gather permutation (as.zip bs) := by
    rw [gather, gather, gather, List.zip_map']
    refine List.map_congr_left fun j hj => ?_
    have hj := lt_of_mem hp hj
    simp [ha, hb, hj]
  rw [← sum_map_zip, ← sum_map_zip, along]
  exact ((gather_perm hp (by simp [ha, hb])).map _).sum_eq

end BallotMix.Permutation
