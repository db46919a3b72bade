import BallotMix.Proofs.Computation
import BallotMix.Sharing.Combination
import Mathlib

/-!
# Sifting

With a check that gives an answer for every contribution, sifting is a fold (`siftBy`).  What it
accepts has distinct indices other than zero and passed the check, and every contribution that could
be accepted has the index of an accepted one (`sieved_siftBy`).
-/

namespace BallotMix.Sharing

variable {α : Type} (index : α → UInt64) (good : α → Bool)

/-- Whether a contribution is accepted after others. -/
def passes (sifted : Sifted α) (share : α) : Bool :=
  decide (index share ≠ 0) && !(sifted.accepted.map index).contains (index share) && good share

/-- Decides about one more contribution. -/
def siftStep (sifted : Sifted α) (share : α) : Sifted α :=
  if passes index good sifted share then ⟨sifted.accepted ++ [share], sifted.rejected⟩
  else ⟨sifted.accepted, sifted.rejected ++ [index share]⟩

/-- Divides contributions by what the check says. -/
def siftBy (shares : List α) : Sifted α := shares.foldl (siftStep index good) ⟨[], []⟩

variable {index good}

theorem siftOne_eq {check : α → Result Bool} {sifted : Sifted α} {share : α}
    (h : check share = .ok (good share)) :
    siftOne index check sifted share = .ok (siftStep index good sifted share) := by
  unfold siftOne siftStep passes
  by_cases usable : (decide (index share ≠ 0) &&
      !(sifted.accepted.map index).contains (index share)) = true
  · rw [if_pos usable, h, Result.ok_bind, usable, Bool.true_and]
    by_cases ok : good share = true
    · rw [if_pos ok]
      simp [ok]
    · rw [if_neg ok]
      simp [ok]
  · rw [if_neg usable]
    rw [Bool.not_eq_true] at usable
    rw [usable]
    rfl

/-- Sifting is a fold between two guards. -/
theorem sift_eq_bind (index : α → UInt64) (check : α → Result Bool) (threshold : ℕ)
    (shares : List α) :
    sift index check threshold shares =
      if threshold = 0 then .error (.argument .noThreshold)
      else shares.foldlM (siftOne index check) ⟨[], []⟩ >>= fun sifted =>
        if sifted.accepted.length < threshold then
          .error (.insufficientShares sifted.accepted.length threshold sifted.rejected)
        else .ok sifted := rfl

variable (index) in
theorem sift_eq {check : α → Result Bool} {shares : List α}
    (h : ∀ share ∈ shares, check share = .ok (good share)) (threshold : ℕ) :
    sift index check threshold shares =
      if threshold = 0 then .error (.argument .noThreshold)
      else if (siftBy index good shares).accepted.length < threshold then
        .error (.insufficientShares (siftBy index good shares).accepted.length threshold
          (siftBy index good shares).rejected)
      else .ok (siftBy index good shares) := by
  have fold : shares.foldlM (siftOne index check) ⟨[], []⟩ = .ok (siftBy index good shares) :=
    Result.foldlM_eq_ok fun sifted share hshare => siftOne_eq (h share hshare)
  rw [sift_eq_bind, fold, Result.ok_bind]

/-! ## What is accepted -/

variable (index good)

/-- What is true of contributions that were sifted. -/
structure Sieved (seen : List α) (sifted : Sifted α) : Prop where
  nodup : (sifted.accepted.map index).Nodup
  nonzero : ∀ share ∈ sifted.accepted, index share ≠ 0
  checked : ∀ share ∈ sifted.accepted, good share = true
  subset : ∀ share ∈ sifted.accepted, share ∈ seen
  covers : ∀ share ∈ seen, index share ≠ 0 → good share = true →
    index share ∈ sifted.accepted.map index

variable {index good}

theorem passes_eq_true_iff {sifted : Sifted α} {share : α} :
    passes index good sifted share = true ↔
      index share ≠ 0 ∧ index share ∉ sifted.accepted.map index ∧ good share = true := by
  simp [passes, and_assoc]

theorem Sieved.step {seen : List α} {sifted : Sifted α} (h : Sieved index good seen sifted)
    (share : α) : Sieved index good (seen ++ [share]) (siftStep index good sifted share) := by
  unfold siftStep
  by_cases pass : passes index good sifted share = true
  · rw [if_pos pass]
    obtain ⟨nonzero, fresh, ok⟩ := passes_eq_true_iff.1 pass
    constructor
    · rw [List.map_append, List.map_singleton]
      exact h.nodup.append (List.nodup_singleton _) (by simpa using fresh)
    · intro other hother
      rcases List.mem_append.1 hother with old | new
      · exact h.nonzero other old
      · rwa [List.mem_singleton.1 new]
    · intro other hother
      rcases List.mem_append.1 hother with old | new
      · exact h.checked other old
      · rwa [List.mem_singleton.1 new]
    · intro other hother
      rcases List.mem_append.1 hother with old | new
      · exact List.mem_append_left _ (h.subset other old)
      · exact List.mem_append_right _ new
    · intro other hother hne hgood
      rw [List.map_append]
      rcases List.mem_append.1 hother with old | new
      · exact List.mem_append_left _ (h.covers other old hne hgood)
      · rw [List.mem_singleton.1 new]
        exact List.mem_append_right _ (by simp)
  · rw [if_neg pass]
    refine ⟨h.nodup, h.nonzero, h.checked,
      fun other hother => List.mem_append_left _ (h.subset _ hother), ?_⟩
    intro other hother hne hgood
    rcases List.mem_append.1 hother with old | new
    · exact h.covers other old hne hgood
    · obtain rfl := List.mem_singleton.1 new
      by_contra fresh
      exact pass (passes_eq_true_iff.2 ⟨hne, fresh, hgood⟩)

theorem Sieved.run {seen shares : List α} {sifted : Sifted α}
    (h : Sieved index good seen sifted) :
    Sieved index good (seen ++ shares) (shares.foldl (siftStep index good) sifted) := by
  induction shares generalizing seen sifted with
  | nil => rwa [List.append_nil]
  | cons share shares ih =>
    have next := ih (h.step share)
    rwa [List.append_assoc] at next

theorem sieved_siftBy (shares : List α) : Sieved index good shares (siftBy index good shares) := by
  have start : Sieved index good [] ⟨[], []⟩ := ⟨by simp, by simp, by simp, by simp, by simp⟩
  exact start.run

/-- As many contributions are accepted as there are distinct indices that can be. -/
theorem length_le_accepted {shares : List α} {indices : List UInt64} (nodup : indices.Nodup)
    (h : ∀ i ∈ indices, ∃ share ∈ shares, index share = i ∧ i ≠ 0 ∧ good share = true) :
    indices.length ≤ (siftBy index good shares).accepted.length := by
  have sieved : Sieved index good shares (siftBy index good shares) := sieved_siftBy shares
  rw [← List.length_map (f := index)]
  refine (List.subperm_of_subset nodup fun i hi => ?_).length_le
  obtain ⟨share, hshare, rfl, nonzero, ok⟩ := h i hi
  exact sieved.covers share hshare nonzero ok

/-! ## Distinct indices -/

theorem siftBy_append (shares : List α) (share : α) :
    siftBy index good (shares ++ [share]) = siftStep index good (siftBy index good shares) share := by
  rw [siftBy, List.foldl_append]
  rfl

variable (index good) in
/-- Whether a contribution is accepted if no other one has its index. -/
def eligible (share : α) : Bool := decide (index share ≠ 0) && good share

theorem eligible_eq_true_iff {share : α} :
    eligible index good share = true ↔ index share ≠ 0 ∧ good share = true := by
  simp [eligible]

/-- Contributions with distinct indices are decided about one by one, whatever came before. -/
theorem siftBy_of_nodup {shares : List α} (nodup : (shares.map index).Nodup) :
    siftBy index good shares = ⟨shares.filter (eligible index good),
      (shares.filter fun share => !eligible index good share).map index⟩ := by
  induction shares using List.reverseRecOn with
  | nil => rfl
  | append_singleton shares share ih =>
    rw [List.map_append, List.map_singleton] at nodup
    have alone : index share ∉ shares.map index := fun old =>
      List.disjoint_of_nodup_append nodup old (List.mem_singleton_self _)
    have fresh : index share ∉ (shares.filter (eligible index good)).map index :=
      fun old => alone ((List.filter_sublist.map index).subset old)
    rw [siftBy_append, ih nodup.of_append_left, siftStep, List.filter_append, List.filter_append]
    by_cases fit : eligible index good share = true
    · obtain ⟨nonzero, ok⟩ := eligible_eq_true_iff.1 fit
      rw [if_pos (passes_eq_true_iff.2 ⟨nonzero, fresh, ok⟩)]
      simp [fit]
    · rw [if_neg fun pass => fit ?_]
      · simp [fit]
      · obtain ⟨nonzero, -, ok⟩ := passes_eq_true_iff.1 pass
        exact eligible_eq_true_iff.2 ⟨nonzero, ok⟩

/-- Contributions that are all good, with distinct indices, are all accepted. -/
theorem siftBy_of_good {shares : List α} (nodup : (shares.map index).Nodup)
    (h : ∀ share ∈ shares, index share ≠ 0 ∧ good share = true) :
    siftBy index good shares = ⟨shares, []⟩ := by
  have fit : ∀ share ∈ shares, eligible index good share = true := fun share hshare =>
    eligible_eq_true_iff.2 (h share hshare)
  have none : (shares.filter fun share => !eligible index good share) = [] := by
    apply List.filter_eq_nil_iff.2
    intro share hshare
    simp [fit share hshare]
  rw [siftBy_of_nodup nodup, List.filter_eq_self.2 fit, none, List.map_nil]

end BallotMix.Sharing
