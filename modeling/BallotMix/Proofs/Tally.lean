import BallotMix.Proofs.ElGamal.Residues
import BallotMix.Tally
import Mathlib

/-!
# Counting votes

A vote that can be cast is decoded to itself, whichever encoding is used (`exists_encode`).  Counting
takes one decoded vote after the other into a list of counts that stays in ascending order and gives
every vote the number of its occurrences (`Counts.increment`); so the order of the votes does not
matter (`Counts.perm`).
-/

namespace BallotMix.Tally

/-! ## Encoding -/

/-- Whether the encoding carries the vote, with the given bound of the search. -/
def Castable (G : Group) (encoding : Encoding) (bound value : UInt64) : Prop :=
  match encoding with
  | .exponential => value ≤ bound ∧ bound ≤ largestSearchBound ∧ value.toNat < G.q
  | .residue => value.toNat < G.q

instance (G : Group) (encoding : Encoding) (bound value : UInt64) :
    Decidable (Castable G encoding bound value) :=
  match encoding with
  | .exponential =>
    inferInstanceAs (Decidable (value ≤ bound ∧ bound ≤ largestSearchBound ∧ value.toNat < G.q))
  | .residue => inferInstanceAs (Decidable (value.toNat < G.q))

theorem exists_encode {G : Group} [G.Accepted] {encoding : Encoding} {bound value : UInt64}
    (h : Castable G encoding bound value) :
    ∃ a, encode G encoding value = .ok (G.element a) ∧
      decode G encoding (some (G.element a)) bound = .ok value := by
  cases encoding with
  | exponential =>
    obtain ⟨low, searchable, small⟩ := h
    exact ⟨_, G.encodeExponential_eq value, G.decodeExponential_encode low searchable small⟩
  | residue => exact G.exists_encodeResidue h

/-! ## Counting -/

theorem key_of_mem_increment {value : UInt64} {counts : List (UInt64 × ℕ)} {entry : UInt64 × ℕ}
    (h : entry ∈ increment value counts) : entry.1 = value ∨ ∃ old ∈ counts, entry.1 = old.1 := by
  induction counts with
  | nil =>
    rw [increment, List.mem_singleton] at h
    exact Or.inl (by rw [h])
  | cons head rest ih =>
    obtain ⟨w, n⟩ := head
    rw [increment] at h
    split_ifs at h with below equal
    · rcases List.mem_cons.1 h with rfl | old
      · exact Or.inl rfl
      · exact Or.inr ⟨entry, old, rfl⟩
    · rcases List.mem_cons.1 h with rfl | old
      · exact Or.inl equal.symm
      · exact Or.inr ⟨entry, List.mem_cons_of_mem _ old, rfl⟩
    · rcases List.mem_cons.1 h with rfl | new
      · exact Or.inr ⟨_, List.mem_cons_self, rfl⟩
      · rcases ih new with same | ⟨old, hold, same⟩
        · exact Or.inl same
        · exact Or.inr ⟨old, List.mem_cons_of_mem _ hold, same⟩

/-- The entries are in ascending order of their values. -/
def Ascending (counts : List (UInt64 × ℕ)) : Prop := counts.Pairwise fun a b => a.1 < b.1

theorem Ascending.increment {counts : List (UInt64 × ℕ)} (h : Ascending counts) (value : UInt64) :
    Ascending (increment value counts) := by
  induction counts with
  | nil => exact List.pairwise_singleton _ _
  | cons head rest ih =>
    obtain ⟨w, n⟩ := head
    obtain ⟨first, tail⟩ := List.pairwise_cons.1 h
    rw [Tally.increment]
    split_ifs with below equal
    · refine List.pairwise_cons.2 ⟨fun entry hentry => ?_, h⟩
      rcases List.mem_cons.1 hentry with rfl | old
      · exact below
      · exact UInt64.lt_trans below (first entry old)
    · exact List.pairwise_cons.2 ⟨first, tail⟩
    · refine List.pairwise_cons.2 ⟨fun entry hentry => ?_, ih tail⟩
      rcases key_of_mem_increment hentry with same | ⟨old, hold, same⟩
      · show w < entry.1
        rw [same]
        exact UInt64.lt_of_le_of_ne (UInt64.not_lt.1 below) (Ne.symm equal)
      · show w < entry.1
        rw [same]
        exact first old hold

/-- How many votes the counts give to a value. -/
def votesFor (value : UInt64) (counts : List (UInt64 × ℕ)) : ℕ := (counts.lookup value).getD 0

theorem votesFor_cons (v w : UInt64) (n : ℕ) (rest : List (UInt64 × ℕ)) :
    votesFor v ((w, n) :: rest) = if v = w then n else votesFor v rest := by
  unfold votesFor
  rw [List.lookup_cons]
  by_cases same : v = w
  · rw [if_pos same, same, beq_self_eq_true]
    rfl
  · rw [if_neg same, beq_eq_false_iff_ne.2 same]

theorem votesFor_eq_zero {v : UInt64} {counts : List (UInt64 × ℕ)}
    (h : ∀ entry ∈ counts, v < entry.1) : votesFor v counts = 0 := by
  induction counts with
  | nil => rfl
  | cons head rest ih =>
    have ne := UInt64.ne_of_lt (h head List.mem_cons_self)
    rw [votesFor_cons, if_neg ne]
    exact ih fun entry hentry => h entry (List.mem_cons_of_mem _ hentry)

theorem votesFor_increment {counts : List (UInt64 × ℕ)} (h : Ascending counts)
    (value v : UInt64) :
    votesFor v (increment value counts) = votesFor v counts + if v = value then 1 else 0 := by
  induction counts with
  | nil =>
    rw [increment, votesFor_cons]
    exact (Nat.zero_add _).symm
  | cons head rest ih =>
    obtain ⟨w, n⟩ := head
    obtain ⟨first, tail⟩ := List.pairwise_cons.1 h
    rw [increment]
    by_cases below : value < w
    · rw [if_pos below, votesFor_cons]
      by_cases same : v = value
      · have absent : votesFor v ((w, n) :: rest) = 0 := by
          refine votesFor_eq_zero fun entry hentry => ?_
          rw [same]
          rcases List.mem_cons.1 hentry with rfl | old
          · exact below
          · exact UInt64.lt_trans below (first entry old)
        rw [if_pos same, if_pos same, absent]
      · rw [if_neg same, if_neg same, Nat.add_zero]
    · rw [if_neg below]
      by_cases equal : value = w
      · subst equal
        rw [if_pos rfl, votesFor_cons, votesFor_cons]
        by_cases same : v = value
        · rw [if_pos same, if_pos same, if_pos same]
        · rw [if_neg same, if_neg same, if_neg same, Nat.add_zero]
      · rw [if_neg equal, votesFor_cons, votesFor_cons, ih tail]
        by_cases here : v = w
        · have other : v ≠ value := fun same => equal (same.symm.trans here)
          rw [if_pos here, if_pos here, if_neg other, Nat.add_zero]
        · rw [if_neg here, if_neg here]

theorem pos_of_mem_increment {value : UInt64} {counts : List (UInt64 × ℕ)}
    (h : ∀ entry ∈ counts, 0 < entry.2) : ∀ entry ∈ increment value counts, 0 < entry.2 := by
  induction counts with
  | nil => simp [increment]
  | cons head rest ih =>
    obtain ⟨w, n⟩ := head
    obtain ⟨first, tail⟩ := List.forall_mem_cons.1 h
    rw [increment]
    split_ifs
    · exact List.forall_mem_cons.2 ⟨Nat.one_pos, h⟩
    · exact List.forall_mem_cons.2 ⟨Nat.succ_pos n, tail⟩
    · exact List.forall_mem_cons.2 ⟨first, ih tail⟩

theorem mem_iff_votesFor {counts : List (UInt64 × ℕ)} (ascending : Ascending counts)
    (positive : ∀ entry ∈ counts, 0 < entry.2) (v : UInt64) (k : ℕ) :
    (v, k) ∈ counts ↔ 0 < k ∧ votesFor v counts = k := by
  induction counts with
  | nil =>
    refine iff_of_false List.not_mem_nil ?_
    rintro ⟨pos, rfl⟩
    exact absurd pos (Nat.lt_irrefl 0)
  | cons head rest ih =>
    obtain ⟨w, n⟩ := head
    obtain ⟨first, tail⟩ := List.pairwise_cons.1 ascending
    obtain ⟨hn, hrest⟩ := List.forall_mem_cons.1 positive
    rw [List.mem_cons, Prod.mk.injEq, votesFor_cons]
    by_cases same : v = w
    · have fresh : (v, k) ∉ rest := fun old => by
        have := first (v, k) old
        rw [same] at this
        exact UInt64.lt_irrefl w this
      rw [if_pos same]
      constructor
      · rintro (⟨-, rfl⟩ | old)
        · exact ⟨hn, rfl⟩
        · exact absurd old fresh
      · rintro ⟨-, rfl⟩
        exact Or.inl ⟨same, rfl⟩
    · rw [if_neg same, ← ih tail hrest]
      exact or_iff_right fun here => same here.1

/-- The counts list, in ascending order, every value of the votes with the number of its
occurrences, and nothing else. -/
structure Counts (votes : List UInt64) (counts : List (UInt64 × ℕ)) : Prop where
  ascending : Ascending counts
  mem_iff : ∀ v k, (v, k) ∈ counts ↔ 0 < k ∧ votes.count v = k

theorem Counts.perm {votes votes' : List UInt64} {counts : List (UInt64 × ℕ)}
    (h : Counts votes counts) (p : votes.Perm votes') : Counts votes' counts := by
  refine ⟨h.ascending, fun v k => ?_⟩
  rw [h.mem_iff, p.count_eq]

/-- Counting votes one after the other counts them all. -/
theorem counts_foldl (votes : List UInt64) :
    Counts votes (votes.foldl (fun counts v => increment v counts) []) := by
  have run (seen : List UInt64) (counts : List (UInt64 × ℕ)) (ascending : Ascending counts)
      (positive : ∀ entry ∈ counts, 0 < entry.2) (h : ∀ v, votesFor v counts = seen.count v) :
      Counts (seen ++ votes) (votes.foldl (fun counts v => increment v counts) counts) := by
    induction votes generalizing seen counts with
    | nil =>
      refine ⟨ascending, fun v k => ?_⟩
      rw [List.append_nil, ← h v]
      exact mem_iff_votesFor ascending positive v k
    | cons value votes ih =>
      have next := ih (seen ++ [value]) (increment value counts) (ascending.increment value)
        (pos_of_mem_increment positive) fun v => by
          rw [votesFor_increment ascending, h, List.count_append, List.count_singleton]
          simp only [beq_iff_eq, eq_comm (a := v)]
      rwa [List.append_assoc] at next
  exact run [] [] List.Pairwise.nil (by simp) fun v => rfl

/-- Elements that decode to votes are counted as these votes. -/
theorem exists_count {G : Group} {encoding : Encoding} {bound : UInt64}
    {elements : List (Option ℤ)} {votes : List UInt64}
    (h : List.Forall₂ (fun x v => decode G encoding x bound = .ok v) elements votes) :
    ∃ counts, count G encoding elements bound = .ok counts ∧ Counts votes counts := by
  refine ⟨_, ?_, counts_foldl votes⟩
  unfold count
  generalize ([] : List (UInt64 × ℕ)) = counts
  induction h generalizing counts with
  | nil => rfl
  | cons head _ ih =>
    rw [List.foldlM_cons, head, Result.ok_bind, Result.pure_eq_ok, Result.ok_bind, ih,
      List.foldl_cons]

end BallotMix.Tally
