import BallotMix.Proofs.Sharing.Outcome
import Mathlib

/-!
# Which contributions are rejected

A combination decides about every contribution in the order of arrival.  It rejects those without an
index, those with the index of one it has accepted and those that fail their check, and accepts all
others (`Decides`).  So of every index it accepts the first valid contribution, whatever came before,
and what it reports, with a plaintext or without, is what it rejected (`combine_partitions`).
-/

namespace BallotMix.Sharing

section

variable {α : Type}

/-! ## Marks -/

/-- The contributions that are marked as accepted. -/
def acceptedOf (marks : List (α × Bool)) : List α := (marks.filter fun e => e.2).map Prod.fst

/-- The indices of the contributions that are not. -/
def rejectedOf (index : α → UInt64) (marks : List (α × Bool)) : List UInt64 :=
  (marks.filter fun e => !e.2).map fun e => index e.1

/-- The marks say of every contribution, in the order of arrival, whether it is accepted. -/
structure Decides (index : α → UInt64) (valid fails : α → Prop) (shares : List α)
    (marks : List (α × Bool)) : Prop where
  all : marks.map Prod.fst = shares
  count : (acceptedOf marks).length + (rejectedOf index marks).length = shares.length
  /-- Rejected is what has no index, the index of one accepted before, or a check that fails. -/
  rejected_iff : ∀ before share taken after, marks = before ++ (share, taken) :: after →
    (taken = false ↔ index share = 0 ∨ (∃ e ∈ before, e.2 = true ∧ index e.1 = index share) ∨
      fails share)
  /-- Accepted is what is valid and the first valid one of its index. -/
  accepted_iff : ∀ before share taken after, marks = before ++ (share, taken) :: after →
    (taken = true ↔ valid share ∧ ∀ e ∈ before, valid e.1 → index e.1 ≠ index share)

/-- The result tells what the marks say.  A value lists what is rejected and is made from what is
accepted, which is enough; a shortage is reported, with what is accepted and rejected, exactly if it
is not. -/
structure Reports {β : Type} (result : Result β) (rejected : β → List UInt64)
    (opens : List α → β → Prop) (index : α → UInt64) (t : ℕ) (marks : List (α × Bool)) : Prop where
  returned : ∀ r, result = .ok r → rejected r = rejectedOf index marks ∧
    t ≤ (acceptedOf marks).length ∧ opens (acceptedOf marks) r
  insufficient : ∀ available required rejected,
    result = .error (.insufficientShares available required rejected) ↔
      (acceptedOf marks).length < t ∧ available = (acceptedOf marks).length ∧ required = t ∧
        rejected = rejectedOf index marks

theorem eq_of_append_singleton {x y : α} {xs before after : List α}
    (h : xs ++ [x] = before ++ y :: after) :
    (before = xs ∧ y = x) ∨ ∃ rest, xs = before ++ y :: rest := by
  rcases List.eq_nil_or_concat' after with rfl | ⟨rest, z, rfl⟩
  · rw [List.append_singleton_inj] at h
    exact .inl ⟨h.1.symm, h.2.symm⟩
  · rw [← List.cons_append, ← List.append_assoc, List.append_singleton_inj] at h
    exact .inr ⟨rest, h.1⟩

theorem acceptedOf_append (marks : List (α × Bool)) (share : α) (taken : Bool) :
    acceptedOf (marks ++ [(share, taken)])
      = if taken then acceptedOf marks ++ [share] else acceptedOf marks := by
  cases taken <;> simp [acceptedOf]

theorem rejectedOf_append (index : α → UInt64) (marks : List (α × Bool)) (share : α)
    (taken : Bool) :
    rejectedOf index (marks ++ [(share, taken)])
      = if taken then rejectedOf index marks else rejectedOf index marks ++ [index share] := by
  cases taken <;> simp [rejectedOf]

theorem length_acceptedOf_add (index : α → UInt64) (marks : List (α × Bool)) :
    (acceptedOf marks).length + (rejectedOf index marks).length = marks.length := by
  rw [acceptedOf, rejectedOf, List.length_map, List.length_map]
  exact (List.length_eq_length_filter_add _).symm

theorem mem_map_acceptedOf {index : α → UInt64} {marks : List (α × Bool)} {i : UInt64} :
    i ∈ (acceptedOf marks).map index ↔ ∃ e ∈ marks, e.2 = true ∧ index e.1 = i := by
  simp [acceptedOf]

/-! ## Marks along the sifting -/

variable (index : α → UInt64) (good : α → Bool)

/-- The marks tell how contributions were sifted. -/
structure Records (marks : List (α × Bool)) (sifted : Sifted α) : Prop where
  accepted : acceptedOf marks = sifted.accepted
  rejected : rejectedOf index marks = sifted.rejected
  refused_iff : ∀ before share taken after, marks = before ++ (share, taken) :: after →
    (taken = false ↔ index share = 0 ∨ (∃ e ∈ before, e.2 = true ∧ index e.1 = index share) ∨
      good share = false)

variable {index good}

theorem Records.step {marks : List (α × Bool)} {sifted : Sifted α}
    (h : Records index good marks sifted) (share : α) :
    Records index good (marks ++ [(share, passes index good sifted share)])
      (siftStep index good sifted share) := by
  constructor
  · rw [acceptedOf_append, h.accepted, siftStep]
    split <;> rfl
  · rw [rejectedOf_append, h.rejected, siftStep]
    split <;> rfl
  · intro before other taken after split
    rcases eq_of_append_singleton split with ⟨rfl, last⟩ | ⟨rest, earlier⟩
    · obtain ⟨rfl, rfl⟩ := Prod.mk.inj last
      rw [← Bool.not_eq_true, passes_eq_true_iff, ← h.accepted, mem_map_acceptedOf]
      simp only [ne_eq, not_and_or, not_not, Bool.not_eq_true]
    · exact h.refused_iff before other taken rest earlier

variable (index good) in
/-- Contributions can be marked as they are sifted. -/
theorem exists_records (shares : List α) : ∃ marks : List (α × Bool),
    marks.map Prod.fst = shares ∧ Records index good marks (siftBy index good shares) := by
  induction shares using List.reverseRecOn with
  | nil => exact ⟨[], rfl, rfl, rfl, by simp⟩
  | append_singleton shares share ih =>
    obtain ⟨marks, all, records⟩ := ih
    refine ⟨_, ?_, siftBy_append shares share ▸ records.step share⟩
    rw [List.map_append, all, List.map_singleton]

theorem Records.usable_of_accepted {marks : List (α × Bool)} {sifted : Sifted α}
    (h : Records index good marks sifted) {e : α × Bool} (he : e ∈ marks) (taken : e.2 = true) :
    index e.1 ≠ 0 ∧ good e.1 = true := by
  obtain ⟨before, after, split⟩ := List.append_of_mem he
  have usable := mt (h.refused_iff before e.1 e.2 after split).2 (by simp [taken])
  rw [not_or, not_or, Bool.not_eq_false] at usable
  exact ⟨usable.1, usable.2.2⟩

/-- Once a good contribution has arrived, one with its index is accepted. -/
theorem Records.exists_accepted {before after : List (α × Bool)} {sifted : Sifted α}
    (h : Records index good (before ++ after) sifted) {e : α × Bool} (he : e ∈ before)
    (nonzero : index e.1 ≠ 0) (ok : good e.1 = true) :
    ∃ e' ∈ before, e'.2 = true ∧ index e'.1 = index e.1 := by
  by_cases taken : e.2 = true
  · exact ⟨e, he, taken, rfl⟩
  · rw [Bool.not_eq_true] at taken
    obtain ⟨front, rest, rfl⟩ := List.append_of_mem he
    rcases (h.refused_iff front e.1 e.2 (rest ++ after) (by simp)).1 taken with zero | old | bad
    · exact absurd zero nonzero
    · obtain ⟨e', he', accepted⟩ := old
      exact ⟨e', List.mem_append_left _ he', accepted⟩
    · rw [ok] at bad
      cases bad

variable {valid fails : α → Prop}
  (hvalid : ∀ share, valid share ↔ index share ≠ 0 ∧ good share = true)
  (hfails : ∀ share, fails share ↔ good share = false)
include hvalid hfails

/-- The marks of a sifting decide about all contributions. -/
theorem Records.decides {marks : List (α × Bool)} {sifted : Sifted α}
    (h : Records index good marks sifted) :
    Decides index valid fails (marks.map Prod.fst) marks := by
  constructor
  · rfl
  · rw [length_acceptedOf_add, List.length_map]
  · intro before share taken after split
    rw [hfails]
    exact h.refused_iff before share taken after split
  · intro before share taken after split
    have refused := h.refused_iff before share taken after split
    rw [hvalid]
    constructor
    · intro accepted
      have usable := mt refused.2 (by simp [accepted])
      rw [not_or, not_or, Bool.not_eq_false] at usable
      obtain ⟨nonzero, fresh, ok⟩ := usable
      -- A valid one of this index before would have led to one that was accepted before.
      refine ⟨⟨nonzero, ok⟩, fun e he valid same => fresh ?_⟩
      obtain ⟨nonzero', ok'⟩ := (hvalid e.1).1 valid
      obtain ⟨e', he', taken', same'⟩ := (split ▸ h).exists_accepted he nonzero' ok'
      exact ⟨e', he', taken', same'.trans same⟩
    · -- Only an accepted contribution can stand in the way, and every accepted one is valid.
      rintro ⟨⟨nonzero, ok⟩, first⟩
      by_contra missed
      rcases refused.1 (by simpa using missed) with zero | ⟨e, he, accepted, same⟩ | bad
      · exact nonzero zero
      · have usable := h.usable_of_accepted (split ▸ List.mem_append_left _ he) accepted
        exact first e he ((hvalid e.1).2 usable) same
      · rw [ok] at bad
        cases bad

omit hfails in
/-- A combination reports how it sifted. -/
theorem Records.reports {β : Type} {marks : List (α × Bool)} {shares : List α}
    (h : Records index good marks (siftBy index good shares)) {check : α → Result Bool}
    (checked : ∀ share ∈ shares, check share = .ok (good share)) {t : ℕ} (positive : t ≠ 0)
    {next : Sifted α → Result β} {clash : Prop}
    (ends : EndsBy (sift index check t shares >>= next) t (Enough index valid t shares) clash)
    {rejected : β → List UInt64} {opens : List α → β → Prop}
    (tells : ∀ sifted r, next sifted = .ok r →
      rejected r = sifted.rejected ∧ opens sifted.accepted r) :
    Reports (sift index check t shares >>= next) rejected opens index t marks := by
  have sifted := sift_eq index checked t
  rw [if_neg positive, ← h.accepted, ← h.rejected] at sifted
  by_cases few : (acceptedOf marks).length < t
  · rw [if_pos few] at sifted
    rw [sifted, Result.error_bind]
    constructor
    · intro r returned
      cases returned
    · intro available required rejected
      simp only [Except.error.injEq, Error.insufficientShares.injEq, few, true_and, eq_comm]
  · have enough : Enough index valid t shares := by
      rw [enough_iff hvalid, ← h.accepted]
      exact not_lt.1 few
    constructor
    · intro r returned
      rw [sifted, if_neg few, Result.ok_bind] at returned
      obtain ⟨lists, opened⟩ := tells _ r returned
      rw [h.accepted, h.rejected]
      exact ⟨lists, not_lt.1 (h.accepted ▸ few), opened⟩
    · intro available required rejected
      -- Opening fails in other ways only, which is why `ends` is needed here.
      refine iff_of_false (fun short => ?_) fun short => few short.1
      by_cases clashes : clash
      · rw [ends.fault.2 ⟨enough, clashes⟩] at short
        cases short
      · obtain ⟨r, hr⟩ := ends.returns.2 ⟨enough, clashes⟩
        rw [hr] at short
        cases short

end

/-! ## Combinations -/

/-- The contribution fails the check under the public half of its index. -/
def Fails (G : Group) (commitments : Commitments) (ct : Ciphertext) (domain : Bytes)
    (share : DecryptionShare) : Prop :=
  ∃ h, publicShare G commitments share.index = .ok h ∧
    verifyPartial G (some h) ct share domain = .ok false

/-- The contribution to a batch fails the check under the public half of its index. -/
def FailsBatch (G : Group) (commitments : Commitments) (cts : List Ciphertext) (domain : Bytes)
    (share : BatchShare) : Prop :=
  ∃ h, publicShare G commitments share.index = .ok h ∧
    verifyPartialBatch G (some h) cts share domain = .ok false

/-- The accepted contributions open the ciphertext to the plaintext. -/
def Opens (G : Group) (c : Pair) (accepted : List DecryptionShare) (combined : Combined) : Prop :=
  openWith G c (accepted.map DecryptionShare.index) (accepted.map DecryptionShare.value)
    = .ok combined.plaintext

/-- The accepted contributions open each ciphertext of a batch to its plaintext. -/
def OpensBatch (G : Group) (cs : List Pair) (accepted : List BatchShare)
    (combined : CombinedBatch) : Prop :=
  List.Forall₂ (fun ck m => openWith G ck.1 (accepted.map BatchShare.index)
    (accepted.map fun share => share.values.getD ck.2 none) = .ok m) cs.zipIdx combined.plaintexts

variable {G : Group} [accepted : G.Accepted]

theorem fails_iff_isGood {as : List (ZMod G.q)} {ct : Ciphertext} {domain : Bytes}
    {share : DecryptionShare} :
    Fails G (commitmentsOf G as) ct domain share ↔ isGood G as ct domain share = false := by
  have checked := check_eq as ct domain share
  rw [publicShare_eq, Result.ok_bind] at checked
  simp [Fails, publicShare_eq, checked]

theorem failsBatch_iff_isGoodBatch {as : List (ZMod G.q)} {cts : List Ciphertext} {domain : Bytes}
    {share : BatchShare} :
    FailsBatch G (commitmentsOf G as) cts domain share ↔ isGoodBatch G as cts domain share = false := by
  have checked := checkBatch_eq as cts domain share
  rw [publicShare_eq, Result.ok_bind] at checked
  simp [FailsBatch, publicShare_eq, checked]

/-- Under commitments that are members a combination, of contributions to one ciphertext or to a batch,
decides about every contribution and reports what it decides: it rejects those without an index, those
with the index of one accepted before and those that fail their check, it accepts all others, which are
the first valid ones of their indices, and it reports a shortage exactly if these are too few. -/
theorem combine_partitions {commitments : Commitments} (ne : commitments.coefficients ≠ [])
    (members : ∀ c ∈ commitments.coefficients, G.isMember c = true) (domain : Bytes) :
    (∀ ct c, G.ensureCiphertext ct = .ok c → ∀ shares, ∃ marks,
      Decides DecryptionShare.index (IsValid G commitments ct domain)
          (Fails G commitments ct domain) shares marks ∧
        Reports (combine G commitments ct shares domain) Combined.rejected (Opens G c)
          DecryptionShare.index commitments.threshold marks) ∧
    (∀ cts cs, G.ensureCiphertexts cts = .ok cs → ∀ shares, ∃ marks,
      Decides BatchShare.index (IsValidBatch G commitments cts domain)
          (FailsBatch G commitments cts domain) shares marks ∧
        Reports (combineBatch G commitments cts shares domain) CombinedBatch.rejected
          (OpensBatch G cs) BatchShare.index commitments.threshold marks) := by
  obtain ⟨as, rfl⟩ := exists_commitmentsOf G members
  have nonempty : as ≠ [] := by
    rintro rfl
    exact ne rfl
  have positive : as.length ≠ 0 := mt List.length_eq_zero_iff.1 nonempty
  rw [threshold_commitmentsOf]
  constructor
  · intro ct p hct shares
    obtain ⟨c, rfl, rfl⟩ := G.ensureCiphertext_eq_ok_iff.1 hct
    have ends := endsBy_combine nonempty c shares domain
    obtain ⟨marks, rfl, records⟩ :=
      exists_records DecryptionShare.index (isGood G as (G.cipherOf c) domain) shares
    refine ⟨marks, records.decides (fun _ => isValid_iff_isGood) (fun _ => fails_iff_isGood), ?_⟩
    rw [combine, G.ensureCiphertext_cipherOf, Result.ok_bind, threshold_commitmentsOf] at ends ⊢
    refine records.reports (fun _ => isValid_iff_isGood)
      (fun share _ => check_eq as (G.cipherOf c) domain share) positive ends fun sifted r told => ?_
    obtain ⟨m, opened, combined⟩ := Result.bind_eq_ok_iff.1 told
    obtain rfl := Except.ok.inj combined
    exact ⟨rfl, opened⟩
  · intro cts ps hcts shares
    obtain ⟨cs, rfl, rfl⟩ := G.ensureCiphertexts_eq_ok_iff.1 hcts
    have ends := endsBy_combineBatch nonempty cs shares domain
    obtain ⟨marks, rfl, records⟩ :=
      exists_records BatchShare.index (isGoodBatch G as (cs.map G.cipherOf) domain) shares
    refine ⟨marks, records.decides (fun _ => isValidBatch_iff_isGoodBatch)
      (fun _ => failsBatch_iff_isGoodBatch), ?_⟩
    rw [combineBatch, G.ensureCiphertexts_map, Result.ok_bind, threshold_commitmentsOf] at ends ⊢
    refine records.reports (fun _ => isValidBatch_iff_isGoodBatch)
      (fun share _ => checkBatch_eq as (cs.map G.cipherOf) domain share) positive ends
      fun sifted r told => ?_
    obtain ⟨ms, opened, combined⟩ := Result.bind_eq_ok_iff.1 told
    obtain rfl := Except.ok.inj combined
    exact ⟨rfl, Result.mapM_eq_ok_iff.1 opened⟩

/-- A contribution without an index, a forged one of the third holder, the true one twice, and one of
the first holder. -/
theorem combine_partitions_least :
    let third : DecryptionShare := ⟨3, some 377426466,
      ⟨[some 390430993, some 655242468], some 554044195, some 548325865⟩⟩
    let first : DecryptionShare := ⟨1, some 1269624982,
      ⟨[some 390430993, some 655242468], some 368415044, some 242816319⟩⟩
    let shares := [⟨0, none, ⟨[], none, none⟩⟩, ⟨3, some 16, third.proof⟩, third, third, first]
    combine Group.least ⟨[some 1024, some 390430993]⟩ ⟨some 16, some 64⟩ shares []
        = .ok ⟨1972502652, [0, 3, 3]⟩ ∧
      ∃ marks, Decides DecryptionShare.index
          (IsValid Group.least ⟨[some 1024, some 390430993]⟩ ⟨some 16, some 64⟩ [])
          (Fails Group.least ⟨[some 1024, some 390430993]⟩ ⟨some 16, some 64⟩ []) shares marks ∧
        rejectedOf DecryptionShare.index marks = [0, 3, 3] ∧ (acceptedOf marks).length = 2 := by
  intro third first shares
  have nonempty : (⟨[some 1024, some 390430993]⟩ : Commitments).coefficients ≠ [] :=
    List.cons_ne_nil _ _
  obtain ⟨marks, decides, reports⟩ :=
    (combine_partitions (G := Group.least) nonempty (by decide +kernel) []).1
      ⟨some 16, some 64⟩ ⟨16, 64⟩ (by decide +kernel) shares
  have combined : combine Group.least ⟨[some 1024, some 390430993]⟩ ⟨some 16, some 64⟩ shares []
      = .ok ⟨1972502652, [0, 3, 3]⟩ := by decide +kernel
  obtain ⟨rejected, -, -⟩ := reports.returned _ combined
  have count := decides.count
  rw [← rejected] at count
  exact ⟨combined, marks, decides, rejected.symm, by simpa [shares] using count⟩

end BallotMix.Sharing
