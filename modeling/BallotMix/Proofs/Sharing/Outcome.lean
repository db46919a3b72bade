import BallotMix.Proofs.Sharing.Batch
import Mathlib

/-!
# How a combination ends

Whatever contributions arrive, a combination gives a plaintext, reports that too few of them are
valid, or stops at an inverse that does not exist (`combine_outcome`).  The last happens exactly if
there are enough valid contributions and two of them have different indices that are congruent modulo
the order of the group: indices are compared as words, but the places of the polynomial are residues.
An order of `2 ^ 64` or more keeps all indices apart.
-/

namespace BallotMix.Sharing

/-! ## Ends -/

section

variable {α : Type}

/-- There are valid contributions with `t` different indices. -/
def Enough (index : α → UInt64) (valid : α → Prop) (t : ℕ) (shares : List α) : Prop :=
  ∃ indices : List UInt64, indices.Nodup ∧ t ≤ indices.length ∧
    ∀ i ∈ indices, ∃ share ∈ shares, valid share ∧ index share = i

/-- Two valid contributions have different indices that are congruent modulo `q`. -/
def Clash (q : ℕ) (index : α → UInt64) (valid : α → Prop) (shares : List α) : Prop :=
  ∃ share ∈ shares, ∃ share' ∈ shares, valid share ∧ valid share' ∧ index share ≠ index share' ∧
    (index share).toNat ≡ (index share').toNat [MOD q]

/-- The result is a value if there is enough and nothing clashes, the report that there is too little
of the `t` that are needed, or the missing inverse if something clashes. -/
structure EndsBy {β : Type} (result : Result β) (t : ℕ) (enough clash : Prop) : Prop where
  returns : (∃ r, result = .ok r) ↔ enough ∧ ¬ clash
  insufficient : (∃ available rejected, available < t ∧
    result = .error (.insufficientShares available t rejected)) ↔ ¬ enough
  fault : result = .error (.arithmetic .inverse) ↔ enough ∧ clash

/-- Words that are different are not congruent modulo a number above all words. -/
theorem not_clash_of_le {q : ℕ} (h : 2 ^ 64 ≤ q) (index : α → UInt64) (valid : α → Prop)
    (shares : List α) : ¬ Clash q index valid shares := by
  rintro ⟨share, -, share', -, -, -, ne, same⟩
  have low := (index share).toNat_lt
  have low' := (index share').toNat_lt
  exact ne (UInt64.toNat_inj.1 (same.eq_of_lt_of_lt (by omega) (by omega)))

variable {index : α → UInt64} {good : α → Bool} {valid : α → Prop} {shares : List α}
  (hvalid : ∀ share, valid share ↔ index share ≠ 0 ∧ good share = true)
include hvalid

theorem enough_iff {t : ℕ} :
    Enough index valid t shares ↔ t ≤ (siftBy index good shares).accepted.length := by
  have sieved : Sieved index good shares (siftBy index good shares) := sieved_siftBy shares
  constructor
  · rintro ⟨indices, nodup, many, found⟩
    refine many.trans (length_le_accepted nodup fun i hi => ?_)
    obtain ⟨share, hshare, ok, rfl⟩ := found i hi
    obtain ⟨nonzero, ok⟩ := (hvalid share).1 ok
    exact ⟨share, hshare, rfl, nonzero, ok⟩
  · intro many
    refine ⟨(siftBy index good shares).accepted.map index, sieved.nodup, by rwa [List.length_map],
      fun i hi => ?_⟩
    obtain ⟨share, hshare, rfl⟩ := List.mem_map.1 hi
    exact ⟨share, sieved.subset share hshare,
      (hvalid share).2 ⟨sieved.nonzero share hshare, sieved.checked share hshare⟩, rfl⟩

/-- Something clashes exactly if two accepted indices have one place. -/
theorem Sieved.clash_iff {q : ℕ} {sifted : Sifted α} (sieved : Sieved index good shares sifted) :
    Clash q index valid shares ↔
      ¬ Set.InjOn (place q) {i | i ∈ sifted.accepted.map index} := by
  have congruent (i j : UInt64) : place q i = place q j ↔ i.toNat ≡ j.toNat [MOD q] :=
    ZMod.natCast_eq_natCast_iff _ _ _
  constructor
  · rintro ⟨share, hshare, share', hshare', ok, ok', ne, same⟩ inj
    obtain ⟨nonzero, ok⟩ := (hvalid share).1 ok
    obtain ⟨nonzero', ok'⟩ := (hvalid share').1 ok'
    exact ne (inj (sieved.covers share hshare nonzero ok)
      (sieved.covers share' hshare' nonzero' ok') ((congruent _ _).2 same))
  · intro clash
    unfold Set.InjOn at clash
    push Not at clash
    obtain ⟨i, hi, j, hj, same, ne⟩ := clash
    obtain ⟨share, hshare, rfl⟩ := List.mem_map.1 hi
    obtain ⟨share', hshare', rfl⟩ := List.mem_map.1 hj
    exact ⟨share, sieved.subset share hshare, share', sieved.subset share' hshare',
      (hvalid share).2 ⟨sieved.nonzero share hshare, sieved.checked share hshare⟩,
      (hvalid share').2 ⟨sieved.nonzero share' hshare', sieved.checked share' hshare'⟩, ne,
      (congruent _ _).1 same⟩

/-- What comes after sifting decides how a combination ends. -/
theorem endsBy_sift {β : Type} {check : α → Result Bool}
    (checked : ∀ share ∈ shares, check share = .ok (good share)) {t : ℕ} (positive : t ≠ 0)
    {next : Sifted α → Result β} {clash : Prop}
    (opens : ∀ sifted, Sieved index good shares sifted → ¬ clash → ∃ r, next sifted = .ok r)
    (faults : ∀ sifted, Sieved index good shares sifted → clash →
      next sifted = .error (.arithmetic .inverse)) :
    EndsBy (sift index check t shares >>= next) t (Enough index valid t shares) clash := by
  have sieved : Sieved index good shares (siftBy index good shares) := sieved_siftBy shares
  have sifted := sift_eq index checked t
  rw [if_neg positive] at sifted
  by_cases enough : Enough index valid t shares
  · have many := (enough_iff hvalid).1 enough
    rw [if_neg (not_lt.2 many)] at sifted
    rw [sifted, Result.ok_bind]
    by_cases clashes : clash
    · rw [faults _ sieved clashes]
      constructor <;> simp [enough, clashes]
    · obtain ⟨r, hr⟩ := opens _ sieved clashes
      rw [hr]
      constructor <;> simp [enough, clashes]
  · have few := not_le.1 (mt (enough_iff hvalid).2 enough)
    rw [if_pos few] at sifted
    rw [sifted, Result.error_bind]
    constructor <;> simp [enough, few]

end

/-! ## Combinations -/

variable {G : Group} [accepted : G.Accepted]

/-- The contribution is one that a combination of a batch accepts, unless it has accepted another one
with the same index. -/
def IsValidBatch (G : Group) (commitments : Commitments) (cts : List Ciphertext) (domain : Bytes)
    (share : BatchShare) : Prop :=
  share.index ≠ 0 ∧ ∃ h, publicShare G commitments share.index = .ok h ∧
    verifyPartialBatch G (some h) cts share domain = .ok true

/-- Accepted contributions with members as their values open a ciphertext unless two indices
clash. -/
theorem openWith_sifted {α : Type} {index : α → UInt64} {good : α → Bool} {valid : α → Prop}
    {shares : List α} (hvalid : ∀ share, valid share ↔ index share ≠ 0 ∧ good share = true)
    {sifted : Sifted α} (sieved : Sieved index good shares sifted) {value : α → Option ℤ}
    (members : ∀ share ∈ sifted.accepted, G.isMember (value share) = true)
    (c : ZMod G.q × ZMod G.q) :
    (¬ Clash G.q index valid shares → ∃ m,
      openWith G (G.pairOf c) (sifted.accepted.map index) (sifted.accepted.map value) = .ok m) ∧
    (Clash G.q index valid shares →
      openWith G (G.pairOf c) (sifted.accepted.map index) (sifted.accepted.map value)
        = .error (.arithmetic .inverse)) := by
  have nonzero : 0 ∉ sifted.accepted.map index := by
    intro zero
    obtain ⟨share, hshare, hzero⟩ := List.mem_map.1 zero
    exact sieved.nonzero share hshare hzero
  have fields : ∀ v ∈ sifted.accepted.map value, G.isMember v = true :=
    List.forall_mem_map.2 members
  obtain ⟨vs, hvs⟩ := G.exists_members fields
  have size : vs.length = (sifted.accepted.map index).length := by
    simpa using (congrArg List.length hvs).symm
  rw [sieved.clash_iff hvalid, hvs, not_not]
  exact ⟨fun inj => ⟨_, openWith_elements G sieved.nodup nonzero inj vs c⟩,
    fun clash => openWith_eq_error G sieved.nodup nonzero clash size _⟩

/-- Whatever contributions to the decryption of one ciphertext arrive. -/
theorem endsBy_combine {as : List (ZMod G.q)} (ne : as ≠ []) (c : ZMod G.q × ZMod G.q)
    (shares : List DecryptionShare) (domain : Bytes) :
    EndsBy (combine G (commitmentsOf G as) (G.cipherOf c) shares domain) as.length
      (Enough DecryptionShare.index (IsValid G (commitmentsOf G as) (G.cipherOf c) domain) as.length
        shares)
      (Clash G.q DecryptionShare.index (IsValid G (commitmentsOf G as) (G.cipherOf c) domain)
        shares) := by
  have valid (share : DecryptionShare) :
      IsValid G (commitmentsOf G as) (G.cipherOf c) domain share ↔
        share.index ≠ 0 ∧ isGood G as (G.cipherOf c) domain share = true := isValid_iff_isGood
  have members (sifted : Sifted DecryptionShare)
      (sieved : Sieved DecryptionShare.index (isGood G as (G.cipherOf c) domain) shares sifted) :
      ∀ share ∈ sifted.accepted, G.isMember share.value = true := fun share hshare =>
    isMember_of_verifyPartial G (of_decide_eq_true (sieved.checked share hshare))
  rw [combine, G.ensureCiphertext_cipherOf, Result.ok_bind, threshold_commitmentsOf]
  refine endsBy_sift valid (fun share _ => check_eq as (G.cipherOf c) domain share)
    (mt List.length_eq_zero_iff.1 ne) ?opens ?faults
  case opens =>
    intro sifted sieved calm
    obtain ⟨m, hm⟩ := (openWith_sifted valid sieved (members sifted sieved) c).1 calm
    dsimp only
    rw [hm]
    exact ⟨_, rfl⟩
  case faults =>
    intro sifted sieved clash
    dsimp only
    rw [(openWith_sifted valid sieved (members sifted sieved) c).2 clash, Result.error_bind]

/-- What the check of a combination of a batch says. -/
noncomputable def isGoodBatch (G : Group) [G.Accepted] (as : List (ZMod G.q)) (cts : List Ciphertext)
    (domain : Bytes) (share : BatchShare) : Bool :=
  decide (verifyPartialBatch G (some (G.element (valueAt as share.index))) cts share domain
    = .ok true)

omit accepted in
/-- A batch contribution that is accepted has a member at the place of every ciphertext. -/
theorem isMember_getD_of_verifyPartialBatch {publicShare : Option ℤ} {cts : List Ciphertext}
    {share : BatchShare} {domain : Bytes}
    (h : verifyPartialBatch G publicShare cts share domain = .ok true) {k : ℕ} (hk : k < cts.length) :
    G.isMember (share.values.getD k none) = true := by
  obtain ⟨size, members⟩ := isMember_of_verifyPartialBatch h
  have inside : k < share.values.length := size ▸ hk
  rw [List.getD_eq_getElem _ _ inside]
  exact members _ (List.getElem_mem inside)

theorem checkBatch_eq (as : List (ZMod G.q)) (cts : List Ciphertext) (domain : Bytes)
    (share : BatchShare) : (do
      verifyPartialBatch G (some (← publicShare G (commitmentsOf G as) share.index)) cts share domain)
        = .ok (isGoodBatch G as cts domain share) := by
  rw [publicShare_eq, Result.ok_bind]
  exact Result.eq_ok_decide (exists_verifyPartialBatch G _ cts share domain)

theorem isValidBatch_iff_isGoodBatch {as : List (ZMod G.q)} {cts : List Ciphertext} {domain : Bytes}
    {share : BatchShare} : IsValidBatch G (commitmentsOf G as) cts domain share ↔
      share.index ≠ 0 ∧ isGoodBatch G as cts domain share = true := by
  simp [IsValidBatch, publicShare_eq, isGoodBatch]

/-- Whatever contributions to the decryption of a batch arrive; without ciphertexts nothing is
interpolated. -/
theorem endsBy_combineBatch {as : List (ZMod G.q)} (ne : as ≠ []) (cs : List (ZMod G.q × ZMod G.q))
    (shares : List BatchShare) (domain : Bytes) :
    EndsBy (combineBatch G (commitmentsOf G as) (cs.map G.cipherOf) shares domain) as.length
      (Enough BatchShare.index (IsValidBatch G (commitmentsOf G as) (cs.map G.cipherOf) domain)
        as.length shares)
      (cs ≠ [] ∧ Clash G.q BatchShare.index
        (IsValidBatch G (commitmentsOf G as) (cs.map G.cipherOf) domain) shares) := by
  let good := isGoodBatch G as (cs.map G.cipherOf) domain
  have valid (share : BatchShare) :
      IsValidBatch G (commitmentsOf G as) (cs.map G.cipherOf) domain share ↔
        share.index ≠ 0 ∧ good share = true := isValidBatch_iff_isGoodBatch
  have members (sifted : Sifted BatchShare) (sieved : Sieved BatchShare.index good shares sifted)
      {k : ℕ} (hk : k < cs.length) :
      ∀ share ∈ sifted.accepted, G.isMember (share.values.getD k none) = true := fun share hshare =>
    isMember_getD_of_verifyPartialBatch (of_decide_eq_true (sieved.checked share hshare))
      (by rwa [List.length_map])
  rw [combineBatch, G.ensureCiphertexts_map, Result.ok_bind, threshold_commitmentsOf]
  refine endsBy_sift valid (fun share _ => checkBatch_eq as (cs.map G.cipherOf) domain share)
    (mt List.length_eq_zero_iff.1 ne) ?opens ?faults
  case opens =>
    intro sifted sieved calm
    have opened : ∀ ck ∈ (cs.map G.pairOf).zipIdx, ∃ m, openWith G ck.1
        (sifted.accepted.map BatchShare.index)
        (sifted.accepted.map fun share => share.values.getD ck.2 none) = .ok m := by
      intro ck hck
      rw [List.zipIdx_map, List.mem_map] at hck
      obtain ⟨⟨c, k⟩, hck, rfl⟩ := hck
      have inside : k < cs.length := by simpa using List.snd_lt_of_mem_zipIdx hck
      refine (openWith_sifted valid sieved (members sifted sieved inside) c).1 fun clash => ?_
      exact calm ⟨List.ne_nil_of_length_pos (by omega), clash⟩
    obtain ⟨ms, hms⟩ := Result.exists_mapM opened
    dsimp only
    rw [hms]
    exact ⟨_, rfl⟩
  case faults =>
    rintro sifted sieved ⟨some, clash⟩
    obtain ⟨c, cs', rfl⟩ := List.exists_cons_of_ne_nil some
    have first := (openWith_sifted valid sieved (members sifted sieved (k := 0) (by simp)) c).2 clash
    dsimp only
    rw [List.map_cons, List.zipIdx_cons, List.mapM_cons, first]
    rfl

/-- The contributions of two holders are enough when two are needed. -/
theorem enough_least {shares : List DecryptionShare}
    (first : ⟨1, some 1269624982,
      ⟨[some 390430993, some 655242468], some 368415044, some 242816319⟩⟩ ∈ shares)
    (third : ⟨3, some 377426466,
      ⟨[some 390430993, some 655242468], some 554044195, some 548325865⟩⟩ ∈ shares) :
    Enough DecryptionShare.index
      (IsValid Group.least ⟨[some 1024, some 390430993]⟩ ⟨some 16, some 64⟩ []) 2 shares := by
  refine ⟨[1, 3], by decide, by decide, fun i hi => ?_⟩
  simp only [List.mem_cons, List.not_mem_nil, or_false] at hi
  rcases hi with rfl | rfl
  · exact ⟨_, first, ⟨by decide, 369353194, by decide +kernel, by decide +kernel⟩, rfl⟩
  · exact ⟨_, third, ⟨by decide, 1531916451, by decide +kernel, by decide +kernel⟩, rfl⟩

/-- Whatever contributions arrive, to the decryption of one ciphertext or of a batch, the combination
returns, or reports too few valid ones, or stops at a missing inverse.  It stops there exactly if there
are enough valid contributions and the indices of two of them clash; an order of `2 ^ 64` or more lets
none clash. -/
theorem combine_outcome {commitments : Commitments} (ne : commitments.coefficients ≠ [])
    (members : ∀ c ∈ commitments.coefficients, G.isMember c = true) (domain : Bytes) :
    (∀ ct c, G.ensureCiphertext ct = .ok c → ∀ shares,
      let valid := IsValid G commitments ct domain
      EndsBy (combine G commitments ct shares domain) commitments.threshold
          (Enough DecryptionShare.index valid commitments.threshold shares)
          (Clash G.q DecryptionShare.index valid shares) ∧
        (2 ^ 64 ≤ G.q → ¬ Clash G.q DecryptionShare.index valid shares)) ∧
    (∀ cts cs, G.ensureCiphertexts cts = .ok cs → ∀ shares,
      let valid := IsValidBatch G commitments cts domain
      EndsBy (combineBatch G commitments cts shares domain) commitments.threshold
          (Enough BatchShare.index valid commitments.threshold shares)
          (cts ≠ [] ∧ Clash G.q BatchShare.index valid shares) ∧
        (2 ^ 64 ≤ G.q → ¬ Clash G.q BatchShare.index valid shares)) := by
  obtain ⟨as, has⟩ := G.exists_members members
  obtain rfl : commitments = commitmentsOf G as := congrArg Commitments.mk has
  have nonempty : as ≠ [] := by
    rintro rfl
    exact ne rfl
  rw [threshold_commitmentsOf]
  constructor
  · intro ct p hct shares
    obtain ⟨c, rfl, -⟩ := G.ensureCiphertext_eq_ok_iff.1 hct
    exact ⟨endsBy_combine nonempty c shares domain, fun large => not_clash_of_le large _ _ _⟩
  · intro cts ps hcts shares
    obtain ⟨cs, rfl⟩ := G.exists_cipherOf_list fun ct hct => by
      obtain ⟨p, -, hp⟩ := Result.exists_of_mapM hcts hct
      obtain ⟨c, rfl, -⟩ := G.ensureCiphertext_eq_ok_iff.1 hp
      exact ⟨G.isMember_cipherOf_c1 c, G.isMember_cipherOf_c2 c⟩
    refine ⟨?_, fun large => not_clash_of_le large _ _ _⟩
    rw [Ne, List.map_eq_nil_iff]
    exact endsBy_combineBatch nonempty cs shares domain

/-- Two holders, one of them twice, and a contribution without an index or numbers. -/
theorem combine_outcome_least :
    let third : DecryptionShare := ⟨3, some 377426466,
      ⟨[some 390430993, some 655242468], some 554044195, some 548325865⟩⟩
    let first : DecryptionShare := ⟨1, some 1269624982,
      ⟨[some 390430993, some 655242468], some 368415044, some 242816319⟩⟩
    ∃ r, combine Group.least ⟨[some 1024, some 390430993]⟩ ⟨some 16, some 64⟩
      [⟨0, none, ⟨[], none, none⟩⟩, third, third, first] [] = .ok r := by
  intro third first
  have nonempty : (⟨[some 1024, some 390430993]⟩ : Commitments).coefficients ≠ [] :=
    List.cons_ne_nil _ _
  have ends := ((combine_outcome (G := Group.least) nonempty (by decide +kernel) []).1
    ⟨some 16, some 64⟩ ⟨16, 64⟩ (by decide +kernel)
    [⟨0, none, ⟨[], none, none⟩⟩, third, third, first]).1
  refine ends.returns.2 ⟨enough_least (by simp [first]) (by simp [third]), ?_⟩
  rintro ⟨share, hshare, share', hshare', -, -, ne, same⟩
  have low : ∀ share ∈ [⟨0, none, ⟨[], none, none⟩⟩, third, third, first],
      share.index.toNat < Group.least.q := by decide
  exact ne (UInt64.toNat_inj.1 (same.eq_of_lt_of_lt (low share hshare) (low share' hshare')))

/-- A holder who contributes again, under an index higher by the order, stops a combination that has
enough valid contributions. -/
theorem combine_stopped_by_congruent_index :
    let shares : List DecryptionShare := [
      ⟨1, some 1269624982, ⟨[some 390430993, some 655242468], some 368415044, some 242816319⟩⟩,
      ⟨3, some 377426466, ⟨[some 390430993, some 655242468], some 554044195, some 548325865⟩⟩,
      ⟨1073741892, some 1269624982,
        ⟨[some 390430993, some 655242468], some 495500671, some 904953224⟩⟩]
    Enough DecryptionShare.index
        (IsValid Group.least ⟨[some 1024, some 390430993]⟩ ⟨some 16, some 64⟩ []) 2 shares ∧
      combine Group.least ⟨[some 1024, some 390430993]⟩ ⟨some 16, some 64⟩ shares []
        = .error (.arithmetic .inverse) := by
  intro shares
  exact ⟨enough_least (by simp [shares]) (by simp [shares]), by decide +kernel⟩

end BallotMix.Sharing
