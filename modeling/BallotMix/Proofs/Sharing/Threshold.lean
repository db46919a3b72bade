import BallotMix.Proofs.Sharing.Contributions
import BallotMix.Proofs.Sharing.Interpolation
import BallotMix.Proofs.Sharing.Sifting
import Mathlib

/-!
# Threshold decryption

Enough contributions with the true value combine to the plaintext that the shared secret gives,
whatever else arrives with them.
-/

namespace BallotMix.Sharing

/-- The contribution is one that a combination accepts, unless it has accepted another one with the
same index. -/
def IsValid (G : Group) (commitments : Commitments) (ct : Ciphertext) (domain : Bytes)
    (share : DecryptionShare) : Prop :=
  share.index ≠ 0 ∧ ∃ h, publicShare G commitments share.index = .ok h ∧
    verifyPartial G (some h) ct share domain = .ok true

/-- The contribution carries the first component to the power of the polynomial's value at its
index. -/
def HasTrueValue (G : Group) (coefficients : List ℤ) (ct : Ciphertext) (share : DecryptionShare) :
    Prop :=
  ∃ v c d, evalPoly G coefficients share.index.toNat = .ok v ∧ ct.c1 = some c ∧
    G.pow c v = .ok d ∧ share.value = some d

/-- Whatever else they are, the valid ones of the contributions carry the true value, and two valid
ones with different indices have indices that differ modulo the order. -/
structure Truthful (G : Group) (commitments : Commitments) (coefficients : List ℤ)
    (ct : Ciphertext) (domain : Bytes) (shares : List DecryptionShare) : Prop where
  values : ∀ share ∈ shares, IsValid G commitments ct domain share →
    HasTrueValue G coefficients ct share
  apart : ∀ share ∈ shares, ∀ share' ∈ shares, IsValid G commitments ct domain share →
    IsValid G commitments ct domain share' →
    share.index.toNat ≡ share'.index.toNat [MOD G.q] → share.index = share'.index

/-- The contribution is one that the holder of the key share can make, with some source. -/
def Contributes (G : Group) (keyShare : KeyShare) (ct : Ciphertext) (domain : Bytes)
    (share : DecryptionShare) : Prop :=
  Draw.Yields (fun _ [Source _] => partialDecrypt G keyShare ct domain) share

/-- The contributions combine to the plaintext that the secret gives. -/
def OpensLike (G : Group) (commitments : Commitments) (secret : ℤ) (ct : Ciphertext)
    (domain : Bytes) (shares : List DecryptionShare) : Prop :=
  ∃ m rejected, G.decrypt ⟨some secret⟩ ct = .ok m ∧
    combine G commitments ct shares domain = .ok ⟨m, rejected⟩

variable {G : Group} [accepted : G.Accepted]

theorem isValid_commitmentsOf {as : List (ZMod G.q)} {ct : Ciphertext} {domain : Bytes}
    {share : DecryptionShare} :
    IsValid G (commitmentsOf G as) ct domain share ↔ share.index ≠ 0 ∧
      verifyPartial G (some (G.element (valueAt as share.index))) ct share domain = .ok true := by
  simp [IsValid, publicShare_eq]

theorem hasTrueValue_logs {as : List (ZMod G.q)} {c : ZMod G.q × ZMod G.q}
    {share : DecryptionShare} :
    HasTrueValue G (as.map G.scalar) (G.cipherOf c) share ↔
      share.value = some (G.element (c.1 * valueAt as share.index)) := by
  simp [HasTrueValue, evalPoly_eq, Group.cipherOf_eq]

/-! ## Combining -/

/-- What was sifted opens a ciphertext if what is good carries the true value and there is enough
of it. -/
theorem openWith_sieved {α : Type} {index : α → UInt64} {good : α → Bool} {shares : List α}
    {sifted : Sifted α} (sieved : Sieved index good shares sifted) {value : α → Option ℤ}
    {as : List (ZMod G.q)} {c : ZMod G.q × ZMod G.q}
    (values : ∀ share ∈ shares, index share ≠ 0 → good share = true →
      value share = some (G.element (c.1 * valueAt as (index share))))
    (apart : ∀ share ∈ shares, ∀ share' ∈ shares, index share ≠ 0 → good share = true →
      index share' ≠ 0 → good share' = true →
      place G.q (index share) = place G.q (index share') → index share = index share')
    (enough : as.length ≤ sifted.accepted.length) :
    openWith G (G.pairOf c) (sifted.accepted.map index) (sifted.accepted.map value)
      = .ok (G.element (Group.plainLog ((polyOf as).eval 0) c)) := by
  have powers : sifted.accepted.map value
      = (sifted.accepted.map index).map fun i => some (G.element (c.1 * valueAt as i)) := by
    rw [List.map_map]
    refine List.map_congr_left fun share hshare => ?_
    exact values share (sieved.subset share hshare) (sieved.nonzero share hshare)
      (sieved.checked share hshare)
  rw [powers]
  refine openWith_eq G sieved.nodup ?_ ?_ (by rwa [List.length_map]) c
  · intro zero
    obtain ⟨share, hshare, hzero⟩ := List.mem_map.1 zero
    exact sieved.nonzero share hshare hzero
  · rintro i hi j hj same
    obtain ⟨share, hshare, rfl⟩ := List.mem_map.1 hi
    obtain ⟨share', hshare', rfl⟩ := List.mem_map.1 hj
    exact apart share (sieved.subset share hshare) share' (sieved.subset share' hshare')
      (sieved.nonzero share hshare) (sieved.checked share hshare) (sieved.nonzero share' hshare')
      (sieved.checked share' hshare') same

/-- What the check of a combination says. -/
noncomputable def isGood (G : Group) [G.Accepted] (as : List (ZMod G.q)) (ct : Ciphertext)
    (domain : Bytes) (share : DecryptionShare) : Bool :=
  decide (verifyPartial G (some (G.element (valueAt as share.index))) ct share domain = .ok true)

theorem check_eq (as : List (ZMod G.q)) (ct : Ciphertext) (domain : Bytes)
    (share : DecryptionShare) : (do
      verifyPartial G (some (← publicShare G (commitmentsOf G as) share.index)) ct share domain)
        = .ok (isGood G as ct domain share) := by
  rw [publicShare_eq, Result.ok_bind]
  exact Result.eq_ok_decide (exists_verifyPartial G _ ct share domain)

theorem isValid_iff_isGood {as : List (ZMod G.q)} {ct : Ciphertext} {domain : Bytes}
    {share : DecryptionShare} : IsValid G (commitmentsOf G as) ct domain share ↔
      share.index ≠ 0 ∧ isGood G as ct domain share = true := by
  rw [isValid_commitmentsOf, isGood, decide_eq_true_eq]

/-- Contributions of which enough are good, all of them with the true value, combine to the plaintext;
what is rejected is what sifting rejects. -/
theorem combine_eq_siftBy {as : List (ZMod G.q)} (ne : as ≠ []) {c : ZMod G.q × ZMod G.q}
    {domain : Bytes} {shares : List DecryptionShare}
    (truthful : Truthful G (commitmentsOf G as) (as.map G.scalar) (G.cipherOf c) domain shares)
    (many : as.length ≤ (siftBy DecryptionShare.index (isGood G as (G.cipherOf c) domain)
      shares).accepted.length) :
    combine G (commitmentsOf G as) (G.cipherOf c) shares domain
      = .ok ⟨G.element (Group.plainLog ((polyOf as).eval 0) c),
          (siftBy DecryptionShare.index (isGood G as (G.cipherOf c) domain) shares).rejected⟩ := by
  obtain ⟨values, apart⟩ := truthful
  simp only [isValid_iff_isGood, hasTrueValue_logs, ← ZMod.natCast_eq_natCast_iff] at values apart
  let good := isGood G as (G.cipherOf c) domain
  have sieved : Sieved DecryptionShare.index good shares
      (siftBy DecryptionShare.index good shares) := sieved_siftBy shares
  have positive : as.length ≠ 0 := by rwa [Ne, List.length_eq_zero_iff]
  have sifted := sift_eq DecryptionShare.index
    (fun share (_ : share ∈ shares) => check_eq as (G.cipherOf c) domain share) as.length
  rw [if_neg positive, if_neg (not_lt.2 many)] at sifted
  have opened := openWith_sieved sieved (fun share hshare nonzero ok =>
    values share hshare ⟨nonzero, ok⟩) (fun share hshare share' hshare' nonzero ok nonzero' ok' =>
    apart share hshare share' hshare' ⟨nonzero, ok⟩ ⟨nonzero', ok'⟩) many
  rw [combine, G.ensureCiphertext_cipherOf, Result.ok_bind, threshold_commitmentsOf]
  dsimp only
  rw [sifted, Result.ok_bind, opened]
  rfl

/-- Enough contributions with the true value combine to the plaintext. -/
theorem combine_eq {as : List (ZMod G.q)} (ne : as ≠ []) {c : ZMod G.q × ZMod G.q}
    {domain : Bytes} {shares : List DecryptionShare}
    (truthful : Truthful G (commitmentsOf G as) (as.map G.scalar) (G.cipherOf c) domain shares)
    {indices : List UInt64} (nodup : indices.Nodup) (enough : as.length ≤ indices.length)
    (found : ∀ i ∈ indices, ∃ share ∈ shares,
      IsValid G (commitmentsOf G as) (G.cipherOf c) domain share ∧ share.index = i) :
    ∃ rejected, combine G (commitmentsOf G as) (G.cipherOf c) shares domain
      = .ok ⟨G.element (Group.plainLog ((polyOf as).eval 0) c), rejected⟩ := by
  refine ⟨_, combine_eq_siftBy ne truthful (enough.trans (length_le_accepted nodup fun i hi => ?_))⟩
  obtain ⟨share, hshare, valid, rfl⟩ := found i hi
  obtain ⟨nonzero, ok⟩ := isValid_iff_isGood.1 valid
  exact ⟨share, hshare, rfl, nonzero, ok⟩

/-! ## Dealt keys -/

variable {σ : Type} [Source σ]

/-- The holders of dealt shares make contributions that are valid and carry the true value. -/
theorem contributes_shareOf {as : List (ZMod G.q)} {i : UInt64} (nonzero : i ≠ 0)
    {c : ZMod G.q × ZMod G.q} {domain : Bytes} {share : DecryptionShare}
    (h : Contributes G (shareOf G as i) (G.cipherOf c) domain share) :
    share.index = i ∧ IsValid G (commitmentsOf G as) (G.cipherOf c) domain share ∧
      HasTrueValue G (as.map G.scalar) (G.cipherOf c) share := by
  obtain ⟨σ, _, s, s', run⟩ := h
  obtain ⟨rfl, value, verified⟩ := partialDecrypt_returns run
  exact ⟨rfl, isValid_commitmentsOf.2 ⟨nonzero, verified⟩, hasTrueValue_logs.2 value⟩

/-- The contributions of holders of dealt shares have their places, are valid and carry the true
value. -/
theorem valid_of_contributed {as : List (ZMod G.q)} {n : UInt64} {c : ZMod G.q × ZMod G.q}
    {domain : Bytes} {holders : List KeyShare} (dealt : ∀ k ∈ holders, k ∈ sharesOf G as n)
    {shares : List DecryptionShare}
    (contributed : List.Forall₂ (fun k share => Contributes G k (G.cipherOf c) domain share)
      holders shares) :
    shares.map DecryptionShare.index = holders.map KeyShare.index ∧
      ∀ share ∈ shares, share.index.toNat ≤ n.toNat ∧
        IsValid G (commitmentsOf G as) (G.cipherOf c) domain share ∧
        HasTrueValue G (as.map G.scalar) (G.cipherOf c) share := by
  induction contributed with
  | nil => exact ⟨rfl, by simp⟩
  | cons head _ ih =>
    obtain ⟨own, others⟩ := List.forall_mem_cons.1 dealt
    obtain ⟨same, nonzero, low⟩ := eq_shareOf_of_mem own
    rw [same] at head
    obtain ⟨index, valid⟩ := contributes_shareOf nonzero head
    obtain ⟨indices, rest⟩ := ih others
    rw [← index] at low
    refine ⟨?_, List.forall_mem_cons.2 ⟨⟨low, valid⟩, rest⟩⟩
    rw [List.map_cons, List.map_cons, index, indices]

/-- Every choice of enough distinct holders opens the ciphertext, if there are fewer shares than
exponents, and none of their contributions is rejected. -/
theorem combine_of_holders {as : List (ZMod G.q)} (ne : as ≠ []) {n : UInt64}
    (few : n.toNat < G.q) {c : ZMod G.q × ZMod G.q} {domain : Bytes} {holders : List KeyShare}
    (nodup : holders.Nodup) (dealt : ∀ k ∈ holders, k ∈ sharesOf G as n)
    (enough : as.length ≤ holders.length) {shares : List DecryptionShare}
    (contributed : List.Forall₂ (fun k share => Contributes G k (G.cipherOf c) domain share)
      holders shares) :
    combine G (commitmentsOf G as) (G.cipherOf c) shares domain
      = .ok ⟨G.element (Group.plainLog ((polyOf as).eval 0) c), []⟩ := by
  obtain ⟨indices, honest⟩ := valid_of_contributed dealt contributed
  have truthful : Truthful G (commitmentsOf G as) (as.map G.scalar) (G.cipherOf c) domain shares := by
    constructor
    · exact fun share hshare _ => (honest share hshare).2.2
    · intro share hshare share' hshare' _ _ same
      have low := (honest share hshare).1.trans_lt few
      have low' := (honest share' hshare').1.trans_lt few
      exact UInt64.toNat_inj.1 (same.eq_of_lt_of_lt low low')
  have all : siftBy DecryptionShare.index (isGood G as (G.cipherOf c) domain) shares
      = ⟨shares, []⟩ :=
    siftBy_of_good (indices ▸ nodup_index nodup dealt) fun share hshare =>
      isValid_iff_isGood.1 (honest share hshare).2.1
  have combined := combine_eq_siftBy ne truthful (by rwa [all, ← contributed.length_eq])
  rwa [all] at combined

/-- With a key that was dealt and contributions that are truthful, threshold decryption gives what
the secret gives, if as many indices as are needed are valid.  The contributions of holders of dealt
shares are valid and true, so those of as many holders as are needed suffice. -/
theorem combine_eq_decrypt {x : ℤ} {t n : UInt64} {others : List ℤ} {dealing : Dealing}
    {s s' s'' : σ} (drawn : (G.randomExponents (t.toNat - 1)).Returns s others s')
    (dealt : (dealSecret G ⟨some x⟩ t n).Returns s dealing s'') {ct : Ciphertext} {c : Pair}
    (valid : G.ensureCiphertext ct = .ok c) (domain : Bytes) :
    (∀ shares, Truthful G dealing.commitments (x :: others) ct domain shares →
      ∀ indices : List UInt64, indices.Nodup → t.toNat ≤ indices.length →
      (∀ i ∈ indices, ∃ share ∈ shares,
        IsValid G dealing.commitments ct domain share ∧ share.index = i) →
      OpensLike G dealing.commitments x ct domain shares) ∧
    (∀ keyShare ∈ dealing.shares, ∀ share, Contributes G keyShare ct domain share →
      share.index = keyShare.index ∧ IsValid G dealing.commitments ct domain share ∧
        HasTrueValue G (x :: others) ct share) ∧
    ∀ shares, Truthful G dealing.commitments (x :: others) ct domain shares →
      ∀ holders : List KeyShare, holders.Nodup → t.toNat ≤ holders.length →
      (∀ keyShare ∈ holders, keyShare ∈ dealing.shares ∧
        ∃ share ∈ shares, Contributes G keyShare ct domain share) →
      OpensLike G dealing.commitments x ct domain shares := by
  obtain ⟨positive, -, a, as, -, rfl, length, hothers, rfl⟩ := dealSecret_returns dealt
  obtain ⟨rfl, -⟩ := drawn.unique hothers
  obtain ⟨c, rfl, -⟩ := G.ensureCiphertext_eq_ok_iff.1 valid
  rw [← List.map_cons]
  have enough : (a :: as).length = t.toNat := by
    have : t.toNat ≠ 0 := fun zero => positive (UInt64.toNat_inj.1 zero)
    rw [List.length_cons]
    omega
  have plain : G.decrypt ⟨some (G.scalar a)⟩ (G.cipherOf c)
      = .ok (G.element (Group.plainLog ((polyOf (a :: as)).eval 0) c)) := by
    rw [G.decrypt_cipherOf, G.cast_scalar, eval_zero_polyOf_cons]
  have combined : ∀ shares, Truthful G (commitmentsOf G (a :: as)) ((a :: as).map G.scalar)
      (G.cipherOf c) domain shares → ∀ indices : List UInt64, indices.Nodup →
      t.toNat ≤ indices.length → (∀ i ∈ indices, ∃ share ∈ shares,
        IsValid G (commitmentsOf G (a :: as)) (G.cipherOf c) domain share ∧ share.index = i) →
      OpensLike G (commitmentsOf G (a :: as)) (G.scalar a) (G.cipherOf c) domain shares := by
    intro shares truthful indices nodup many found
    obtain ⟨rejected, h⟩ := combine_eq (List.cons_ne_nil a as) truthful nodup (enough ▸ many) found
    exact ⟨_, rejected, plain, h⟩
  have honest : ∀ keyShare ∈ sharesOf G (a :: as) n, ∀ share,
      Contributes G keyShare (G.cipherOf c) domain share → share.index = keyShare.index ∧
        IsValid G (commitmentsOf G (a :: as)) (G.cipherOf c) domain share ∧
        HasTrueValue G ((a :: as).map G.scalar) (G.cipherOf c) share := by
    intro keyShare hkey share made
    obtain ⟨dealt, nonzero, -⟩ := eq_shareOf_of_mem hkey
    rw [dealt] at made
    exact contributes_shareOf nonzero made
  refine ⟨combined, honest, fun shares truthful holders nodup many found => ?_⟩
  have places := nodup_index nodup fun k hk => (found k hk).1
  refine combined shares truthful (holders.map KeyShare.index) places (by rwa [List.length_map]) ?_
  intro i hi
  obtain ⟨k, hk, rfl⟩ := List.mem_map.1 hi
  obtain ⟨dealtShare, share, hshare, made⟩ := found k hk
  obtain ⟨index, ok, -⟩ := honest k dealtShare share made
  exact ⟨share, hshare, ok, index⟩

/-- Two of three holders, the third's contribution first, then one without a value. -/
theorem combine_eq_decrypt_least :
    OpensLike Group.least ⟨[some 1024, some 390430993]⟩ 5 ⟨some 16, some 64⟩ []
      [⟨3, some 377426466, ⟨[some 390430993, some 655242468], some 554044195, some 548325865⟩⟩,
        ⟨2, none, ⟨[], none, none⟩⟩,
        ⟨1, some 1269624982, ⟨[some 390430993, some 655242468], some 368415044,
          some 242816319⟩⟩] := by
  let dealing : Dealing := ⟨⟨some 1024⟩, ⟨[some 1024, some 390430993]⟩,
    [⟨1, some 16843015, some 369353194⟩, ⟨2, some 33686025, some 953346936⟩,
      ⟨3, some 50529035, some 1531916451⟩]⟩
  let third : DecryptionShare := ⟨3, some 377426466,
    ⟨[some 390430993, some 655242468], some 554044195, some 548325865⟩⟩
  let first : DecryptionShare := ⟨1, some 1269624982,
    ⟨[some 390430993, some 655242468], some 368415044, some 242816319⟩⟩
  have drawn : (Group.least.randomExponents 1).Returns (⟨List.replicate 4 1⟩ : Tape) [16843010]
      ⟨[]⟩ := by
    show (_ : Result (List ℤ) × Tape) = _
    decide +kernel
  have dealt : (dealSecret Group.least ⟨some 5⟩ 2 3).Returns (⟨List.replicate 4 1⟩ : Tape) dealing
      ⟨[]⟩ := by
    show (_ : Result Dealing × Tape) = _
    decide +kernel
  have made₃ : Contributes Group.least ⟨3, some 50529035, some 1531916451⟩ ⟨some 16, some 64⟩ []
      third := by
    refine ⟨Tape, inferInstance, ⟨List.replicate 4 1⟩, ⟨[]⟩, ?_⟩
    show (_ : Result DecryptionShare × Tape) = _
    decide +kernel
  have made₁ : Contributes Group.least ⟨1, some 16843015, some 369353194⟩ ⟨some 16, some 64⟩ []
      first := by
    refine ⟨Tape, inferInstance, ⟨List.replicate 4 1⟩, ⟨[]⟩, ?_⟩
    show (_ : Result DecryptionShare × Tape) = _
    decide +kernel
  have valid : Group.least.ensureCiphertext ⟨some 16, some 64⟩ = .ok ⟨16, 64⟩ := by decide +kernel
  obtain ⟨-, honest, suffice⟩ := combine_eq_decrypt drawn dealt valid []
  obtain ⟨-, -, true₃⟩ := honest _ (by simp [dealing]) _ made₃
  obtain ⟨-, -, true₁⟩ := honest _ (by simp [dealing]) _ made₁
  have junk : ¬ IsValid Group.least dealing.commitments ⟨some 16, some 64⟩ []
      ⟨2, none, ⟨[], none, none⟩⟩ := by
    rintro ⟨-, _, -, verified⟩
    simp [verifyPartial] at verified
  refine suffice _ ⟨?_, ?_⟩ [⟨3, some 50529035, some 1531916451⟩, ⟨1, some 16843015,
    some 369353194⟩] (by decide) (by decide) ?_
  · intro share hshare isValid
    simp only [List.mem_cons, List.not_mem_nil, or_false] at hshare
    rcases hshare with rfl | rfl | rfl
    · exact true₃
    · exact absurd isValid junk
    · exact true₁
  · intro share hshare share' hshare' isValid isValid' same
    simp only [List.mem_cons, List.not_mem_nil, or_false] at hshare hshare'
    rcases hshare with rfl | rfl | rfl <;> rcases hshare' with rfl | rfl | rfl
    all_goals first
      | rfl
      | exact absurd isValid junk
      | exact absurd isValid' junk
      | exact absurd same (by decide)
  · intro holder hholder
    simp only [List.mem_cons, List.not_mem_nil, or_false] at hholder
    rcases hholder with rfl | rfl
    · exact ⟨by simp [dealing], third, by simp [third], made₃⟩
    · exact ⟨by simp [dealing], first, by simp [first], made₁⟩

end BallotMix.Sharing
