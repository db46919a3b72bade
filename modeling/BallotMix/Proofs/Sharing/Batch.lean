import BallotMix.Proofs.Sharing.Threshold
import Mathlib

/-!
# Threshold decryption of a batch

The contributions of enough holders of dealt shares open every ciphertext of a batch, and none of
them is rejected (`combineBatch_honest`).
-/

namespace BallotMix.Sharing

variable {G : Group} [accepted : G.Accepted]

/-- The contribution to a batch carries the true values and passes the check. -/
structure IsHonest (as : List (ZMod G.q)) (cs : List (ZMod G.q × ZMod G.q)) (domain : Bytes)
    (share : BatchShare) : Prop where
  values : share.values = ((powersOf as cs share.index).map G.element).map some
  verified : verifyPartialBatch G (some (G.element (valueAt as share.index))) (cs.map G.cipherOf)
    share domain = .ok true

theorem isHonest_of_yields {as : List (ZMod G.q)} {i : UInt64} {cs : List (ZMod G.q × ZMod G.q)}
    {domain : Bytes} {share : BatchShare}
    (h : Draw.Yields (fun _ [Source _] =>
      partialDecryptBatch G (shareOf G as i) (cs.map G.cipherOf) domain) share) :
    share.index = i ∧ IsHonest as cs domain share := by
  obtain ⟨σ, _, s, s', run⟩ := h
  obtain ⟨rfl, values, verified⟩ := partialDecryptBatch_returns run
  exact ⟨rfl, values, verified⟩

theorem IsHonest.value {as : List (ZMod G.q)} {cs : List (ZMod G.q × ZMod G.q)} {domain : Bytes}
    {share : BatchShare} (h : IsHonest as cs domain share) {c : ZMod G.q × ZMod G.q} {k : ℕ}
    (hk : (c, k) ∈ cs.zipIdx) :
    share.values.getD k none = some (G.element (c.1 * valueAt as share.index)) := by
  have entry : cs[k]? = some c := List.mem_zipIdx_iff_getElem?.1 hk
  simp [h.values, powersOf, List.getD_eq_getElem?_getD, entry]

/-- Contributions that are honest and of distinct places open the batch, if there are enough. -/
theorem combineBatch_eq {as : List (ZMod G.q)} (ne : as ≠ []) {cs : List (ZMod G.q × ZMod G.q)}
    {domain : Bytes} {shares : List BatchShare} (nodup : (shares.map BatchShare.index).Nodup)
    (honest : ∀ share ∈ shares, share.index ≠ 0 ∧ IsHonest as cs domain share)
    (apart : ∀ share ∈ shares, ∀ share' ∈ shares,
      place G.q share.index = place G.q share'.index → share.index = share'.index)
    (enough : as.length ≤ shares.length) :
    combineBatch G (commitmentsOf G as) (cs.map G.cipherOf) shares domain
      = .ok ⟨(cs.map (Group.plainLog ((polyOf as).eval 0))).map G.element, []⟩ := by
  let good : BatchShare → Bool := fun _ => true
  have all : siftBy BatchShare.index good shares = ⟨shares, []⟩ :=
    siftBy_of_good nodup fun share hshare => ⟨(honest share hshare).1, rfl⟩
  have sieved : Sieved BatchShare.index good shares ⟨shares, []⟩ := all ▸ sieved_siftBy shares
  have checked : ∀ share ∈ shares, (do
      verifyPartialBatch G (some (← publicShare G (commitmentsOf G as) share.index))
        (cs.map G.cipherOf) share domain) = .ok (good share) := by
    intro share hshare
    rw [publicShare_eq, Result.ok_bind]
    exact (honest share hshare).2.verified
  have sifted := sift_eq BatchShare.index checked as.length
  rw [if_neg (by simpa using ne), all, if_neg (by simpa using enough)] at sifted
  have opened : ∀ ck ∈ cs.zipIdx, openWith G (G.pairOf ck.1) (shares.map BatchShare.index)
      (shares.map fun share => share.values.getD ck.2 none)
        = .ok (G.element (Group.plainLog ((polyOf as).eval 0) ck.1)) := by
    rintro ⟨c, k⟩ hk
    refine openWith_sieved sieved ?_ ?_ enough
    · intro share hshare _ _
      exact (honest share hshare).2.value hk
    · intro share hshare share' hshare' _ _ _ _
      exact apart share hshare share' hshare'
  have plaintexts : (cs.map G.pairOf).zipIdx.mapM (fun ck => openWith G ck.1
      (shares.map BatchShare.index) (shares.map fun share => share.values.getD ck.2 none))
        = .ok ((cs.map (Group.plainLog ((polyOf as).eval 0))).map G.element) := by
    rw [List.zipIdx_map, List.mapM_map]
    refine (Result.mapM_eq_ok opened).trans (congrArg Except.ok ?_)
    have entries := congrArg (List.map fun c => G.element (Group.plainLog ((polyOf as).eval 0) c))
      (List.zipIdx_map_fst 0 cs)
    rw [List.map_map] at entries
    rw [List.map_map]
    exact entries
  rw [combineBatch, G.ensureCiphertexts_map, Result.ok_bind, threshold_commitmentsOf]
  dsimp only
  rw [sifted, Result.ok_bind]
  dsimp only
  rw [plaintexts]
  rfl

/-- The contributions of holders of dealt shares have their places and are honest. -/
theorem honest_of_contributed {as : List (ZMod G.q)} {n : UInt64}
    {cs : List (ZMod G.q × ZMod G.q)} {domain : Bytes} {holders : List KeyShare}
    (dealt : ∀ k ∈ holders, k ∈ sharesOf G as n) {shares : List BatchShare}
    (contributed : List.Forall₂ (fun k share => Draw.Yields (fun _ [Source _] =>
      partialDecryptBatch G k (cs.map G.cipherOf) domain) share) holders shares) :
    shares.map BatchShare.index = holders.map KeyShare.index ∧
      ∀ share ∈ shares, share.index ≠ 0 ∧ share.index.toNat ≤ n.toNat ∧
        IsHonest as cs domain share := by
  induction contributed with
  | nil => exact ⟨rfl, by simp⟩
  | cons head _ ih =>
    obtain ⟨own, others⟩ := List.forall_mem_cons.1 dealt
    obtain ⟨same, nonzero, low⟩ := eq_shareOf_of_mem own
    rw [same] at head
    obtain ⟨index, honest⟩ := isHonest_of_yields head
    obtain ⟨indices, rest⟩ := ih others
    rw [← index] at nonzero low
    refine ⟨?_, List.forall_mem_cons.2 ⟨⟨nonzero, low, honest⟩, rest⟩⟩
    rw [List.map_cons, List.map_cons, index, indices]

/-- Every choice of enough distinct holders opens the batch, if there are fewer shares than
exponents. -/
theorem combineBatch_honest {as : List (ZMod G.q)} (ne : as ≠ []) {n : UInt64}
    (few : n.toNat < G.q) {cs : List (ZMod G.q × ZMod G.q)} {domain : Bytes}
    {holders : List KeyShare} (nodup : holders.Nodup)
    (dealt : ∀ k ∈ holders, k ∈ sharesOf G as n) (enough : as.length ≤ holders.length)
    {shares : List BatchShare}
    (contributed : List.Forall₂ (fun k share => Draw.Yields (fun _ [Source _] =>
      partialDecryptBatch G k (cs.map G.cipherOf) domain) share) holders shares) :
    combineBatch G (commitmentsOf G as) (cs.map G.cipherOf) shares domain
      = .ok ⟨(cs.map (Group.plainLog ((polyOf as).eval 0))).map G.element, []⟩ := by
  obtain ⟨indices, honest⟩ := honest_of_contributed dealt contributed
  refine combineBatch_eq ne (indices ▸ nodup_index nodup dealt)
    (fun share hshare => ⟨(honest share hshare).1, (honest share hshare).2.2⟩) ?_ ?_
  · intro share hshare share' hshare' same
    obtain ⟨-, low, -⟩ := honest share hshare
    obtain ⟨-, low', -⟩ := honest share' hshare'
    exact eq_of_place_eq (low.trans_lt few) (low'.trans_lt few) same
  · rwa [← contributed.length_eq]

end BallotMix.Sharing
