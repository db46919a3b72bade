import BallotMix.Proofs.Sharing.Outcome
import Mathlib

/-!
# The order of arrival

A combination sees contributions in some order, but with distinct indices the order does not matter
(`combine_order_irrelevant`): which of them are accepted depends on each alone, the coefficients of
the interpolation depend on the set of places, and every failure that one order meets the others meet
as well.  Only the list of what is rejected keeps the order.
-/

namespace BallotMix

/-! ## Agreement -/

/-- The errors are the same but for the order in which a shortage lists what was rejected. -/
def Error.Agree : Error → Error → Prop
  | .insufficientShares available required rejected,
    .insufficientShares available' required' rejected' =>
      available = available' ∧ required = required' ∧ rejected.Perm rejected'
  | e, e' => e = e'

/-- The results are values that agree or errors that agree. -/
def Result.Agree {β : Type} (same : β → β → Prop) : Result β → Result β → Prop
  | .ok r, .ok r' => same r r'
  | .error e, .error e' => e.Agree e'
  | _, _ => False

theorem Error.Agree.refl (e : Error) : e.Agree e := by
  cases e with
  | insufficientShares available required rejected => exact ⟨rfl, rfl, .refl rejected⟩
  | _ => exact rfl

/-- A step that is the same is followed by continuations that agree. -/
theorem Result.Agree.bind {α β : Type} {same : β → β → Prop} (x : Result α) {f g : α → Result β}
    (h : ∀ a, Result.Agree same (f a) (g a)) : Result.Agree same (x >>= f) (x >>= g) := by
  cases x with
  | error e => exact Error.Agree.refl e
  | ok a => exact h a

namespace Sharing

/-! ## Sifting -/

section

variable {α β : Type} {index : α → UInt64} {check : α → Result Bool}

/-- The check answers for every contribution, or it fails in one way for all. -/
def Uniform (check : α → Result Bool) : Prop :=
  (∃ good : α → Bool, ∀ share, check share = .ok (good share)) ∨ ∃ e, ∀ share, check share = .error e

/-- With a check that always fails, sifting stops at the first contribution that has an index. -/
theorem foldlM_siftOne_of_fails {e : Error} (fails : ∀ share, check share = .error e)
    (rejected : List UInt64) (shares : List α) :
    shares.foldlM (siftOne index check) ⟨[], rejected⟩ =
      if ∀ share ∈ shares, index share = 0 then .ok ⟨[], rejected ++ shares.map index⟩
      else .error e := by
  induction shares generalizing rejected with
  | nil => simp
  | cons share shares ih =>
    rw [List.foldlM_cons]
    by_cases zero : index share = 0
    · have refused : siftOne index check ⟨[], rejected⟩ share
          = .ok ⟨[], rejected ++ [index share]⟩ := by
        simp [siftOne, zero]
      rw [refused, Result.ok_bind, ih]
      simp [zero]
    · have stopped : siftOne index check ⟨[], rejected⟩ share = .error e := by
        simp [siftOne, zero, fails]
      rw [stopped, Result.error_bind, if_neg]
      exact fun all => zero (all share List.mem_cons_self)

theorem sift_of_fails {e : Error} (fails : ∀ share, check share = .error e) {t : ℕ}
    (positive : t ≠ 0) (shares : List α) :
    sift index check t shares =
      if ∀ share ∈ shares, index share = 0 then .error (.insufficientShares 0 t (shares.map index))
      else .error e := by
  rw [sift_eq_bind, if_neg positive, foldlM_siftOne_of_fails fails]
  split
  · exact if_pos (Nat.pos_of_ne_zero positive)
  · rfl

/-- Contributions with distinct indices are sifted alike in every order, and what follows sees the
same contributions accepted and the same indices rejected, each in some order. -/
theorem agree_sift (uniform : Uniform check) {same : β → β → Prop} {shares shares' : List α}
    (order : shares.Perm shares') (nodup : (shares.map index).Nodup) {t : ℕ}
    {next : Sifted α → Result β}
    (alike : ∀ accepted accepted' rejected rejected', accepted.Perm accepted' →
      rejected.Perm rejected' → (accepted.map index).Nodup →
      (∀ share ∈ accepted, index share ≠ 0 ∧ check share = .ok true) →
      Result.Agree same (next ⟨accepted, rejected⟩) (next ⟨accepted', rejected'⟩)) :
    Result.Agree same (sift index check t shares >>= next) (sift index check t shares' >>= next) := by
  by_cases zero : t = 0
  · subst zero
    exact rfl
  rcases uniform with ⟨good, answers⟩ | ⟨e, fails⟩
  · -- Without repeated indices the sifting is a filter, which commutes with reordering.
    have accepted := order.filter (eligible index good)
    have rejected := (order.filter fun share => !eligible index good share).map index
    rw [sift_eq index (fun share _ => answers share), sift_eq index (fun share _ => answers share),
      siftBy_of_nodup nodup, siftBy_of_nodup ((order.map index).nodup_iff.1 nodup)]
    dsimp only
    rw [if_neg zero, if_neg zero, ← accepted.length_eq]
    split
    · exact ⟨rfl, rfl, rejected⟩
    · refine alike _ _ _ _ accepted rejected ((List.filter_sublist.map index).nodup nodup) ?_
      intro share hshare
      obtain ⟨nonzero, ok⟩ := eligible_eq_true_iff.1 (List.mem_filter.1 hshare).2
      exact ⟨nonzero, by rw [answers, ok]⟩
  · -- Nothing is accepted, so only whether some contribution is checked at all can matter.
    have indices : (∀ share ∈ shares', index share = 0) ↔ ∀ share ∈ shares, index share = 0 :=
      forall_congr' fun share => by rw [order.mem_iff]
    rw [sift_of_fails fails zero, sift_of_fails fails zero]
    simp only [indices]
    split
    · exact ⟨rfl, rfl, order.map index⟩
    · exact Error.Agree.refl e

end

variable {G : Group} [accepted : G.Accepted]

/-! ## Checks -/

/-- Under a commitment outside the group no public half is computed, whatever the index. -/
theorem publicShareFrom_eq_error {cs : List (Option ℤ)} (outside : ∃ c ∈ cs, G.isMember c ≠ true)
    (x acc power : ℤ) :
    publicShareFrom G x acc power cs = .error (.notInSubgroup "share commitment") := by
  induction cs generalizing acc power with
  | nil => simp at outside
  | cons c cs ih =>
    rw [publicShareFrom]
    by_cases member : G.isMember c = true
    · have later : ∃ c ∈ cs, G.isMember c ≠ true := by
        simpa [member] using outside
      obtain ⟨a, rfl⟩ := G.isMember_iff.1 member
      rw [G.ensureMember_element, Result.ok_bind, G.pow_eq, Result.ok_bind, G.mul_eq, Result.ok_bind,
        G.scalarMul_eq, Result.ok_bind]
      exact ih later _ _
    · rw [Group.ensureMember, if_neg member]
      rfl

/-- A check that answers under every public half is uniform, whatever the commitments are. -/
theorem uniform_check {α : Type} {verify : ℤ → α → Result Bool}
    (total : ∀ h share, ∃ b, verify h share = .ok b) (index : α → UInt64)
    (commitments : Commitments) :
    Uniform (fun share => publicShare G commitments (index share) >>= fun h => verify h share) := by
  by_cases members : ∀ c ∈ commitments.coefficients, G.isMember c = true
  · left
    obtain ⟨as, rfl⟩ := exists_commitmentsOf G members
    choose answer answers using total
    refine ⟨fun share => answer (G.element (valueAt as (index share))) share, fun share => ?_⟩
    dsimp only
    rw [publicShare_eq, Result.ok_bind, answers]
  · right
    push Not at members
    refine ⟨.notInSubgroup "share commitment", fun share => ?_⟩
    dsimp only
    rw [publicShare, publicShareFrom_eq_error members, Result.error_bind]

/-! ## Opening -/

theorem lagrangeLog_perm {q : ℕ} {indices indices' : List UInt64} (order : indices.Perm indices')
    (i : UInt64) : lagrangeLog q indices i = lagrangeLog q indices' i := by
  have others := (order.filter fun j => j ≠ i).map (place q)
  rw [lagrangeLog, lagrangeLog, others.prod_eq, (others.map fun j => j - place q i).prod_eq]

/-- Members at distinct places open a ciphertext alike in every order. -/
theorem openWith_perm {α : Type} {index : α → UInt64} {value : α → Option ℤ} {shares shares' : List α}
    (order : shares.Perm shares') (nodup : (shares.map index).Nodup)
    (nonzero : ∀ share ∈ shares, index share ≠ 0)
    (members : ∀ share ∈ shares, G.isMember (value share) = true) (c : ZMod G.q × ZMod G.q) :
    openWith G (G.pairOf c) (shares.map index) (shares.map value)
      = openWith G (G.pairOf c) (shares'.map index) (shares'.map value) := by
  -- The exponents are attached to the contributions, so that both orders speak of the same ones.
  have exponents : ∀ share, ∃ a, share ∈ shares → value share = some (G.element a) := by
    intro share
    by_cases hshare : share ∈ shares
    · obtain ⟨a, ha⟩ := G.isMember_iff.1 (members share hshare)
      exact ⟨a, fun _ => ha⟩
    · exact ⟨0, fun h => absurd h hshare⟩
  choose log hlog using exponents
  have indices := order.map index
  have values : shares.map value = ((shares.map log).map G.element).map some := by
    rw [List.map_map, List.map_map]
    exact List.map_congr_left hlog
  have values' : shares'.map value = ((shares'.map log).map G.element).map some := by
    rw [List.map_map, List.map_map]
    exact List.map_congr_left fun share hshare => hlog share (order.mem_iff.2 hshare)
  have zero : 0 ∉ shares.map index := by
    intro h
    obtain ⟨share, hshare, same⟩ := List.mem_map.1 h
    exact nonzero share hshare same
  have nodup' := indices.nodup_iff.1 nodup
  have zero' := indices.mem_iff.not.1 zero
  have places : {i | i ∈ shares'.map index} = {i | i ∈ shares.map index} := by
    ext i
    exact indices.mem_iff.symm
  rw [values, values']
  by_cases inj : Set.InjOn (place G.q) {i | i ∈ shares.map index}
  · rw [openWith_elements G nodup zero inj, openWith_elements G nodup' zero' (places ▸ inj),
      List.zip_map', List.zip_map', List.map_map, List.map_map]
    congr 3
    have terms := order.map fun share => log share * lagrangeLog G.q (shares.map index) (index share)
    refine terms.sum_eq.trans (congrArg List.sum (List.map_congr_left fun share _ => ?_))
    rw [Function.comp_apply, lagrangeLog_perm indices]
  · rw [openWith_eq_error G nodup zero inj (by simp),
      openWith_eq_error G nodup' zero' (places ▸ inj) (by simp)]

/-! ## Combinations -/

theorem agree_combine (commitments : Commitments) (ct : Ciphertext) (domain : Bytes)
    {shares shares' : List DecryptionShare} (nodup : (shares.map DecryptionShare.index).Nodup)
    (order : shares.Perm shares') :
    Result.Agree (fun r r' => r.plaintext = r'.plaintext ∧ r.rejected.Perm r'.rejected)
      (combine G commitments ct shares domain) (combine G commitments ct shares' domain) := by
  have total (h : ℤ) (share : DecryptionShare) :
      ∃ b, verifyPartial G (some h) ct share domain = .ok b :=
    exists_verifyPartial G (some h) ct share domain
  have uniform := uniform_check (G := G) total DecryptionShare.index commitments
  rcases valid : G.ensureCiphertext ct with e | p
  · rw [combine, combine, valid]
    exact Error.Agree.refl e
  obtain ⟨c, rfl, rfl⟩ := G.ensureCiphertext_eq_ok_iff.1 valid
  rw [combine, combine, valid, Result.ok_bind, Result.ok_bind]
  refine agree_sift uniform order nodup ?_
  intro accepted accepted' rejected rejected' order' reordered nodup' good
  have members : ∀ share ∈ accepted, G.isMember share.value = true := by
    intro share hshare
    obtain ⟨h, -, verified⟩ := Result.bind_eq_ok_iff.1 (good share hshare).2
    exact isMember_of_verifyPartial G verified
  dsimp only
  rw [openWith_perm order' nodup' (fun share hshare => (good share hshare).1) members]
  exact Result.Agree.bind _ fun m => ⟨rfl, reordered⟩

theorem agree_combineBatch (commitments : Commitments) (cts : List Ciphertext) (domain : Bytes)
    {shares shares' : List BatchShare} (nodup : (shares.map BatchShare.index).Nodup)
    (order : shares.Perm shares') :
    Result.Agree (fun r r' => r.plaintexts = r'.plaintexts ∧ r.rejected.Perm r'.rejected)
      (combineBatch G commitments cts shares domain)
      (combineBatch G commitments cts shares' domain) := by
  have total (h : ℤ) (share : BatchShare) :
      ∃ b, verifyPartialBatch G (some h) cts share domain = .ok b :=
    exists_verifyPartialBatch G (some h) cts share domain
  have uniform := uniform_check (G := G) total BatchShare.index commitments
  rcases valid : G.ensureCiphertexts cts with e | ps
  · rw [combineBatch, combineBatch, valid]
    exact Error.Agree.refl e
  obtain ⟨cs, rfl, rfl⟩ := G.ensureCiphertexts_eq_ok_iff.1 valid
  rw [combineBatch, combineBatch, valid, Result.ok_bind, Result.ok_bind]
  refine agree_sift uniform order nodup ?_
  intro accepted accepted' rejected rejected' order' reordered nodup' good
  have opened : ∀ ck ∈ (cs.map G.pairOf).zipIdx,
      openWith G ck.1 (accepted.map BatchShare.index)
          (accepted.map fun share => share.values.getD ck.2 none)
        = openWith G ck.1 (accepted'.map BatchShare.index)
          (accepted'.map fun share => share.values.getD ck.2 none) := by
    intro ck hck
    rw [List.zipIdx_map, List.mem_map] at hck
    obtain ⟨⟨c, k⟩, hck, rfl⟩ := hck
    have inside : k < (cs.map G.cipherOf).length := by
      simpa using List.snd_lt_of_mem_zipIdx hck
    refine openWith_perm order' nodup' (fun share hshare => (good share hshare).1) ?_ c
    intro share hshare
    obtain ⟨h, -, verified⟩ := Result.bind_eq_ok_iff.1 (good share hshare).2
    exact isMember_getD_of_verifyPartialBatch verified inside
  dsimp only
  rw [Result.mapM_congr opened]
  exact Result.Agree.bind _ fun ms => ⟨rfl, reordered⟩

/-- Contributions with distinct indices, to one ciphertext or to a batch, are combined alike in every
order: the plaintexts are the same, or the failure is, and what is rejected is the same but for its
order. -/
theorem combine_order_irrelevant (commitments : Commitments) (domain : Bytes) :
    (∀ ct (shares shares' : List DecryptionShare), (shares.map DecryptionShare.index).Nodup →
      shares.Perm shares' →
      Result.Agree (fun r r' => r.plaintext = r'.plaintext ∧ r.rejected.Perm r'.rejected)
        (combine G commitments ct shares domain) (combine G commitments ct shares' domain)) ∧
    (∀ cts (shares shares' : List BatchShare), (shares.map BatchShare.index).Nodup →
      shares.Perm shares' →
      Result.Agree (fun r r' => r.plaintexts = r'.plaintexts ∧ r.rejected.Perm r'.rejected)
        (combineBatch G commitments cts shares domain)
        (combineBatch G commitments cts shares' domain)) :=
  ⟨fun ct _ _ nodup order => agree_combine commitments ct domain nodup order,
    fun cts _ _ nodup order => agree_combineBatch commitments cts domain nodup order⟩

/-- Two holders and two contributions without numbers, in an order and in the reverse of it. -/
theorem combine_order_irrelevant_least :
    let third : DecryptionShare := ⟨3, some 377426466,
      ⟨[some 390430993, some 655242468], some 554044195, some 548325865⟩⟩
    let first : DecryptionShare := ⟨1, some 1269624982,
      ⟨[some 390430993, some 655242468], some 368415044, some 242816319⟩⟩
    let shares := [⟨2, none, ⟨[], none, none⟩⟩, third, ⟨0, none, ⟨[], none, none⟩⟩, first]
    let run := fun shares =>
      combine Group.least ⟨[some 1024, some 390430993]⟩ ⟨some 16, some 64⟩ shares []
    run shares = .ok ⟨1972502652, [2, 0]⟩ ∧ (shares.map DecryptionShare.index).Nodup ∧
      Result.Agree (fun r r' => r.plaintext = r'.plaintext ∧ r.rejected.Perm r'.rejected)
        (run shares) (run shares.reverse) := by
  intro third first shares run
  have nodup : (shares.map DecryptionShare.index).Nodup := by decide
  exact ⟨by decide +kernel, nodup,
    (combine_order_irrelevant (G := Group.least) _ []).1 _ shares shares.reverse nodup
      (List.reverse_perm shares).symm⟩

end Sharing

end BallotMix
