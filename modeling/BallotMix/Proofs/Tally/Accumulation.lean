import BallotMix.Proofs.Tally
import Mathlib

/-!
# Adding up unopened ballots

By exponents a product of ciphertexts is a sum (`accumulate_cipherOf`), so it does not depend on the
order of the factors (`accumulate_perm`), and it carries the sum of what they carry.  A ballot for
the vote `v` in the exponential encoding carries `v`.  Hence the product of the ballots opens to the
sum of the votes, as long as this sum is below the order and within the bound of the search
(`accumulate_sum`).
-/

namespace BallotMix.Tally

/-! ## Products -/

variable {G : Group} [accepted : G.Accepted]

theorem accumulate_cipherOf {cs : List (ZMod G.q × ZMod G.q)} (ne : cs ≠ []) :
    accumulate G (cs.map G.cipherOf) = .ok (G.pairOf cs.sum) := by
  obtain ⟨c, cs, rfl⟩ := List.exists_cons_of_ne_nil ne
  have step : ∀ b, ∀ d ∈ cs, G.combine (G.pairOf b).toCiphertext (G.cipherOf d)
      = .ok (G.pairOf (b + d)) := fun b d _ => G.combine_cipherOf b d
  have checked : G.ensureCiphertext (G.pairOf c).toCiphertext = .ok (G.pairOf c) :=
    G.ensureCiphertext_cipherOf c
  rw [List.map_cons, accumulate, G.pair_cipherOf, Result.ok_bind, checked, Result.ok_bind,
    List.foldlM_map, Result.foldlM_sum step, List.map_id', List.sum_cons]

/-- Ciphertexts of members have the same product in every order. -/
theorem accumulate_perm {cts cts' : List Ciphertext}
    (members : ∀ ct ∈ cts, G.isMember ct.c1 = true ∧ G.isMember ct.c2 = true)
    (order : cts'.Perm cts) : accumulate G cts' = accumulate G cts := by
  obtain ⟨cs, rfl⟩ := G.exists_cipherOf_list members
  obtain ⟨cs', rfl⟩ := G.exists_cipherOf_list fun ct hct => members ct (order.mem_iff.1 hct)
  rw [List.map_perm_map_iff G.cipherOf_injective] at order
  by_cases empty : cs = []
  · subst empty
    rw [order.eq_nil]
  · have nonempty : cs' ≠ [] := by
      rintro rfl
      exact empty order.symm.eq_nil
    rw [accumulate_cipherOf empty, accumulate_cipherOf nonempty, order.sum_eq]

/-! ## Ballots -/

/-- The ballot for a vote in the exponential encoding, with a given nonce. -/
def ballot (G : Group) (pk : PublicKey) (vote : UInt64 × ℤ) : Result Ciphertext := do
  let m ← encode G .exponential vote.1
  let c ← G.encrypt pk (some m) (some vote.2)
  pure c.toCiphertext

/-- The sum of the votes, without their nonces. -/
def total (votes : List (UInt64 × ℤ)) : ℕ := (votes.map fun vote => vote.1.toNat).sum

/-- Ballots that are made with nonces in `[1, q - 1]` carry their votes. -/
theorem exists_ballots {y : ZMod G.q} (hy : y ≠ 0) {votes : List (UInt64 × ℤ)}
    (nonces : ∀ vote ∈ votes, 0 < vote.2 ∧ vote.2 < G.q) :
    ∃ cs : List (ZMod G.q × ZMod G.q),
      votes.mapM (ballot G ⟨some (G.element y)⟩) = .ok (cs.map G.cipherOf) ∧
      cs.length = votes.length ∧ (cs.map (Group.plainLog y)).sum = (total votes : ZMod G.q) := by
  induction votes with
  | nil => exact ⟨[], rfl, rfl, Nat.cast_zero.symm⟩
  | cons vote votes ih =>
    obtain ⟨v, nonce⟩ := vote
    obtain ⟨own, others⟩ := List.forall_mem_cons.1 nonces
    obtain ⟨r, hr, rfl⟩ := G.exists_nonzero_scalar own
    obtain ⟨cs, made, length, sum⟩ := ih others
    have first : ballot G ⟨some (G.element y)⟩ (v, G.scalar r)
        = .ok (G.cipherOf ((0, (v.toNat : ZMod G.q)) + Group.blind y r)) := by
      have encoded : encode G .exponential v = .ok (G.element (v.toNat : ZMod G.q)) :=
        G.encodeExponential_eq v
      rw [ballot, encoded, Result.ok_bind, G.encrypt_element hy hr]
      rfl
    refine ⟨((0, (v.toNat : ZMod G.q)) + Group.blind y r) :: cs, ?_, by simp [length], ?_⟩
    · rw [List.mapM_cons, first, made]
      rfl
    · rw [List.map_cons, List.sum_cons, sum, Group.plainLog_add_blind]
      simp [Group.plainLog, total]

/-- Ballots for votes whose sum is below the order and within the bound can be made, and their
product opens to this sum, whatever the nonces are and in whichever order the ballots are
multiplied. -/
theorem accumulate_sum {x h : ℤ} (hx : 0 < x ∧ x < G.q) (key : G.genPow x = .ok h)
    {votes : List (UInt64 × ℤ)} (ne : votes ≠ [])
    (nonces : ∀ vote ∈ votes, 0 < vote.2 ∧ vote.2 < G.q) {bound : UInt64}
    (searchable : bound ≤ largestSearchBound) (low : total votes ≤ bound.toNat)
    (small : total votes < G.q) :
    ∃ ballots product m sum, votes.mapM (ballot G ⟨some h⟩) = .ok ballots ∧
      (∀ reordered : List Ciphertext, reordered.Perm ballots →
        accumulate G reordered = .ok product) ∧
      G.decrypt ⟨some x⟩ product.toCiphertext = .ok m ∧
      decode G .exponential (some m) bound = .ok sum ∧ sum.toNat = total votes := by
  obtain ⟨y, hy, rfl⟩ := G.exists_nonzero_scalar hx
  obtain rfl : h = G.element y := Except.ok.inj (key.symm.trans (G.genPow_scalar y))
  obtain ⟨cs, made, length, carried⟩ := exists_ballots hy nonces
  have nonempty : cs ≠ [] := by
    rintro rfl
    exact ne (List.length_eq_zero_iff.1 length.symm)
  have fits : (UInt64.ofNat (total votes)).toNat = total votes := by
    rw [UInt64.toNat_ofNat', Nat.mod_eq_of_lt (by have := bound.toNat_lt; omega)]
  refine ⟨cs.map G.cipherOf, G.pairOf cs.sum, G.element (total votes : ZMod G.q),
    UInt64.ofNat (total votes), made, fun reordered order => ?_, ?_, ?_, fits⟩
  · rw [accumulate_perm (List.forall_mem_map.2 fun c _ => by simp) order,
      accumulate_cipherOf nonempty]
  · have opened : G.decrypt ⟨some (G.scalar y)⟩ (G.pairOf cs.sum).toCiphertext
        = .ok (G.element (Group.plainLog (G.scalar y : ZMod G.q) cs.sum)) :=
      G.decrypt_cipherOf _ _
    rw [opened, G.cast_scalar, Group.plainLog_sum, carried]
  · have within : UInt64.ofNat (total votes) ≤ bound := UInt64.le_iff_toNat_le.2 (by rwa [fits])
    have decoded := G.decodeExponential_encode within searchable (by rwa [fits])
    rwa [fits] at decoded

/-- Three ballots, of which the last holds no vote, are multiplied in another order than they were
cast in; the bound is their sum. -/
theorem accumulate_sum_least :
    let ballots : List Ciphertext := [⟨some 16384, some 1131725361⟩,
      ⟨some 536870946, some 1037650396⟩, ⟨some 4, some 262144⟩]
    [(5, 7), (1000000, 1073741890), (0, 1)].mapM (ballot Group.least ⟨some 262144⟩)
        = .ok ballots ∧
      accumulate Group.least [⟨some 4, some 262144⟩, ⟨some 16384, some 1131725361⟩,
        ⟨some 536870946, some 1037650396⟩] = .ok ⟨16384, 323211985⟩ ∧
      ∃ m, Group.least.decrypt ⟨some 9⟩ ⟨some 16384, some 323211985⟩ = .ok m ∧
        decode Group.least .exponential (some m) 1000005 = .ok 1000005 := by
  intro ballots
  have key : Group.least.genPow 9 = .ok 262144 := by decide +kernel
  have made : [((5 : UInt64), (7 : ℤ)), (1000000, 1073741890), (0, 1)].mapM
      (ballot Group.least ⟨some 262144⟩) = .ok ballots := by decide +kernel
  have product : accumulate Group.least ballots = .ok ⟨16384, 323211985⟩ := by decide +kernel
  obtain ⟨cts, c, m, sum, hcts, multiplied, opened, decoded, exact⟩ :=
    accumulate_sum (by decide) key (List.cons_ne_nil (5, 7) [(1000000, 1073741890), (0, 1)])
      (by decide) (show (1000005 : UInt64) ≤ largestSearchBound by decide) (by decide) (by decide)
  obtain rfl : ballots = cts := Except.ok.inj (made.symm.trans hcts)
  obtain rfl : ⟨16384, 323211985⟩ = c :=
    Except.ok.inj (product.symm.trans (multiplied ballots (List.Perm.refl _)))
  obtain rfl : sum = 1000005 := UInt64.toNat_inj.1 exact
  exact ⟨made, multiplied _ (by decide), m, opened, decoded⟩

end BallotMix.Tally
