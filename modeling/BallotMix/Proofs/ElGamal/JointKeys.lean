import BallotMix.Proofs.ElGamal.Exponents
import Mathlib

/-!
# Joint keys

The joint key of a list of keys is the key of the sum of their secrets modulo `q`
(`combineKeys_elements`).  What is encrypted under it is decrypted with that sum, or by the holders of
the secrets, who take off their masks one after another (`foldlM_strip`).  Secrets that each pass
their check may still add up to zero.  Then the joint key is the identity: it is returned like any
other, and only the check of a key before its use refuses it.
-/

namespace BallotMix

/-- A reordering of the images of a list consists of the images of a reordering. -/
theorem exists_map_of_perm_map {α β : Type} {f : α → β} {xs : List α} {ys : List β}
    (reordered : ys.Perm (xs.map f)) : ∃ zs : List α, ys = zs.map f ∧ zs.Perm xs := by
  have both := congrFun₂ (List.eq_map_comp_perm f) ys xs
  exact both.mpr reordered

namespace Group

variable (G : Group)

/-- Takes the mask of one secret off the second component of a ciphertext. -/
def strip (c1 c2 x : ℤ) : Result ℤ := do G.div c2 (← G.pow c1 x)

variable [accepted : G.Accepted]

/-! ## By exponents -/

/-- Secrets in `[1, q - 1]` are exponents other than zero. -/
theorem exists_secrets {xs : List ℤ} (range : ∀ x ∈ xs, 0 < x ∧ x < G.q) :
    ∃ as : List (ZMod G.q), xs = as.map G.scalar ∧ ∀ a ∈ as, a ≠ 0 := by
  obtain ⟨as, rfl⟩ := exists_map_of_forall_mem (g := G.scalar) fun x hx => by
    obtain ⟨a, -, ha⟩ := G.exists_nonzero_scalar (range x hx)
    exact ⟨a, ha⟩
  refine ⟨as, rfl, ?_⟩
  rintro a ha rfl
  have positive := (range _ (List.mem_map_of_mem ha)).1
  rw [scalar_zero] at positive
  omega

theorem sum_scalars_emod (as : List (ZMod G.q)) :
    (as.map G.scalar).sum % G.q = G.scalar as.sum := by
  rw [← scalar_intCast, Int.cast_list_sum, map_cast_scalars]

theorem derivePublicKey_scalar {x : ZMod G.q} (hx : x ≠ 0) :
    G.derivePublicKey ⟨some (G.scalar x)⟩ = .ok ⟨some (G.element x)⟩ := by
  rw [derivePublicKey, G.ensureExponent_scalar hx, Result.ok_bind, genPow_scalar]
  rfl

theorem derivePublicKey_eq_ok_iff {x : ℤ} {y : ZMod G.q} :
    G.derivePublicKey ⟨some x⟩ = .ok ⟨some (G.element y)⟩ ↔ y ≠ 0 ∧ x = G.scalar y := by
  constructor
  · intro derived
    obtain ⟨x', range, -⟩ := Result.bind_eq_ok_iff.1 derived
    obtain ⟨b, hb, same, -⟩ := G.ensureExponent_eq_ok_iff.1 range
    obtain rfl := Option.some.inj same
    rw [G.derivePublicKey_scalar hb] at derived
    obtain rfl : b = y := by simpa using derived
    exact ⟨hb, rfl⟩
  · rintro ⟨hy, rfl⟩
    exact G.derivePublicKey_scalar hy

/-- The joint key is the key of the sum. -/
theorem combineKeys_elements {ys : List (ZMod G.q)} (nonempty : ys ≠ []) (valid : ∀ y ∈ ys, y ≠ 0) :
    G.combineKeys (ys.map fun y => ⟨some (G.element y)⟩) = .ok ⟨some (G.element ys.sum)⟩ := by
  have step : ∀ b : ZMod G.q, ∀ y ∈ ys,
      (do G.mul (G.element b) (← G.ensureKey ⟨some (G.element y)⟩)) = .ok (G.element (b + id y)) :=
    fun b y hy => by rw [G.ensureKey_element (valid y hy), Result.ok_bind, mul_element, id]
  rw [combineKeys, List.isEmpty_map, if_neg (by simpa using nonempty)]
  dsimp only
  rw [List.foldlM_map, ← G.element_zero, Result.foldlM_sum step, zero_add, List.map_id]
  rfl

/-- The check of keys refuses the identity and no other power. -/
theorem exists_ensureKey_element_iff {y : ZMod G.q} :
    (∃ h, G.ensureKey ⟨some (G.element y)⟩ = .ok h) ↔ y ≠ 0 := by
  constructor
  · rintro ⟨h, checked⟩
    obtain ⟨z, ne, same, -⟩ := G.ensureKey_eq_ok_iff.1 checked
    rw [PublicKey.mk.injEq, Option.some.injEq, element_inj] at same
    rwa [same]
  · intro hy
    exact ⟨_, G.ensureKey_element hy⟩

theorem strip_element (a c x : ZMod G.q) :
    G.strip (G.element a) (G.element c) (G.scalar x) = .ok (G.element (c + -(a * x))) := by
  rw [strip, pow_element_scalar, Result.ok_bind, div_element, sub_eq_add_neg]

/-- The masks of all secrets come to the mask of their sum. -/
theorem foldlM_strip (a c : ZMod G.q) (xs : List (ZMod G.q)) :
    (xs.map G.scalar).foldlM (G.strip (G.element a)) (G.element c) =
      .ok (G.element (plainLog xs.sum (a, c))) := by
  rw [List.foldlM_map, Result.foldlM_sum fun b x _ => G.strip_element a b x]
  have masks : (xs.map fun x => -(a * x)).sum = -(a * xs.sum) := by
    simp only [← neg_mul]
    rw [List.sum_map_mul_left, List.map_id']
  rw [masks, plainLog, sub_eq_add_neg]

/-! ## Keys of several holders -/

/-- Any number of secrets have keys, and these in any order have a joint key, the power of the
generator to the sum of the secrets modulo `q`.  It passes the check of keys unless that sum is zero.
Then what is encrypted under it with any nonce is decrypted with the sum, and also if each holder in
turn, in any order, takes off the mask of the own secret. -/
theorem jointKey_opens {xs : List ℤ} (nonempty : xs ≠ []) (range : ∀ x ∈ xs, 0 < x ∧ x < G.q) :
    ∃ keys, xs.mapM (fun x => G.derivePublicKey ⟨some x⟩) = .ok keys ∧
      ∀ keys' : List PublicKey, keys'.Perm keys →
        ∃ h, G.combineKeys keys' = .ok ⟨some h⟩ ∧ G.genPow (xs.sum % G.q) = .ok h ∧
          ((∃ h', G.ensureKey ⟨some h⟩ = .ok h') ↔ xs.sum % G.q ≠ 0) ∧
          ∀ m r : ℤ, G.isMember (some m) = true → 0 < r ∧ r < G.q → xs.sum % G.q ≠ 0 →
            ∃ c, G.encrypt ⟨some h⟩ (some m) (some r) = .ok c ∧
              G.decrypt ⟨some (xs.sum % G.q)⟩ c.toCiphertext = .ok m ∧
              ∀ ys : List ℤ, ys.Perm xs → ys.foldlM (G.strip c.c1) c.c2 = .ok m := by
  obtain ⟨as, rfl, valid⟩ := G.exists_secrets range
  have zero_iff : G.scalar as.sum = 0 ↔ as.sum = 0 := by
    rw [← G.scalar_zero, scalar_inj]
  have derived : (as.map G.scalar).mapM (fun x => G.derivePublicKey ⟨some x⟩) =
      .ok (as.map fun a => ⟨some (G.element a)⟩) := by
    rw [List.mapM_map]
    exact Result.mapM_eq_ok fun a ha => G.derivePublicKey_scalar (valid a ha)
  refine ⟨_, derived, fun keys' reordered => ?_⟩
  obtain ⟨bs, rfl, same⟩ := exists_map_of_perm_map reordered
  rw [sum_scalars_emod]
  refine ⟨G.element as.sum, ?_, G.genPow_scalar _, ?_, fun m r hm hr ne => ?_⟩
  · have several : bs ≠ [] := by
      rintro rfl
      simp [same.nil_eq] at nonempty
    rw [G.combineKeys_elements several fun b hb => valid b (same.subset hb), same.sum_eq]
  · rw [Ne, zero_iff]
    exact G.exists_ensureKey_element_iff
  · obtain ⟨a, rfl⟩ := G.exists_element hm
    obtain ⟨b, hb, rfl⟩ := G.exists_nonzero_scalar hr
    rw [Ne, zero_iff] at ne
    refine ⟨_, G.encrypt_element ne hb a, ?_, fun ys hys => ?_⟩
    · rw [← cipherOf, decrypt_cipherOf, cast_scalar, plainLog_add_blind, plainLog, zero_mul, sub_zero]
    · obtain ⟨cs, rfl, reordered⟩ := exists_map_of_perm_map hys
      rw [pairOf, foldlM_strip, Prod.mk.eta, reordered.sum_eq, plainLog_add_blind, plainLog, zero_mul,
        sub_zero]

/-- Two holders, with their keys and their secrets in the other order. -/
theorem jointKey_opens_least :
    least.Accepted ∧ (∀ x ∈ [(1 : ℤ), 2], 0 < x ∧ x < least.q) ∧
      ∃ keys h c, [(1 : ℤ), 2].mapM (fun x => least.derivePublicKey ⟨some x⟩) = .ok keys ∧
        least.combineKeys keys.reverse = .ok ⟨some h⟩ ∧ least.genPow 3 = .ok h ∧
        least.encrypt ⟨some h⟩ (some 4) (some 7) = .ok c ∧
        least.decrypt ⟨some 3⟩ c.toCiphertext = .ok 4 ∧
        [(2 : ℤ), 1].foldlM (least.strip c.c1) c.c2 = .ok 4 := by
  have range : ∀ x ∈ [(1 : ℤ), 2], 0 < x ∧ x < least.q := by decide
  obtain ⟨keys, derived, opens⟩ := jointKey_opens least (List.cons_ne_nil 1 [2]) range
  obtain ⟨h, combined, power, -, encrypts⟩ := opens keys.reverse (List.reverse_perm keys)
  obtain ⟨c, encrypted, decrypted, stripped⟩ :=
    encrypts 4 7 least.isMember_generator (by decide) (by decide)
  exact ⟨inferInstance, range, keys, h, c, derived, combined, power, encrypted, decrypted,
    stripped [2, 1] (List.Perm.swap 1 2 [])⟩

/-- Two keys that each pass the check have the identity for their product. -/
example :
    (do least.combineKeys [← least.derivePublicKey ⟨some 1⟩,
      ← least.derivePublicKey ⟨some (least.q - 1)⟩]) = .ok ⟨some 1⟩ := by
  decide +kernel

end Group

end BallotMix
