import BallotMix.ElGamal.Basic
import BallotMix.Proofs.Group.Exponents
import Mathlib

/-!
# Encryption by exponents

A ciphertext of members is given by the exponents of its two components (`pairOf`).  Encryption with
nonce `r` under the key `g ^ y` adds `(r, y r)` to `(0, m)`, re-encryption adds it to any pair of
exponents, and decryption with `x` takes `(a, b)` to `b - a x`.
-/

namespace BallotMix.Group

/-- What encryption of one with nonce `r` under the key with exponent `y` adds to exponents. -/
def blind {q : ℕ} (y r : ZMod q) : ZMod q × ZMod q := (r, y * r)

/-- The exponent that decryption with `x` gives. -/
def plainLog {q : ℕ} (x : ZMod q) (c : ZMod q × ZMod q) : ZMod q := c.2 - c.1 * x

theorem plainLog_add {q : ℕ} (x : ZMod q) (c d : ZMod q × ZMod q) :
    plainLog x (c + d) = plainLog x c + plainLog x d := by
  simp only [plainLog, Prod.fst_add, Prod.snd_add]
  ring

theorem plainLog_sum {q : ℕ} (x : ZMod q) (cs : List (ZMod q × ZMod q)) :
    plainLog x cs.sum = (cs.map (plainLog x)).sum := by
  induction cs with
  | nil => simp [plainLog]
  | cons c cs ih => rw [List.sum_cons, plainLog_add, ih, List.map_cons, List.sum_cons]

@[simp]
theorem plainLog_blind {q : ℕ} (y r : ZMod q) : plainLog y (blind y r) = 0 := by
  rw [plainLog, blind, mul_comm, sub_self]

theorem plainLog_add_blind {q : ℕ} (y r : ZMod q) (c : ZMod q × ZMod q) :
    plainLog y (c + blind y r) = plainLog y c := by
  rw [plainLog_add, plainLog_blind, add_zero]

variable (G : Group) [accepted : G.Accepted]

/-- The pair with the given exponents. -/
def pairOf (c : ZMod G.q × ZMod G.q) : Pair := ⟨G.element c.1, G.element c.2⟩

/-- The ciphertext with the given exponents. -/
def cipherOf (c : ZMod G.q × ZMod G.q) : Ciphertext := (G.pairOf c).toCiphertext

theorem cipherOf_eq (c : ZMod G.q × ZMod G.q) :
    G.cipherOf c = ⟨some (G.element c.1), some (G.element c.2)⟩ := rfl

theorem cipherOf_injective : Function.Injective G.cipherOf := fun a b h => by
  simp only [cipherOf_eq, Ciphertext.mk.injEq, Option.some.injEq, element_inj] at h
  exact Prod.ext h.1 h.2

theorem map_toCiphertext_pairOf (cs : List (ZMod G.q × ZMod G.q)) :
    (cs.map G.pairOf).map Pair.toCiphertext = cs.map G.cipherOf := by
  rw [List.map_map]
  rfl

theorem toCiphertext_injective : Function.Injective Pair.toCiphertext := by
  rintro ⟨a, b⟩ ⟨a', b'⟩ same
  simpa [Pair.toCiphertext] using same

/-- Pairs that make ciphertexts of members are given by the same exponents. -/
theorem eq_map_pairOf {ps : List Pair} {cs : List (ZMod G.q × ZMod G.q)}
    (h : ps.map Pair.toCiphertext = cs.map G.cipherOf) : ps = cs.map G.pairOf := by
  refine toCiphertext_injective.list_map ?_
  rw [h, map_toCiphertext_pairOf]

theorem map_c1_pairOf (cs : List (ZMod G.q × ZMod G.q)) :
    (cs.map G.pairOf).map (fun c => c.c1) = (cs.map Prod.fst).map G.element := by
  simp [pairOf]

theorem map_c2_pairOf (cs : List (ZMod G.q × ZMod G.q)) :
    (cs.map G.pairOf).map (fun c => c.c2) = (cs.map Prod.snd).map G.element := by
  simp [pairOf]

/-! ## Checks -/

@[simp]
theorem isMember_cipherOf_c1 (c : ZMod G.q × ZMod G.q) :
    G.isMember (G.cipherOf c).c1 = true := G.isMember_element c.1

@[simp]
theorem isMember_cipherOf_c2 (c : ZMod G.q × ZMod G.q) :
    G.isMember (G.cipherOf c).c2 = true := G.isMember_element c.2

@[simp]
theorem ensureMember_element (what : String) (a : ZMod G.q) :
    G.ensureMember what (some (G.element a)) = .ok (G.element a) :=
  G.ensureMember_eq_ok_iff.2 ⟨G.isMember_element a, rfl⟩

@[simp]
theorem ensureCiphertext_cipherOf (c : ZMod G.q × ZMod G.q) :
    G.ensureCiphertext (G.cipherOf c) = .ok (G.pairOf c) := by
  simp [ensureCiphertext, cipherOf_eq, pairOf]

/-- Ciphertexts of members are those with exponents. -/
theorem exists_cipherOf {ct : Ciphertext} (h₁ : G.isMember ct.c1 = true)
    (h₂ : G.isMember ct.c2 = true) : ∃ c, ct = G.cipherOf c := by
  obtain ⟨c1, c2⟩ := ct
  obtain ⟨a, rfl⟩ := G.isMember_iff.1 h₁
  obtain ⟨b, rfl⟩ := G.isMember_iff.1 h₂
  exact ⟨(a, b), rfl⟩

/-- Pairs of members are those with exponents. -/
theorem exists_pairOf {p : Pair} (h₁ : G.isMember (some p.c1) = true)
    (h₂ : G.isMember (some p.c2) = true) : ∃ c, p = G.pairOf c := by
  have members : ∃ c, p.toCiphertext = G.cipherOf c := G.exists_cipherOf h₁ h₂
  obtain ⟨c, hc⟩ := members
  exact ⟨c, toCiphertext_injective hc⟩

theorem exists_cipherOf_list {cts : List Ciphertext}
    (h : ∀ ct ∈ cts, G.isMember ct.c1 = true ∧ G.isMember ct.c2 = true) :
    ∃ cs : List (ZMod G.q × ZMod G.q), cts = cs.map G.cipherOf :=
  exists_map_of_forall_mem fun ct hct => G.exists_cipherOf (h ct hct).1 (h ct hct).2

theorem exists_pairOf_list {ps : List Pair}
    (h : ∀ p ∈ ps, G.isMember (some p.c1) = true ∧ G.isMember (some p.c2) = true) :
    ∃ cs : List (ZMod G.q × ZMod G.q), ps = cs.map G.pairOf := by
  have fields : ∀ ct ∈ ps.map Pair.toCiphertext,
      G.isMember ct.c1 = true ∧ G.isMember ct.c2 = true := List.forall_mem_map.2 h
  obtain ⟨cs, hcs⟩ := G.exists_cipherOf_list fields
  exact ⟨cs, G.eq_map_pairOf hcs⟩

/-- The ciphertexts that are accepted are those with exponents. -/
theorem ensureCiphertext_eq_ok_iff {ct : Ciphertext} {p : Pair} :
    G.ensureCiphertext ct = .ok p ↔ ∃ c, ct = G.cipherOf c ∧ p = G.pairOf c := by
  constructor
  · intro h
    have checks := h
    simp only [ensureCiphertext, Result.bind_eq_ok_iff, ensureMember_eq_ok_iff] at checks
    obtain ⟨_, ⟨h₁, -⟩, _, ⟨h₂, -⟩, -⟩ := checks
    obtain ⟨c, rfl⟩ := G.exists_cipherOf h₁ h₂
    exact ⟨c, rfl, Except.ok.inj (h.symm.trans (G.ensureCiphertext_cipherOf c))⟩
  · rintro ⟨c, rfl, rfl⟩
    exact G.ensureCiphertext_cipherOf c

@[simp]
theorem ensureCiphertexts_map (cs : List (ZMod G.q × ZMod G.q)) :
    G.ensureCiphertexts (cs.map G.cipherOf) = .ok (cs.map G.pairOf) := by
  rw [ensureCiphertexts, List.mapM_map]
  exact Result.mapM_eq_ok fun c _ => G.ensureCiphertext_cipherOf c

/-- The lists of ciphertexts that are accepted are those with exponents. -/
theorem ensureCiphertexts_eq_ok_iff {cts : List Ciphertext} {ps : List Pair} :
    G.ensureCiphertexts cts = .ok ps ↔ ∃ cs : List (ZMod G.q × ZMod G.q),
      cts = cs.map G.cipherOf ∧ ps = cs.map G.pairOf := by
  constructor
  · intro h
    have exponents : ∀ ct ∈ cts, ∃ c, ct = G.cipherOf c := fun ct hct => by
      obtain ⟨p, -, hp⟩ := Result.exists_of_mapM h hct
      obtain ⟨c, hc, -⟩ := G.ensureCiphertext_eq_ok_iff.1 hp
      exact ⟨c, hc⟩
    obtain ⟨cs, rfl⟩ := exists_map_of_forall_mem exponents
    exact ⟨cs, rfl, Except.ok.inj (h.symm.trans (G.ensureCiphertexts_map cs))⟩
  · rintro ⟨cs, rfl, rfl⟩
    exact G.ensureCiphertexts_map cs

@[simp]
theorem pair_cipherOf (c : ZMod G.q × ZMod G.q) : (G.cipherOf c).pair = .ok (G.pairOf c) := by
  simp [Ciphertext.pair, cipherOf_eq, pairOf]

@[simp]
theorem mapM_pair (cs : List (ZMod G.q × ZMod G.q)) :
    (cs.map G.cipherOf).mapM Ciphertext.pair = .ok (cs.map G.pairOf) := by
  rw [List.mapM_map]
  exact Result.mapM_eq_ok fun c _ => G.pair_cipherOf c

/-- The keys that are accepted are the powers to exponents other than zero. -/
theorem ensureKey_eq_ok_iff {pk : PublicKey} {h : ℤ} :
    G.ensureKey pk = .ok h ↔ ∃ y ≠ 0, pk = ⟨some (G.element y)⟩ ∧ h = G.element y := by
  obtain ⟨k⟩ := pk
  simp only [ensureKey, Result.throw_eq_error, Result.bind_eq_ok_iff, Result.pure_eq_ok,
    ensureMember_eq_ok_iff, Result.error_bind, Result.ite_error_eq_ok_iff, Except.ok.injEq,
    PublicKey.mk.injEq, isMember_iff]
  constructor
  · rintro ⟨_, ⟨⟨y, rfl⟩, hy⟩, ne, rfl⟩
    obtain rfl := Option.some.inj hy
    exact ⟨y, fun zero => ne (by rw [zero, element_zero]), rfl, rfl⟩
  · rintro ⟨y, ne, rfl, rfl⟩
    refine ⟨_, ⟨⟨y, rfl⟩, rfl⟩, fun one => ne ?_, rfl⟩
    rwa [← G.element_zero, element_inj] at one

theorem ensureKey_element {y : ZMod G.q} (hy : y ≠ 0) :
    G.ensureKey ⟨some (G.element y)⟩ = .ok (G.element y) :=
  G.ensureKey_eq_ok_iff.2 ⟨y, hy, rfl, rfl⟩

/-- The exponents that are accepted are those other than zero. -/
theorem ensureExponent_eq_ok_iff {fault : ArgumentFault} {s : Option ℤ} {x : ℤ} :
    G.ensureExponent fault s = .ok x ↔ ∃ a ≠ 0, s = some (G.scalar a) ∧ x = G.scalar a := by
  rw [ensureExponent]
  constructor
  · intro h
    split at h
    · next range =>
      rw [Bool.and_eq_true, decide_eq_true_eq, isScalar_iff] at range
      obtain ⟨⟨a, rfl⟩, ne⟩ := range
      refine ⟨a, fun zero => ne (by rw [zero, scalar_zero]), rfl, ?_⟩
      simpa [eq_comm] using h
    · cases h
  · rintro ⟨a, ne, rfl, rfl⟩
    have range : some (G.scalar a) ≠ some 0 := by
      rwa [← G.scalar_zero, Ne, Option.some.injEq, scalar_inj]
    rw [isScalar_scalar, Bool.true_and, if_pos (decide_eq_true range), present_some]

theorem ensureExponent_scalar {a : ZMod G.q} (ha : a ≠ 0) (fault : ArgumentFault) :
    G.ensureExponent fault (some (G.scalar a)) = .ok (G.scalar a) :=
  G.ensureExponent_eq_ok_iff.2 ⟨a, ha, rfl, rfl⟩

/-! ## Operations -/

@[simp]
theorem mulPair_pairOf (a b : ZMod G.q × ZMod G.q) :
    G.mulPair (G.pairOf a) (G.pairOf b) = .ok (G.pairOf (a + b)) := by
  simp [mulPair, pairOf]

@[simp]
theorem combine_cipherOf (a b : ZMod G.q × ZMod G.q) :
    G.combine (G.cipherOf a) (G.cipherOf b) = .ok (G.pairOf (a + b)) := by
  simp [combine]

/-- Encryption adds the blinding to the exponent of the plaintext. -/
theorem encrypt_element {y r : ZMod G.q} (hy : y ≠ 0) (hr : r ≠ 0) (m : ZMod G.q) :
    G.encrypt ⟨some (G.element y)⟩ (some (G.element m)) (some (G.scalar r))
      = .ok (G.pairOf ((0, m) + blind y r)) := by
  simp [encrypt, G.ensureKey_element hy, G.ensureExponent_scalar hr, pairOf, blind]

/-- Re-encryption adds the blinding. -/
theorem reencrypt_cipherOf {y r : ZMod G.q} (hy : y ≠ 0) (hr : r ≠ 0) (c : ZMod G.q × ZMod G.q) :
    G.reencrypt ⟨some (G.element y)⟩ (G.cipherOf c) (some (G.scalar r))
      = .ok (G.pairOf (c + blind y r)) := by
  rw [reencrypt, ensureCiphertext_cipherOf, Result.ok_bind, ← G.element_zero,
    G.encrypt_element hy hr, Result.ok_bind, mulPair_pairOf]
  congr 3
  rw [Prod.mk_zero_zero, zero_add]

/-- Decryption with `x` takes away the power of the first component. -/
theorem decrypt_cipherOf (x : ℤ) (c : ZMod G.q × ZMod G.q) :
    G.decrypt ⟨some x⟩ (G.cipherOf c) = .ok (G.element (plainLog x c)) := by
  simp [decrypt, pairOf, plainLog, sub_eq_add_neg]

theorem mapM_decrypt (x : ℤ) (cs : List (ZMod G.q × ZMod G.q)) :
    (cs.map G.cipherOf).mapM (G.decrypt ⟨some x⟩)
      = .ok ((cs.map (plainLog (x : ZMod G.q))).map G.element) := by
  rw [List.mapM_map, List.map_map]
  exact Result.mapM_eq_ok fun c _ => G.decrypt_cipherOf x c

theorem dot_plainLog {q : ℕ} (x : ZMod q) (cs : List (ZMod q × ZMod q)) (es : List (ZMod q)) :
    dot (cs.map (plainLog x)) es = dot (cs.map Prod.snd) es - x * dot (cs.map Prod.fst) es := by
  induction cs generalizing es with
  | nil => simp
  | cons c cs ih =>
    cases es with
    | nil => simp
    | cons e es =>
      simp only [List.map_cons, dot_cons, ih, plainLog]
      ring

end BallotMix.Group
