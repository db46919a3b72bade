import BallotMix.Proofs.ElGamal.Exponents
import Mathlib

/-!
# Expressions over ciphertexts

Encryption, re-encryption and products can be nested at will.  An `Expression` is one such nesting
under a fixed key.  Its value never fails where its inputs are valid, and decrypts to the product of
the plaintexts at its leaves (`decrypt_value`): on exponents every node adds, and `plainLog` is
additive and blind to re-encryption.
-/

namespace BallotMix

/-- A nesting of the operations on ciphertexts under one key. -/
inductive Expression
  /-- The encryption of `m` with nonce `r`. -/
  | encrypt (m r : ℤ)
  /-- A ciphertext from elsewhere. -/
  | given (ct : Ciphertext)
  /-- The re-encryption with nonce `r`. -/
  | reencrypt (e : Expression) (r : ℤ)
  | combine (a b : Expression)

namespace Expression

variable (G : Group)

/-- The ciphertext that the operations make. -/
def value (pk : PublicKey) : Expression → Result Ciphertext
  | encrypt m r => do pure (← G.encrypt pk (some m) (some r)).toCiphertext
  | given ct => pure ct
  | reencrypt e r => do pure (← G.reencrypt pk (← e.value pk) (some r)).toCiphertext
  | combine a b => do pure (← G.combine (← a.value pk) (← b.value pk)).toCiphertext

/-- What was encrypted at the leaves, from left to right; a given ciphertext counts by what it
decrypts to. -/
def plaintexts (sk : SecretKey) : Expression → Result (List ℤ)
  | encrypt m _ => pure [m]
  | given ct => do pure [← G.decrypt sk ct]
  | reencrypt e _ => e.plaintexts sk
  | combine a b => do pure ((← a.plaintexts sk) ++ (← b.plaintexts sk))

/-- Plaintexts and given ciphertexts consist of members, and nonces lie in `[1, q - 1]`. -/
def Valid : Expression → Prop
  | encrypt m r => G.isMember (some m) = true ∧ 0 < r ∧ r < G.q
  | given ct => G.isMember ct.c1 = true ∧ G.isMember ct.c2 = true
  | reencrypt e r => e.Valid ∧ 0 < r ∧ r < G.q
  | combine a b => a.Valid ∧ b.Valid

variable {G : Group} [accepted : G.Accepted]

/-- By exponents, the value of an expression carries the sum of what its leaves carry. -/
theorem Valid.exists_logs {y : ZMod G.q} (hy : y ≠ 0) {e : Expression} (valid : e.Valid G) :
    ∃ (c : ZMod G.q × ZMod G.q) (as : List (ZMod G.q)),
      e.value G ⟨some (G.element y)⟩ = .ok (G.cipherOf c) ∧
      e.plaintexts G ⟨some (G.scalar y)⟩ = .ok (as.map G.element) ∧
      Group.plainLog y c = as.sum := by
  -- By induction on the nesting; that the operands have exponents is what keeps the checks passing.
  induction e with
  | encrypt m r =>
    obtain ⟨a, rfl⟩ := G.exists_element valid.1
    obtain ⟨s, hs, rfl⟩ := G.exists_nonzero_scalar valid.2
    refine ⟨(0, a) + Group.blind y s, [a], ?_, rfl, ?_⟩
    · rw [value, G.encrypt_element hy hs]
      rfl
    · rw [Group.plainLog_add_blind, Group.plainLog, List.sum_singleton, zero_mul, sub_zero]
  | given ct =>
    obtain ⟨c, rfl⟩ := G.exists_cipherOf valid.1 valid.2
    refine ⟨c, [Group.plainLog y c], rfl, ?_, List.sum_singleton.symm⟩
    rw [plaintexts, G.decrypt_cipherOf, G.cast_scalar]
    rfl
  | reencrypt e r ih =>
    obtain ⟨c, as, made, opened, sum⟩ := ih valid.1
    obtain ⟨s, hs, rfl⟩ := G.exists_nonzero_scalar valid.2
    refine ⟨c + Group.blind y s, as, ?_, opened, ?_⟩
    · rw [value, made, Result.ok_bind, G.reencrypt_cipherOf hy hs]
      rfl
    · rw [Group.plainLog_add_blind, sum]
  | combine a b iha ihb =>
    obtain ⟨c, as, made, opened, sum⟩ := iha valid.1
    obtain ⟨d, bs, made', opened', sum'⟩ := ihb valid.2
    refine ⟨c + d, as ++ bs, ?_, ?_, ?_⟩
    · rw [value, made, made', Result.ok_bind, Result.ok_bind, G.combine_cipherOf]
      rfl
    · rw [plaintexts, opened, opened', List.map_append]
      rfl
    · rw [Group.plainLog_add, sum, sum', List.sum_append]

/-- Every valid expression under the key `g ^ x` has a value, and it decrypts to the product of the
plaintexts at the leaves. -/
theorem decrypt_value {x : ℤ} (hx : 0 < x ∧ x < G.q) {e : Expression} (valid : e.Valid G) :
    ∃ h ct ms, G.genPow x = .ok h ∧ e.value G ⟨some h⟩ = .ok ct ∧
      e.plaintexts G ⟨some x⟩ = .ok ms ∧ G.decrypt ⟨some x⟩ ct = .ok (ms.prod % G.p) := by
  obtain ⟨y, hy, rfl⟩ := G.exists_nonzero_scalar hx
  obtain ⟨c, as, made, opened, sum⟩ := valid.exists_logs hy
  refine ⟨_, _, _, G.genPow_scalar y, made, opened, ?_⟩
  rw [G.decrypt_cipherOf, G.cast_scalar, sum, G.prod_emod_eq_element]

/-- Under the secret key nine, two encryptions of sixteen around a ciphertext from elsewhere open to
the product of the three plaintexts. -/
theorem decrypt_value_least :
    let sixteen : Expression := .reencrypt (.encrypt 16 7) 1073741890
    let e : Expression :=
      .reencrypt (.combine sixteen (.combine (.given ⟨some 16, some 2⟩) sixteen)) 5
    e.Valid Group.least ∧ e.plaintexts Group.least ⟨some 9⟩ = .ok [16, 166032311, 16] ∧
      ∃ ct, e.value Group.least ⟨some 262144⟩ = .ok ct ∧
        Group.least.decrypt ⟨some 9⟩ ct = .ok 1702079739 := by
  intro sixteen e
  have leaf : sixteen.Valid Group.least := ⟨⟨by decide +kernel, by decide⟩, by decide⟩
  have elsewhere : Group.least.isMember (some 16) = true ∧
      Group.least.isMember (some 2) = true := by decide +kernel
  have valid : e.Valid Group.least := ⟨⟨leaf, elsewhere, leaf⟩, by decide⟩
  have opened : e.plaintexts Group.least ⟨some 9⟩ = .ok [16, 166032311, 16] := by decide +kernel
  have key : Group.least.genPow 9 = .ok 262144 := by decide +kernel
  obtain ⟨h, ct, ms, hh, made, hms, product⟩ := decrypt_value (x := 9) (by decide) valid
  obtain rfl : 262144 = h := Except.ok.inj (key.symm.trans hh)
  obtain rfl : [16, 166032311, 16] = ms := Except.ok.inj (opened.symm.trans hms)
  exact ⟨valid, opened, ct, made, product⟩

end Expression

end BallotMix
