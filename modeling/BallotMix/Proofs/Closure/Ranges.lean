import BallotMix.Proofs.Closure.Operations
import BallotMix.Proofs.Group.Preset
import Mathlib

/-!
# What is in range

Where nobody knows that the two moduli of a group are prime, its operations may leave the group.  They
do not leave the residues: the last step to every number that is made is an operation on elements or
on scalars, and its result lies below the modulus that it is taken by.  So all that is made can be
written, with any parameter set.
-/

namespace BallotMix

open Result

variable {G : Group} {σ : Type} [Source σ]

/-! ## Elements -/

namespace Group

theorem positive_of_preset {name : String} (h : preset name = .ok G) : 0 < G.p := by
  obtain ⟨p, g, built⟩ := built_of_preset h
  obtain ⟨-, -, -, -, member, -⟩ := ofSafePrime_eq_ok_iff.1 built
  obtain ⟨v, -, positive, small, -⟩ := G.exists_of_isMember member
  omega

theorem isResidue_pow (positive : 0 < G.p) (x e : ℤ) :
    (G.pow x e).Ensures fun y => G.IsResidue (some y) := by
  intro y hy
  obtain ⟨-, power⟩ := ite_error_eq_ok_iff.1 hy
  have small := Modular.powBits_lt positive (Number.bitLength e.natAbs)
    (Nat.mod_lt 1 positive) (x % G.p).toNat e.natAbs
  rw [← Except.ok.inj power]
  exact isResidue_some.2 ⟨Int.natCast_nonneg _, Int.ofNat_lt.2 small⟩

theorem isResidue_genPow (positive : 0 < G.p) (e : ℤ) :
    (G.genPow e).Ensures fun y => G.IsResidue (some y) := isResidue_pow positive G.g e

theorem isResidue_mul (x y : ℤ) : (G.mul x y).Ensures fun z => G.IsResidue (some z) :=
  (ensures_emod (x * y)).mono fun _ => isResidue_some.2

theorem residues_mulPair (a b : Pair) :
    (G.mulPair a b).Ensures fun c => G.Residues [some c.c1, some c.c2] := by
  unfold mulPair
  refine (isResidue_mul a.c1 b.c1).bind fun c1 h1 => ?_
  refine (isResidue_mul a.c2 b.c2).bind fun c2 h2 => ensures_ok ?_
  simpa using ⟨isResidue_some.1 h1, isResidue_some.1 h2⟩

theorem residues_reencrypt (pk : PublicKey) (ct : Ciphertext) (r : Option ℤ) :
    (G.reencrypt pk ct r).Ensures fun c => G.Residues [some c.c1, some c.c2] := by
  unfold reencrypt
  refine ensures_true.bind fun c _ => ?_
  exact ensures_true.bind fun blind _ => residues_mulPair c blind

theorem ensures_derivePublicKey (sk : SecretKey) :
    (G.derivePublicKey sk).Ensures fun pk => ∃ h, pk = ⟨some h⟩ := by
  unfold derivePublicKey
  refine ensures_true.bind fun x _ => ?_
  exact ensures_true.bind fun h _ => ensures_ok ⟨h, rfl⟩

/-- A key pair has both its numbers. -/
theorem ensures_generateKeyPair :
    (G.generateKeyPair : Draw σ KeyPair).Ensures
      fun keys => ∃ x h, keys = ⟨⟨some h⟩, ⟨some x⟩⟩ := by
  unfold generateKeyPair
  refine Draw.ensures_true.bind fun x _ => ?_
  refine Draw.ensures_liftM_bind (ensures_derivePublicKey ⟨some x⟩) fun pk hpk => ?_
  obtain ⟨h, rfl⟩ := hpk
  exact Draw.ensures_pure ⟨x, h, rfl⟩

end Group

open BallotMix.Group

/-! ## Proofs of re-encryption -/

theorem Reencryption.writable_prove (positive : 0 < G.p) (pk : PublicKey)
    (input output : Ciphertext) (r : ℤ) (domain : Bytes) :
    (Reencryption.prove G pk input output r domain : Draw σ Reencryption.Proof).Ensures
      (Reencryption.Proof.Writable G) := by
  unfold Reencryption.prove
  refine Draw.ensures_liftM_bind ensures_true fun h _ => ?_
  refine Draw.ensures_liftM_bind ensures_true fun input _ => ?_
  refine Draw.ensures_liftM_bind ensures_true fun output _ => ?_
  refine Draw.ensures_liftM_bind ensures_true fun images _ => ?_
  refine (LogEquality.ensures_prove_parts (fun b _ e => isResidue_pow positive b e) _ images r).bind
    fun proof parts => Draw.ensures_pure ?_
  obtain ⟨⟨as, commitments, size, residues⟩, scalars⟩ := parts
  obtain ⟨a, b, rfl⟩ := List.length_eq_two.1 size
  refine ⟨?_, scalars⟩
  rw [commitments]
  simpa using residues

theorem Reencryption.writable_reencryptWithProof (positive : 0 < G.p) (pk : PublicKey)
    (ct : Ciphertext) (domain : Bytes) :
    (Reencryption.reencryptWithProof G pk ct domain : Draw σ (Pair × Reencryption.Proof)).Ensures
      fun made => G.Residues [some made.1.c1, some made.1.c2] ∧ made.2.Writable G := by
  unfold Reencryption.reencryptWithProof
  refine Draw.ensures_true.bind fun r _ => ?_
  refine Draw.ensures_liftM_bind (residues_reencrypt pk ct (some r)) fun output houtput => ?_
  refine (Reencryption.writable_prove positive pk ct output.toCiphertext r domain).bind
    fun proof hproof => ?_
  exact Draw.ensures_pure ⟨houtput, hproof⟩

/-! ## Shuffles -/

namespace Shuffle

variable [Workers.Scheduler]

theorem residues_commitTo (positive : 0 < G.p) (threads : ℕ) (gens : Generators)
    (permutation : List ℕ) (exponents : List ℤ) :
    (commitTo G threads gens permutation exponents).Ensures
      fun commitment => G.Residues (commitment.map some) := by
  unfold commitTo
  have factor (rh : ℤ × ℤ) : (do G.mul (← G.genPow rh.1) rh.2).Ensures
      fun y => G.IsResidue (some y) := ensures_true.bind fun x _ => isResidue_mul x rh.2
  refine (ensures_forList fun rh _ => factor rh).bind fun committed h => ensures_ok ?_
  refine residues_map_some.2 (Permutation.forall_mem_scatter ?_ h.2)
  exact isResidue_some.2 ⟨le_rfl, Int.ofNat_lt.2 positive⟩

omit [Workers.Scheduler] in
theorem residues_chainFrom (previous : ℤ) (steps : List (ℤ × ℤ)) :
    (chainFrom G previous steps).Ensures fun chain => G.Residues (chain.map some) := by
  induction steps generalizing previous with
  | nil => exact ensures_ok (residues_map_some.2 (by simp))
  | cons step steps ih =>
    obtain ⟨blinding, exponent⟩ := step
    unfold chainFrom
    refine ensures_true.bind fun power _ => ?_
    refine (isResidue_mul blinding power).bind fun link hlink => ?_
    exact (ih link).bind fun links hlinks => ensures_ok (residues_cons.2 ⟨hlink, hlinks⟩)

theorem residues_makeChain (threads : ℕ) (gens : Generators) (exponents permuted : List ℤ) :
    (makeChain G threads gens exponents permuted).Ensures
      fun chain => G.Residues (chain.map some) := by
  unfold makeChain
  exact ensures_true.bind fun blindings _ => residues_chainFrom gens.base (blindings.zip permuted)

theorem writable_proveWith (positive : 0 < G.p) (pk : PublicKey)
    (inputs outputs : List Ciphertext) (permutation : List ℕ) (randomizers : List ℤ)
    (gens : Generators) (nonces : Nonces) (options : Options) :
    (proveWith G pk inputs outputs permutation randomizers gens nonces options).Ensures
      fun proof => proof.toProof.Writable G := by
  unfold proveWith finalChallenge
  refine (residues_commitTo positive _ gens permutation _).bind fun commitment hcommitment => ?_
  refine ensures_true.bind fun statement _ => ?_
  refine ensures_true.bind fun u _ => ?_
  refine (residues_makeChain _ gens _ _).bind fun chain hchain => ?_
  refine ensures_true.bind fun h _ => ?_
  refine ensures_true.bind fun outs _ => ?_
  refine ensures_true.bind fun announcement _ => ?_
  refine (ensures_true.bind fun t _ => ensures_challenge t).bind fun c hc => ?_
  refine ensures_true.bind fun x1 _ => (ensures_respond c _ x1).bind fun s1 hs1 => ?_
  refine ensures_true.bind fun products _ => ?_
  refine ensures_true.bind fun x2 _ => (ensures_respond c _ x2).bind fun s2 hs2 => ?_
  refine ensures_true.bind fun x3 _ => (ensures_respond c _ x3).bind fun s3 hs3 => ?_
  refine ensures_true.bind fun x4 _ => (ensures_respond c _ x4).bind fun s4 hs4 => ?_
  refine (ensures_mapM fun wx _ => ensures_respond c wx.1 wx.2).bind fun sHat hHat => ?_
  refine (ensures_mapM fun wx _ => ensures_respond c wx.1 wx.2).bind fun sTilde hTilde => ?_
  refine ensures_ok ⟨residues_append.2 ⟨hcommitment, hchain⟩, ?_⟩
  refine scalars_append.2 ⟨scalars_append.2 ⟨?_, scalars_map_some.2 hHat.2⟩,
    scalars_map_some.2 hTilde.2⟩
  simpa [CompleteProof.toProof] using ⟨hc, hs1, hs2, hs3, hs4⟩

theorem writable_prove (positive : 0 < G.p) (pk : PublicKey) (inputs outputs : List Ciphertext)
    (permutation : List ℕ) (randomizers : List ℤ) (options : Options) :
    (prove G pk inputs outputs permutation randomizers options : Draw σ CompleteProof).Ensures
      fun proof => proof.toProof.Writable G := by
  unfold prove
  simp only [ExceptT.bind_throw]
  refine Draw.Ensures.guard (Draw.Ensures.guard ?_)
  refine Draw.ensures_liftM_bind ensures_true fun gens _ => ?_
  refine Draw.ensures_true.bind fun nonces _ => Draw.ensures_liftM ?_
  exact writable_proveWith positive pk inputs outputs permutation randomizers gens nonces options

theorem writable_shuffle (positive : 0 < G.p) (pk : PublicKey) (inputs : List Ciphertext)
    (options : Options) :
    (shuffle G pk inputs options : Draw σ (List Pair × CompleteProof)).Ensures
      fun made => (∀ c ∈ made.1, G.Residues [some c.c1, some c.c2]) ∧ made.2.toProof.Writable G := by
  unfold shuffle
  simp only [ExceptT.bind_throw]
  refine Draw.Ensures.guard ?_
  refine Draw.ensures_liftM_bind ensures_true fun _ _ => ?_
  refine Draw.ensures_liftM_bind ensures_true fun _ _ => ?_
  refine Draw.ensures_true.bind fun permutation _ => ?_
  refine Draw.ensures_true.bind fun randomizers _ => ?_
  refine Draw.ensures_liftM_bind (ensures_forList fun jr _ => residues_reencrypt pk _ (some jr.2))
    fun outputs houtputs => ?_
  refine (writable_prove positive pk inputs _ permutation randomizers options).bind
    fun proof hproof => ?_
  exact Draw.ensures_pure ⟨houtputs.2, hproof⟩

end Shuffle

/-! ## Dealing -/

namespace Sharing

/-- What a dealer makes can be written: the key and the secrets are there, and the commitments are
residues. -/
structure Dealing.Writable (G : Group) (dealing : Dealing) : Prop where
  key : ∃ h, dealing.electionKey = ⟨some h⟩
  commitments : G.Residues dealing.commitments.coefficients
  secrets : ∀ share ∈ dealing.shares, ∃ s, share.secret = some s

theorem writable_dealPoly (positive : 0 < G.p) {coefficients : List ℤ} (ne : coefficients ≠ [])
    (total : ℕ) : (dealPoly G coefficients total).Ensures (Dealing.Writable G) := by
  unfold dealPoly
  refine (ensures_mapM fun a _ => isResidue_genPow positive a).bind fun commitments made => ?_
  have share (i : UInt64) : (shareAt G coefficients i).Ensures
      fun share => ∃ s, share.secret = some s := by
    unfold shareAt
    exact ensures_true.bind fun s _ => ensures_true.bind fun _ _ => ensures_ok ⟨s, rfl⟩
  refine (ensures_mapM fun i _ => share (UInt64.ofNat (i + 1))).bind fun shares dealt => ?_
  refine ensures_ok ⟨?_, residues_map_some.2 made.2, dealt.2⟩
  obtain ⟨a, others, rfl⟩ := List.exists_cons_of_ne_nil ne
  obtain ⟨h, rest, rfl⟩ := List.exists_cons_of_length_eq_add_one made.1
  exact ⟨h, rfl⟩

theorem writable_deal (positive : 0 < G.p) (t n : UInt64) :
    (deal G t n : Draw σ Dealing).Ensures (Dealing.Writable G) := by
  unfold deal dealSecret
  simp only [ExceptT.bind_throw]
  refine Draw.ensures_true.bind fun x _ => Draw.Ensures.guard ?_
  refine Draw.ensures_liftM_bind ensures_true fun x _ => ?_
  refine Draw.ensures_true.bind fun others _ => Draw.ensures_liftM ?_
  exact writable_dealPoly positive (List.cons_ne_nil x others) n.toNat

end Sharing

end BallotMix
