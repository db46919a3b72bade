import BallotMix.Proofs.Entropy.Uniform
import BallotMix.Proofs.Shuffle.ClaimedWitness
import Mathlib

/-!
# The commitment hides the permutation

The commitment to a permutation holds each generator times a power of `g` to an exponent of its own.
So for every permutation a list of members is the commitment for exactly one list of exponents
(`commitTo_eq_ok_iff`), and these are other than zero if no member is one of the generators
(`ne_zero_of_mem_blinding`).  The prover draws the exponents before anything else, and whether it goes
on to return does not depend on what they are.  So each list of members comes from equally many tapes
whatever the permutation (`commitment_hides`).
-/

namespace BallotMix

open Draw

/-! ## Lists of exponents on tapes -/

namespace Group

variable (G : Group) [accepted : G.Accepted]

/-- The tapes from which the exponents are drawn so that one of `rests` is left. -/
def drawingExponents (as : List (ZMod G.q)) (rests : Set Bytes) : Set Bytes :=
  {bytes | ∃ rest ∈ rests,
    (G.randomExponents as.length).Returns (⟨bytes⟩ : Tape) (as.map G.scalar) ⟨rest⟩}

/-- The first exponent is drawn, and what is left gives the others. -/
theorem drawingExponents_cons {a : ZMod G.q} (ha : a ≠ 0) (as : List (ZMod G.q)) (rests : Set Bytes)
    (n : ℕ) : G.drawingExponents (a :: as) rests ∩ strings n =
      drawing (G.q - 1) (a.val - 1 : ℕ) (G.drawingExponents as rests) n := by
  have positive := accepted.prime_order.pos
  have value : G.scalar a - 1 = (a.val - 1 : ℕ) := by
    have := ZMod.val_pos.2 ha
    rw [scalar]
    omega
  ext bytes
  rw [Set.inter_comm]
  refine and_congr_right fun _ => ?_
  simp only [drawingExponents, List.length_cons, List.map_cons, randomExponents, returns_bind_iff,
    returns_pure_iff, ← value, ← G.randomExponent_returns_iff positive]
  constructor
  · rintro ⟨rest, member, r, t, first, rs, t', others, same, rfl⟩
    obtain ⟨rfl, rfl⟩ := List.cons.inj same
    exact ⟨t.bytes, ⟨rest, member, others⟩, first⟩
  · rintro ⟨middle, ⟨rest, member, others⟩, first⟩
    exact ⟨rest, member, _, _, first, _, _, others, rfl, rfl⟩

/-- Which exponents are drawn does not matter for how many tapes they are drawn from. -/
theorem ncard_drawingExponents {as bs : List (ZMod G.q)} (length : as.length = bs.length)
    (ha : ∀ a ∈ as, a ≠ 0) (hb : ∀ b ∈ bs, b ≠ 0) (rests : Set Bytes) (n : ℕ) :
    (G.drawingExponents as rests ∩ strings n).ncard =
      (G.drawingExponents bs rests ∩ strings n).ncard := by
  induction as generalizing bs n with
  | nil =>
    obtain rfl : bs = [] := List.length_eq_zero_iff.1 length.symm
    rfl
  | cons a as ih =>
    obtain ⟨b, bs, rfl⟩ := List.exists_cons_of_length_eq_add_one length.symm
    obtain ⟨ha, has⟩ := List.forall_mem_cons.1 ha
    obtain ⟨hb, hbs⟩ := List.forall_mem_cons.1 hb
    have lowA := ZMod.val_lt a
    have lowB := ZMod.val_lt b
    have positiveA := ZMod.val_pos.2 ha
    have positiveB := ZMod.val_pos.2 hb
    rw [G.drawingExponents_cons ha, G.drawingExponents_cons hb]
    exact ncard_drawing_congr (by omega) (by omega) (by omega)
      (ih (Nat.succ.inj length) has hbs) n

end Group

namespace Shuffle

open Permutation

variable {G : Group} [accepted : G.Accepted]

/-! ## Commitments by exponents -/

/-- The exponents with which the commitment to the permutation holds the given members. -/
def blinding {q : ℕ} (permutation : List ℕ) (h members : List (ZMod q)) : List (ZMod q) :=
  List.zipWith (· - ·) (gather permutation members) h

theorem length_blinding {q n : ℕ} {permutation : List ℕ} (hp : permutation.Perm (List.range n))
    {h : List (ZMod q)} (hh : h.length = n) (members : List (ZMod q)) :
    (blinding permutation h members).length = n := by
  rw [blinding, List.length_zipWith, length_gather, length_of_perm_range hp, hh, Nat.min_self]

theorem zipWith_add_eq_iff {R : Type} [AddGroup R] {as bs hs : List R} (ha : as.length = hs.length)
    (hb : bs.length = hs.length) :
    List.zipWith (· + ·) as hs = bs ↔ as = List.zipWith (· - ·) bs hs := by
  induction hs generalizing as bs with
  | nil => simp [List.length_eq_zero_iff.1 ha, List.length_eq_zero_iff.1 hb]
  | cons h hs ih =>
    obtain ⟨a, as, rfl⟩ := List.exists_cons_of_length_eq_add_one ha
    obtain ⟨b, bs, rfl⟩ := List.exists_cons_of_length_eq_add_one hb
    rw [List.zipWith_cons_cons, List.zipWith_cons_cons, List.cons.injEq, List.cons.injEq,
      ih (Nat.succ.inj ha) (Nat.succ.inj hb), eq_sub_iff_add_eq]

section Permuted

variable {n : ℕ} {permutation : List ℕ} (hp : permutation.Perm (List.range n))
  {hs vs : List (ZMod G.q)} (hh : hs.length = n) (hv : vs.length = n)
include hp hh hv

/-- A list of members is the commitment for one list of exponents. -/
theorem commitTo_eq_ok_iff (threads : ℕ) (base : ZMod G.q) {as : List (ZMod G.q)}
    (ha : as.length = n) :
    commitTo G threads (generatorsOf G base hs) permutation (as.map G.scalar)
        = .ok (vs.map G.element) ↔ as = blinding permutation hs vs := by
  have sums : (List.zipWith (· + ·) as hs).length = n := by
    rw [List.length_zipWith, ha, hh, Nat.min_self]
  have gathered : (gather permutation vs).length = hs.length := by
    rw [length_gather, length_of_perm_range hp, hh]
  rw [commitTo_eq G threads base hp hh ha, Except.ok.injEq,
    (List.map_injective_iff.2 G.element_injective).eq_iff, blinding,
    ← zipWith_add_eq_iff (ha.trans hh.symm) gathered]
  constructor
  · rintro rfl
    exact (gather_scatter hp sums).symm
  · intro same
    rw [same, scatter_gather hp hv]

omit hh in
theorem ne_zero_of_mem_blinding (apart : ∀ v ∈ vs, v ∉ hs) {a : ZMod G.q}
    (ha : a ∈ blinding permutation hs vs) : a ≠ 0 := by
  rintro rfl
  rw [blinding, ← List.map_uncurry_zip_eq_zipWith] at ha
  obtain ⟨⟨v, h⟩, pair, zero⟩ := List.mem_map.1 ha
  obtain ⟨hv', hh⟩ := List.of_mem_zip pair
  obtain rfl : v = h := sub_eq_zero.1 zero
  exact apart v ((gather_perm hp hv).subset hv') hh

end Permuted

/-! ## Runs -/

/-- The draws of a prover after those for the commitment. -/
def drawOthers {σ : Type} [Source σ] (G : Group) (n : ℕ) : Draw σ Nonces := do
  let link ← G.randomExponents n
  let w1 ← G.randomExponent
  let w2 ← G.randomExponent
  let w3 ← G.randomExponent
  let w4 ← G.randomExponent
  let wHat ← G.randomExponents n
  let wTilde ← G.randomExponents n
  pure { commit := [], link, w1, w2, w3, w4, wHat, wTilde }

section Runs

variable {σ : Type} [Source σ] {n : ℕ} {s s' : σ}

omit accepted in
theorem drawNonces_returns_iff {nonces : Nonces} :
    (drawNonces G n).Returns s nonces s' ↔
      ∃ t, (G.randomExponents n).Returns s nonces.commit t ∧
        (drawOthers G n).Returns t { nonces with commit := [] } s' := by
  simp only [drawNonces, drawOthers, returns_bind_iff, returns_pure_iff]
  constructor
  · rintro ⟨commit, t, drawn, link, _, hlink, w1, _, h1, w2, _, h2, w3, _, h3, w4, _, h4, wHat, _,
      hHat, wTilde, _, hTilde, rfl, rfl⟩
    exact ⟨t, drawn, link, _, hlink, w1, _, h1, w2, _, h2, w3, _, h3, w4, _, h4, wHat, _, hHat,
      wTilde, _, hTilde, rfl, rfl⟩
  · rintro ⟨t, drawn, link, _, hlink, w1, _, h1, w2, _, h2, w3, _, h3, w4, _, h4, wHat, _, hHat,
      wTilde, _, hTilde, same, rfl⟩
    refine ⟨nonces.commit, t, drawn, link, _, hlink, w1, _, h1, w2, _, h2, w3, _, h3, w4, _, h4,
      wHat, _, hHat, wTilde, _, hTilde, ?_, rfl⟩
    cases nonces
    simpa using same

omit accepted in
theorem commitTo_of_proveWith {pk : PublicKey} {inputs outputs : List Ciphertext}
    {permutation : List ℕ} {randomizers : List ℤ} {gens : Generators} {nonces : Nonces}
    {options : Options} {proof : CompleteProof}
    (made : proveWith G pk inputs outputs permutation randomizers gens nonces options = .ok proof) :
    commitTo G options.threads gens permutation nonces.commit = .ok proof.commitment := by
  simp only [proveWith, Result.bind_eq_ok_iff, Result.pure_eq_ok, Except.ok.injEq] at made
  obtain ⟨commitment, committed, _, -, _, -, _, -, _, -, _, -, _, -, _, -, _, -, _, -, _, -, _, -,
    _, -, _, -, _, -, _, -, _, -, _, -, _, -, rfl⟩ := made
  exact committed

variable {domain : Bytes} {base : ZMod G.q} {hs vs : List (ZMod G.q)} {permutation : List ℕ}
  {pk : PublicKey} {inputs outputs : List Ciphertext} {randomizers : List ℤ} {threads : ℕ}
  {proof : CompleteProof}

/-- A prover commits to the members if it draws the one list of exponents, and only then. -/
theorem commitment_eq_iff (hi : inputs.length = n) (hp : permutation.Perm (List.range n))
    (derived : generators G domain n = .ok (generatorsOf G base hs)) (hv : vs.length = n)
    (run : (prove G pk inputs outputs permutation randomizers ⟨domain, threads⟩).Returns s proof s') :
    proof.commitment = vs.map G.element ↔
      ∃ t, (G.randomExponents n).Returns s ((blinding permutation hs vs).map G.scalar) t := by
  subst hi
  obtain ⟨-, -, gens, nonces, derived', drawn, made⟩ := prove_returns_iff.1 run
  obtain rfl := Except.ok.inj (derived.symm.trans derived')
  have hh := length_of_generators G derived
  obtain ⟨t, committed, -⟩ := drawNonces_returns_iff.1 drawn
  obtain ⟨w, size, rfl⟩ := drawNonces_returns drawn
  have committed' : commitTo G threads (generatorsOf G base hs) permutation (w.commit.map G.scalar)
      = .ok proof.commitment := commitTo_of_proveWith made
  constructor
  · intro value
    rw [value] at committed'
    rw [← (commitTo_eq_ok_iff hp hh hv threads base size.commit).1 committed']
    exact ⟨t, committed⟩
  · rintro ⟨t', drawn'⟩
    have same := (committed.unique drawn').1
    rw [(commitTo_eq_ok_iff hp hh hv threads base size.commit).2
      (List.map_injective_iff.2 G.scalar_injective same)] at committed'
    exact (Except.ok.inj committed').symm

end Runs

/-! ## Tapes -/

/-- The tapes that hold enough for the draws of a prover after those for the commitment. -/
def holdingOthers (G : Group) (n : ℕ) : Set Bytes :=
  {bytes | ∃ (nonces : Nonces) (s : Tape),
    (drawOthers G n).Returns ⟨bytes⟩ { nonces with commit := [] } s}

theorem holdingOthers_nonempty (G : Group) [G.Accepted] (n : ℕ) : (holdingOthers G n).Nonempty := by
  have one (rest : Bytes) : ∃ bytes, G.randomExponent.Returns (⟨bytes⟩ : Tape) (G.scalar 1) ⟨rest⟩ := by
    obtain ⟨front, drawn⟩ := G.exists_randomExponent_returns one_ne_zero rest
    exact ⟨front ++ rest, drawn⟩
  let ones : List (ZMod G.q) := List.replicate n 1
  have list (rest : Bytes) : ∃ bytes,
      (G.randomExponents n).Returns (⟨bytes⟩ : Tape) (ones.map G.scalar) ⟨rest⟩ := by
    have nonzero : ∀ a ∈ ones, a ≠ 0 := fun a ha => by
      rw [List.eq_of_mem_replicate ha]
      exact one_ne_zero
    simpa [ones] using G.exists_randomExponents_returns nonzero rest
  obtain ⟨bytes₇, wTilde⟩ := list []
  obtain ⟨bytes₆, wHat⟩ := list bytes₇
  obtain ⟨bytes₅, w4⟩ := one bytes₆
  obtain ⟨bytes₄, w3⟩ := one bytes₅
  obtain ⟨bytes₃, w2⟩ := one bytes₄
  obtain ⟨bytes₂, w1⟩ := one bytes₃
  obtain ⟨bytes₁, link⟩ := list bytes₂
  refine ⟨bytes₁, noncesOf G ⟨[], ones, 1, 1, 1, 1, ones, ones⟩, ⟨[]⟩, ?_⟩
  simp only [drawOthers, returns_bind_iff, returns_pure_iff]
  exact ⟨_, _, link, _, _, w1, _, _, w2, _, _, w3, _, _, w4, _, _, wHat, _, _, wTilde, rfl, rfl⟩

/-- What a prover is given for `n` ciphertexts: members, a permutation and claimed nonces. -/
structure Task (G : Group) (n : ℕ) where
  h : ℤ
  inputs : List Pair
  outputs : List Pair
  permutation : List ℕ
  randomizers : List ℤ
  threads : ℕ
  key : G.isMember (some h) = true
  input_members : ∀ c ∈ inputs, G.isMember (some c.c1) = true ∧ G.isMember (some c.c2) = true
  output_members : ∀ c ∈ outputs, G.isMember (some c.c1) = true ∧ G.isMember (some c.c2) = true
  length_inputs : inputs.length = n
  length_outputs : outputs.length = n
  length_randomizers : randomizers.length = n
  perm : permutation.Perm (List.range n)

namespace Task

variable {n : ℕ} (task : Task G n) {domain : Bytes}

omit accepted in
/-- The prover at work on the task. -/
def prove {σ : Type} [Source σ] (domain : Bytes) : Draw σ CompleteProof :=
  Shuffle.prove G ⟨some task.h⟩ (task.inputs.map Pair.toCiphertext)
    (task.outputs.map Pair.toCiphertext) task.permutation task.randomizers ⟨domain, task.threads⟩

/-- A tape that gives exponents for the commitment and holds enough for the other draws gives a
proof. -/
theorem prove_returns (hn : n ≠ 0) {gens : Generators} (derived : generators G domain n = .ok gens)
    {exponents : List ℤ} {tape : Tape} {rest : Bytes}
    (drawn : (G.randomExponents n).Returns tape exponents ⟨rest⟩) (others : rest ∈ holdingOthers G n) :
    ∃ proof s, (task.prove domain).Returns tape proof s := by
  obtain ⟨nonces, s, others⟩ := others
  have all : (drawNonces G n).Returns tape { nonces with commit := exponents } s :=
    drawNonces_returns_iff.2 ⟨_, drawn, others⟩
  obtain ⟨h, ins, outs, permutation, randomizers, threads, key, inMembers, outMembers, rfl, same, hr,
    hp⟩ := task
  obtain ⟨y, rfl⟩ := G.exists_element key
  obtain ⟨cs, rfl⟩ := G.exists_pairOf_list inMembers
  obtain ⟨ds, rfl⟩ := G.exists_pairOf_list outMembers
  simp only [prove, G.map_toCiphertext_pairOf]
  rw [List.length_map] at hn derived all same hr hp
  rw [List.length_map] at same
  obtain ⟨proof, run⟩ := exists_prove hn same hp hr all derived
  exact ⟨proof, s, run⟩

/-- The exponents make the prover commit to the members: it runs to its end from some tape from which
they are drawn, and every run that draws them makes a proof with this commitment. -/
def CommitsWith (domain : Bytes) (exponents commitment : List ℤ) : Prop :=
  (∃ (tape t s : Tape) (proof : CompleteProof),
    (G.randomExponents n).Returns tape exponents t ∧ (task.prove domain).Returns tape proof s) ∧
  ∀ {σ : Type} [Source σ] (s t s' : σ) (proof : CompleteProof),
    (G.randomExponents n).Returns s exponents t → (task.prove domain).Returns s proof s' →
      proof.commitment = commitment

section Commitment

variable {base : ZMod G.q} {hs : List (ZMod G.q)}
  (derived : generators G domain n = .ok (generatorsOf G base hs)) {vs : List (ZMod G.q)}
  (hv : vs.length = n)
include derived hv

/-- The commitment is to the members if the one list of exponents is drawn, and only then. -/
theorem commitment_eq_iff {σ : Type} [Source σ] {s s' : σ} {proof : CompleteProof}
    (run : (task.prove domain).Returns s proof s') :
    proof.commitment = vs.map G.element ↔ ∃ t, (G.randomExponents n).Returns s
      ((blinding task.permutation hs vs).map G.scalar) t :=
  Shuffle.commitment_eq_iff (by rw [List.length_map, task.length_inputs]) task.perm derived hv run

/-- The tapes that give the commitment give its exponents and hold enough for the other draws. -/
theorem giving_commitment (hn : n ≠ 0) (length : ℕ) :
    Tape.giving (do pure (← task.prove domain).commitment) (vs.map G.element) length =
      G.drawingExponents (blinding task.permutation hs vs) (holdingOthers G n) ∩ strings length := by
  have size := length_blinding task.perm (length_of_generators G derived) vs
  ext bytes
  rw [Set.inter_comm]
  refine and_congr_right fun _ => ?_
  rw [Group.drawingExponents, size]
  simp only [returns_bind_iff, returns_pure_iff]
  constructor
  · rintro ⟨s, proof, _, run, value, -⟩
    obtain ⟨t, drawn⟩ := (task.commitment_eq_iff derived hv run).1 value
    obtain ⟨-, -, _, nonces, -, all, -⟩ := prove_returns_iff.1 run
    rw [List.length_map, task.length_inputs] at all
    obtain ⟨t', committed, others⟩ := drawNonces_returns_iff.1 all
    obtain ⟨-, rfl⟩ := drawn.unique committed
    exact ⟨t.bytes, ⟨nonces, _, others⟩, drawn⟩
  · rintro ⟨rest, others, drawn⟩
    obtain ⟨proof, s, run⟩ := task.prove_returns hn derived drawn others
    exact ⟨s, proof, s, run, (task.commitment_eq_iff derived hv run).2 ⟨_, drawn⟩, rfl⟩

/-- Of all lists of exponents that a prover could draw, one makes it commit to the members. -/
theorem commitsWith_iff (hn : n ≠ 0) (nonzero : ∀ a ∈ blinding task.permutation hs vs, a ≠ 0)
    {exponents : List ℤ} : task.CommitsWith domain exponents (vs.map G.element) ↔
      exponents = (blinding task.permutation hs vs).map G.scalar := by
  constructor
  · rintro ⟨⟨tape, t, s, proof, drawn, run⟩, all⟩
    have value := all tape t s proof drawn run
    obtain ⟨t', drawn'⟩ := (task.commitment_eq_iff derived hv run).1 value
    exact (drawn.unique drawn').1
  · rintro rfl
    constructor
    · obtain ⟨rest, others⟩ := holdingOthers_nonempty G n
      obtain ⟨bytes, drawn⟩ := G.exists_randomExponents_returns nonzero rest
      rw [length_blinding task.perm (length_of_generators G derived)] at drawn
      obtain ⟨proof, s, run⟩ := task.prove_returns hn derived drawn others
      exact ⟨_, _, s, proof, drawn, run⟩
    · intro σ _ s t s' proof drawn run
      exact (task.commitment_eq_iff derived hv run).2 ⟨t, drawn⟩

end Commitment

end Task

/-- The commitment to a permutation does not tell it.  For generators that are derived and as many
members, none of them one of the generators for the places, and for whatever permutation the prover is
given, there is exactly one list of exponents in `[1, q - 1]` with which it commits to these members.
So for every two permutations the commitment comes from equally many tapes of any length. -/
theorem commitment_hides {n : ℕ} (hn : n ≠ 0) {domain : Bytes} {gens : Generators}
    (derived : generators G domain n = .ok gens) {commitment : List ℤ}
    (length : commitment.length = n) (members : ∀ c ∈ commitment, G.isMember (some c) = true)
    (apart : ∀ c ∈ commitment, c ∉ gens.h) :
    (∀ task : Task G n, ∃! exponents : List ℤ,
      (exponents.length = n ∧ ∀ r ∈ exponents, 1 ≤ r ∧ r ≤ G.q - 1) ∧
        task.CommitsWith domain exponents commitment) ∧
    ∀ (task task' : Task G n) (size : ℕ),
      (Tape.giving (do pure (← task.prove domain).commitment) commitment size).ncard =
        (Tape.giving (do pure (← task'.prove domain).commitment) commitment size).ncard := by
  obtain ⟨base, hs, rfl, hh⟩ := generators_returns G derived
  obtain ⟨vs, rfl⟩ := G.exists_elements members
  rw [List.length_map] at length
  have distinct : ∀ v ∈ vs, v ∉ hs := fun v hv h =>
    apart _ (List.mem_map_of_mem hv) (List.mem_map_of_mem h)
  have nonzero (task : Task G n) : ∀ a ∈ blinding task.permutation hs vs, a ≠ 0 := fun a ha =>
    ne_zero_of_mem_blinding task.perm length distinct ha
  have count (task : Task G n) : (blinding task.permutation hs vs).length = n :=
    length_blinding task.perm hh vs
  constructor
  · intro task
    refine ⟨(blinding task.permutation hs vs).map G.scalar, ⟨⟨?_, fun r hr => ?_⟩, ?_⟩,
      fun exponents h => ?_⟩
    · rw [List.length_map, count]
    · obtain ⟨a, ha, rfl⟩ := List.mem_map.1 hr
      have positive := G.scalar_pos (nonzero task a ha)
      have small := (G.scalar_bounds a).2
      omega
    · exact (task.commitsWith_iff derived length hn (nonzero task)).2 rfl
    · exact (task.commitsWith_iff derived length hn (nonzero task)).1 h.2
  · intro task task' size
    rw [task.giving_commitment derived length hn, task'.giving_commitment derived length hn]
    exact G.ncard_drawingExponents (by rw [count, count]) (nonzero task) (nonzero task') _ _

/-- Two ciphertexts, to be permuted as told. -/
def twoCiphertexts (permutation : List ℕ) (perm : permutation.Perm (List.range 2)) :
    Task Group.least 2 where
  h := 4
  inputs := [⟨4, 16⟩, ⟨16, 64⟩]
  outputs := [⟨16, 4⟩, ⟨64, 16⟩]
  permutation := permutation
  randomizers := [5, 7]
  threads := 1
  key := Group.least.isMember_generator
  input_members := by decide +kernel
  output_members := by decide +kernel
  length_inputs := rfl
  length_outputs := rfl
  length_randomizers := rfl
  perm := perm

/-- The members 4 and 16 as the commitment to either permutation of two. -/
theorem commitment_hides_least :
    Group.least.Accepted ∧
      generators Group.least [] 2 = .ok ⟨1130500430, [2034559821, 915644381]⟩ ∧
      (∃! exponents : List ℤ,
        (exponents.length = 2 ∧ ∀ r ∈ exponents, 1 ≤ r ∧ r ≤ Group.least.q - 1) ∧
          (twoCiphertexts [1, 0] (by decide)).CommitsWith [] exponents [4, 16]) ∧
      (Tape.giving (do pure (← (twoCiphertexts [1, 0] (by decide)).prove []).commitment)
          [4, 16] 100).ncard =
        (Tape.giving (do pure (← (twoCiphertexts [0, 1] (by decide)).prove []).commitment)
          [4, 16] 100).ncard := by
  have derived : generators Group.least [] 2 = .ok ⟨1130500430, [2034559821, 915644381]⟩ := by
    decide +kernel
  obtain ⟨unique, equal⟩ := commitment_hides (G := Group.least) two_ne_zero derived
    (show [4, 16].length = 2 from rfl) (by decide +kernel) (by decide)
  exact ⟨inferInstance, derived, unique _, equal _ _ 100⟩

end Shuffle

end BallotMix
