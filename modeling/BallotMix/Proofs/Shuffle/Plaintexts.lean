import BallotMix.Proofs.Formed
import BallotMix.Proofs.Group.Accepted
import BallotMix.Proofs.Shuffle.Chain
import BallotMix.Proofs.Shuffle.Schedules
import Mathlib

/-!
# Plaintexts through shuffles

Whatever is shuffled, honest encryptions or any pairs of members, the holder of the secret key
decrypts the list after a row of shuffles to what the list before it decrypts to, in another order
(`shuffles_keep_plaintexts`).  Each mix of the row has a source, a number of threads and an order of
its threads of its own.
-/

namespace BallotMix.Shuffle

open Workers

/-- The mix can be the shuffle of the inputs, by workers in some order. -/
def Mix.ShuffledBySome (G : Group) (pk : PublicKey) (inputs : List Ciphertext) (mix : Mix) : Prop :=
  ∃ scheduler : Scheduler,
    Draw.Yields (fun _ [Source _] => @shuffle scheduler _ _ G pk inputs mix.options)
      (mix.outputs, mix.proof)

theorem Mix.Along.imp {r r' : List Ciphertext → Mix → Prop}
    (h : ∀ inputs mix, r inputs mix → r' inputs mix) {inputs : List Ciphertext} {mixes : List Mix}
    (along : Mix.Along r inputs mixes) : Mix.Along r' inputs mixes := by
  induction mixes generalizing inputs with
  | nil => trivial
  | cons mix mixes ih => exact ⟨h _ _ along.1, ih along.2⟩

/-- The order of the workers is not seen in a mix. -/
theorem Mix.ShuffledBySome.shuffled {G : Group} {pk : PublicKey} {inputs : List Ciphertext}
    {mix : Mix} (h : mix.ShuffledBySome G pk inputs) : mix.Shuffled G pk inputs := by
  obtain ⟨scheduler, σ, _, s, s', run⟩ := h
  dsimp only at run
  rw [shuffle_eq_serial] at run
  refine ⟨σ, inferInstance, s, s', ?_⟩
  dsimp only
  rw [shuffle_eq_serial]
  exact run

variable {G : Group} [accepted : G.Accepted]

/-- A row of shuffles hands over as many ciphertexts as it was given, and they decrypt to the same
plaintexts in another order. -/
theorem shuffles_keep_plaintexts {x h : ℤ} (range : 0 < x ∧ x < G.q) (key : G.genPow x = .ok h)
    {inputs : List Ciphertext} (members : G.MemberPairs inputs) {mixes : List Mix}
    (along : Mix.Along (Mix.ShuffledBySome G ⟨some h⟩) inputs mixes) :
    ∃ before after, inputs.mapM (G.decrypt ⟨some x⟩) = .ok before ∧
      (Mix.final inputs mixes).mapM (G.decrypt ⟨some x⟩) = .ok after ∧
      after.Perm before ∧ (Mix.final inputs mixes).length = inputs.length := by
  obtain ⟨y, -, rfl⟩ := G.exists_nonzero_scalar range
  obtain rfl : G.element y = h := Except.ok.inj ((G.genPow_scalar y).symm.trans key)
  obtain ⟨cs, rfl⟩ := G.exists_cipherOf_list fun ct hct => by
    simpa [Group.Members] using members ct hct
  have shuffled := along.imp fun _ _ => Mix.ShuffledBySome.shuffled
  obtain ⟨-, outputs, final, kept⟩ := shuffled_plainLogs shuffled
  rw [final, G.mapM_decrypt, G.mapM_decrypt, G.cast_scalar]
  refine ⟨_, _, rfl, rfl, kept.map G.element, ?_⟩
  rw [List.length_map, List.length_map]
  simpa using kept.length_eq

/-- Two mixes of two pairs, on two threads in turn and on three of which the last goes first; the
second mix exchanges the pairs. -/
theorem shuffles_keep_plaintexts_least :
    let inputs : List Ciphertext := [⟨some 4, some 16⟩, ⟨some 64, some 4⟩]
    let first : Mix := ⟨⟨[], 2⟩, [⟨1561723972, 1221897338⟩, ⟨1365261939, 1379216226⟩],
      ⟨783947923, 486102045, 851527798, 704550391, 704550391, [788343473, 788343473],
        [912937530, 629990197], [2121465035, 962802720], [1431002807, 643471949]⟩⟩
    let second : Mix := ⟨⟨[7], 3⟩, [⟨1418545948, 1661136005⟩, ⟨1699271959, 202092671⟩],
      ⟨442831141, 5016527, 325335973, 173522391, 173522391, [36194282, 36194282],
        [554490031, 435311782], [2126136629, 2130196044], [580528517, 237869992]⟩⟩
    Group.least.genPow 5 = .ok 1024 ∧ Group.least.MemberPairs inputs ∧
    Mix.Along (Mix.ShuffledBySome Group.least ⟨some 1024⟩) inputs [first, second] ∧
    inputs.mapM (Group.least.decrypt ⟨some 5⟩) = .ok [301989907, 1924781761] ∧
    ∃ after, second.ciphertexts.mapM (Group.least.decrypt ⟨some 5⟩) = .ok after ∧
      after.Perm [301989907, 1924781761] := by
  intro inputs first second
  have key : Group.least.genPow 5 = .ok 1024 := by decide +kernel
  have members : Group.least.MemberPairs inputs := by
    unfold Group.MemberPairs Group.Members
    decide +kernel
  have once : (shuffle Group.least ⟨some 1024⟩ inputs ⟨[], 2⟩).Returns
      (⟨List.replicate 57 1⟩ : Tape) (first.outputs, first.proof) ⟨[]⟩ := by
    show (_ : Result (List Pair × CompleteProof) × Tape) = _
    decide +kernel
  have again : (shuffle Group.least ⟨some 1024⟩ first.ciphertexts ⟨[7], 1⟩).Returns
      (⟨List.replicate 57 4⟩ : Tape) (second.outputs, second.proof) ⟨[]⟩ := by
    show (_ : Result (List Pair × CompleteProof) × Tape) = _
    decide +kernel
  have along : Mix.Along (Mix.ShuffledBySome Group.least ⟨some 1024⟩) inputs [first, second] := by
    refine ⟨⟨.turns, Tape, inferInstance, _, _, once⟩,
      ⟨⟨fun _ count => List.replicate 9 (count - 1)⟩, Tape, inferInstance, ⟨List.replicate 57 4⟩,
        ⟨[]⟩, ?_⟩, trivial⟩
    dsimp only
    rw [shuffle_eq_serial]
    exact again
  have before : inputs.mapM (Group.least.decrypt ⟨some 5⟩) = .ok [301989907, 1924781761] := by
    decide +kernel
  obtain ⟨ms, after, opened, opened', kept, -⟩ :=
    shuffles_keep_plaintexts ⟨by decide, by decide⟩ key members along
  obtain rfl : ms = _ := Except.ok.inj (opened.symm.trans before)
  exact ⟨key, members, along, before, after, opened', kept⟩

end BallotMix.Shuffle
