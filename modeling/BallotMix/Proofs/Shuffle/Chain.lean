import BallotMix.Proofs.Shuffle.Completeness
import Mathlib

/-!
# Shuffles in a row

The list that one shuffle gives is the input of the next.  Every shuffle of the row is accepted, and
the plaintexts at the end of the row are those at its beginning, in another order
(`shuffled_plainLogs`).
-/

namespace BallotMix.Shuffle

open Permutation

/-- One of several shuffles in a row. -/
structure Mix where
  options : Options
  outputs : List Pair
  proof : CompleteProof

namespace Mix

/-- The list that the mix hands over. -/
def ciphertexts (mix : Mix) : List Ciphertext := mix.outputs.map Pair.toCiphertext

/-- The list after the mixes. -/
def final : List Ciphertext → List Mix → List Ciphertext
  | inputs, [] => inputs
  | _, mix :: mixes => final mix.ciphertexts mixes

/-- Every mix of the row is in the relation to its inputs. -/
def Along (r : List Ciphertext → Mix → Prop) : List Ciphertext → List Mix → Prop
  | _, [] => True
  | inputs, mix :: mixes => r inputs mix ∧ Along r mix.ciphertexts mixes

/-- The mix can be the shuffle of the inputs. -/
def Shuffled (G : Group) (pk : PublicKey) (inputs : List Ciphertext) (mix : Mix) : Prop :=
  Draw.Yields (fun _ [Source _] => shuffle G pk inputs mix.options) (mix.outputs, mix.proof)

/-- The mix passes for a shuffle of the inputs, whatever the verifier's number of workers. -/
def Passes (G : Group) (pk : PublicKey) (inputs : List Ciphertext) (mix : Mix) : Prop :=
  ∀ threads, verify G pk inputs mix.ciphertexts mix.proof.toProof ⟨mix.options.domain, threads⟩
    = .ok true

end Mix

/-- A shuffle keeps the plaintexts. -/
theorem plainLogs_shuffleLogs {q : ℕ} (y : ZMod q) {inputs : List (ZMod q × ZMod q)}
    {permutation : List ℕ} {rs : List (ZMod q)}
    (hp : permutation.Perm (List.range inputs.length)) (hr : rs.length = inputs.length) :
    ((shuffleLogs y inputs permutation rs).map (Group.plainLog y)).Perm
      (inputs.map (Group.plainLog y)) := by
  have kept : (shuffleLogs y inputs permutation rs).map (Group.plainLog y)
      = (gather permutation inputs).map (Group.plainLog y) := by
    have size : (gather permutation inputs).length ≤ rs.length := by
      rw [length_gather, length_of_perm_range hp, hr]
    rw [shuffleLogs, List.map_zipWith]
    simp only [Group.plainLog_add_blind]
    rw [← List.map_uncurry_zip_eq_zipWith]
    show ((gather permutation inputs).zip rs).map (Group.plainLog y ∘ Prod.fst) = _
    rw [← List.map_map, List.map_fst_zip size]
  rw [kept]
  exact (gather_perm hp rfl).map _

variable {G : Group} [accepted : G.Accepted]

/-- The mixes of a row of shuffles pass, and the last list has the plaintexts of the first. -/
theorem shuffled_plainLogs {y : ZMod G.q} {mixes : List Mix} {inputs : List (ZMod G.q × ZMod G.q)}
    (h : Mix.Along (Mix.Shuffled G ⟨some (G.element y)⟩) (inputs.map G.cipherOf) mixes) :
    Mix.Along (Mix.Passes G ⟨some (G.element y)⟩) (inputs.map G.cipherOf) mixes ∧
      ∃ outputs : List (ZMod G.q × ZMod G.q),
        Mix.final (inputs.map G.cipherOf) mixes = outputs.map G.cipherOf ∧
        (outputs.map (Group.plainLog y)).Perm (inputs.map (Group.plainLog y)) := by
  induction mixes generalizing inputs with
  | nil => exact ⟨trivial, inputs, rfl, List.Perm.refl _⟩
  | cons mix mixes ih =>
    obtain ⟨⟨σ, _, s, s', run⟩, rest⟩ := h
    obtain ⟨permutation, rs, hp, hr, outputs, accept⟩ := shuffle_returns run
    have handed : mix.ciphertexts = (shuffleLogs y inputs permutation rs).map G.cipherOf := by
      rw [Mix.ciphertexts, outputs, G.map_toCiphertext_pairOf]
    rw [handed] at rest
    obtain ⟨pass, last, final, kept⟩ := ih rest
    rw [← handed] at pass
    refine ⟨⟨accept, pass⟩, last, ?_, kept.trans (plainLogs_shuffleLogs y hp hr)⟩
    rw [Mix.final, handed, final]

end BallotMix.Shuffle
