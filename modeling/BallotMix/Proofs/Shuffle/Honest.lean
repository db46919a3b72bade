import BallotMix.Proofs.Entropy.Permutation
import BallotMix.Proofs.Shuffle.Exponents
import BallotMix.Shuffle.Prove
import Mathlib

/-!
# Honest proofs by exponents

What the prover computes, by exponents: the commitment is the scattered sum of its nonces and the
exponents of the generators, the chain is `chainLogs`, the answers are `w - c x`.  The verifier's
equations give back what was announced but for the two that are about the ciphertexts, which are off
by the challenge times the difference between the outputs the witness claims and the outputs
(`recomputeLogs_claimed`).  The sums over inputs are sums over outputs along the permutation, and the
last link of the chain is a sum of the nonces weighted with the products of the later scalars
(`getLastD_chainLogs`).
-/

namespace BallotMix.Shuffle

open Permutation

variable {q : ℕ}

/-! ## The prover's exponents -/

/-- The randomness of a proof by exponents. -/
structure NonceLogs (q : ℕ) where
  commit : List (ZMod q)
  link : List (ZMod q)
  w1 : ZMod q
  w2 : ZMod q
  w3 : ZMod q
  w4 : ZMod q
  wHat : List (ZMod q)
  wTilde : List (ZMod q)

/-- Whether every list has `n` entries. -/
structure NonceLogs.HasSize (w : NonceLogs q) (n : ℕ) : Prop where
  commit : w.commit.length = n
  link : w.link.length = n
  wHat : w.wHat.length = n
  wTilde : w.wTilde.length = n

/-- The chain from an exponent on. -/
def chainLogs : ZMod q → List (ZMod q × ZMod q) → List (ZMod q)
  | _, [] => []
  | previous, (blinding, exponent) :: rest =>
    (blinding + previous * exponent) :: chainLogs (blinding + previous * exponent) rest

/-- For each place the product of the entries at all later places. -/
def suffixLogs : List (ZMod q) → List (ZMod q)
  | [] => []
  | _ :: us => us.prod :: suffixLogs us

/-- The announcement of an honest proof. -/
def announceLogs (x : StatementLogs q) (chain : List (ZMod q)) (w : NonceLogs q) :
    AnnouncementLogs q where
  t1 := w.w1
  t2 := w.w2
  t3 := w.w3 + dot x.h w.wTilde
  t41 := -w.w4 + dot (x.outputs.map Prod.fst) w.wTilde
  t42 := x.key * -w.w4 + dot (x.outputs.map Prod.snd) w.wTilde
  tHat := ((previousLogs x.base chain).zip (w.wHat.zip w.wTilde)).map fun l => l.2.1 + l.1 * l.2.2

/-- The outputs of a shuffle by exponents. -/
def shuffleLogs (key : ZMod q) (inputs : List (ZMod q × ZMod q)) (permutation : List ℕ)
    (randomizers : List (ZMod q)) : List (ZMod q × ZMod q) :=
  List.zipWith (fun c r => c + Group.blind key r) (gather permutation inputs) randomizers

/-- The proof that a prover makes with its nonces under a challenge. -/
def honestLogs (x : StatementLogs q) (permutation : List ℕ) (randomizers : List (ZMod q))
    (w : NonceLogs q) (c : ZMod q) : ProofLogs q where
  challenge := c
  s1 := w.w1 - c * (scatter permutation w.commit).sum
  s2 := w.w2 - c * dot w.link (suffixLogs (gather permutation x.u))
  s3 := w.w3 - c * dot (scatter permutation w.commit) x.u
  s4 := w.w4 - c * dot randomizers (gather permutation x.u)
  sHat := List.zipWith (fun w x => w - c * x) w.wHat w.link
  sTilde := List.zipWith (fun w x => w - c * x) w.wTilde (gather permutation x.u)
  commitment := scatter permutation (List.zipWith (· + ·) w.commit x.h)
  chain := chainLogs x.base (w.link.zip (gather permutation x.u))

/-! ## The chain -/

@[simp]
theorem length_chainLogs (base : ZMod q) (steps : List (ZMod q × ZMod q)) :
    (chainLogs base steps).length = steps.length := by
  induction steps generalizing base with
  | nil => rfl
  | cons step steps ih => rw [chainLogs, List.length_cons, ih, List.length_cons]

/-- The last link of a chain. -/
theorem getLastD_chainLogs {links us : List (ZMod q)} (h : links.length = us.length)
    (base : ZMod q) :
    (chainLogs base (links.zip us)).getLastD base = dot links (suffixLogs us) + base * us.prod := by
  induction links generalizing us base with
  | nil => simp [List.length_eq_zero_iff.1 h.symm, chainLogs]
  | cons l links ih =>
    cases us with
    | nil => cases h
    | cons u us =>
      have rest : links.length = us.length := by simpa using h
      have last := ih rest (l + base * u)
      rw [List.zip_cons_cons, chainLogs, List.getLastD_cons, last, suffixLogs, dot_cons,
        List.prod_cons]
      ring

/-- The recomputed links are the announced ones. -/
theorem map_links (base c : ZMod q) {links us ws vs : List (ZMod q)}
    (hu : us.length = links.length) (hw : ws.length = links.length)
    (hv : vs.length = links.length) :
    ((previousLogs base (chainLogs base (links.zip us))).zip
        ((chainLogs base (links.zip us)).zip
          ((List.zipWith (fun w x => w - c * x) ws links).zip
            (List.zipWith (fun w x => w - c * x) vs us)))).map
        (fun l => l.2.1 * c + l.2.2.1 + l.1 * l.2.2.2)
      = ((previousLogs base (chainLogs base (links.zip us))).zip (ws.zip vs)).map
          fun l => l.2.1 + l.1 * l.2.2 := by
  rw [zip_previousLogs (by simp [hu, hw, hv]), zip_previousLogs (by simp [hu, hw, hv])]
  induction links generalizing base us ws vs with
  | nil => simp [List.length_eq_zero_iff.1 hu, List.length_eq_zero_iff.1 hw]
  | cons l links ih =>
    match us, ws, vs, hu, hw, hv with
    | u :: us, w :: ws, v :: vs, hu, hw, hv =>
      have hu : us.length = links.length := by simpa using hu
      have hw : ws.length = links.length := by simpa using hw
      have hv : vs.length = links.length := by simpa using hv
      have rest := ih (l + base * u) hu hw hv
      rw [List.zip_cons_cons, chainLogs, List.zipWith_cons_cons, List.zipWith_cons_cons,
        List.zip_cons_cons, List.zip_cons_cons, List.zip_cons_cons, List.map_cons, rest,
        List.zip_cons_cons, List.zip_cons_cons, List.map_cons]
      congr 1
      ring

/-! ## The equations -/

section Sums

variable {n : ℕ} {permutation : List ℕ} (hp : permutation.Perm (List.range n))
include hp

theorem length_of_perm_range : permutation.length = n := hp.length_eq.trans List.length_range

/-- The commitment without its generators. -/
theorem sum_commitment {commit h : List (ZMod q)} (hc : commit.length = n) (hh : h.length = n) :
    (scatter permutation (List.zipWith (· + ·) commit h)).sum - h.sum
      = (scatter permutation commit).sum := by
  rw [(scatter_perm hp (by simp [hc, hh])).sum_eq, (scatter_perm hp hc).sum_eq,
    ← List.sum_add_sum_eq_sum_zipWith_of_length_eq _ _ (hc.trans hh.symm), add_sub_cancel_right]

/-- The commitment weighted with the scalars of the inputs. -/
theorem dot_commitment {commit h u : List (ZMod q)} (hc : commit.length = n) (hh : h.length = n)
    (hu : u.length = n) :
    dot (scatter permutation (List.zipWith (· + ·) commit h)) u
      = dot (scatter permutation commit) u + dot h (gather permutation u) := by
  rw [dot_scatter hp (by simp [hc, hh]) hu, dot_scatter hp hc hu, dot_add_left (hc.trans hh.symm)]

variable {inputs : List (ZMod q × ZMod q)} {randomizers : List (ZMod q)} (key : ZMod q)
  (hi : inputs.length = n) (hr : randomizers.length = n)
include hi hr

/-- The first components of the outputs in a weighted sum. -/
theorem dot_outputs_fst (bs : List (ZMod q)) :
    dot ((shuffleLogs key inputs permutation randomizers).map Prod.fst) bs
      = dot (gather permutation (inputs.map Prod.fst)) bs + dot randomizers bs := by
  have split : (shuffleLogs key inputs permutation randomizers).map Prod.fst
      = List.zipWith (· + ·) ((gather permutation inputs).map Prod.fst) randomizers := by
    rw [shuffleLogs, List.map_zipWith, List.zipWith_map_left]
    rfl
  rw [split, dot_add_left (by simp [length_of_perm_range hp, hr]), gather_map hp hi]

/-- The second components of the outputs in a weighted sum. -/
theorem dot_outputs_snd (bs : List (ZMod q)) :
    dot ((shuffleLogs key inputs permutation randomizers).map Prod.snd) bs
      = dot (gather permutation (inputs.map Prod.snd)) bs + key * dot randomizers bs := by
  have split : (shuffleLogs key inputs permutation randomizers).map Prod.snd
      = List.zipWith (· + ·) ((gather permutation inputs).map Prod.snd)
          (randomizers.map (key * ·)) := by
    rw [shuffleLogs, List.map_zipWith, List.zipWith_map_left, List.zipWith_map_right]
    rfl
  rw [split, dot_add_left (by simp [length_of_perm_range hp, hr]), gather_map hp hi, dot_mul_left]

end Sums

/-- The weighted sums of the outputs that a witness claims, less those of the outputs. -/
def excessLogs (x : StatementLogs q) (permutation : List ℕ) (randomizers : List (ZMod q)) :
    ZMod q × ZMod q :=
  let claimed := shuffleLogs x.key x.inputs permutation randomizers
  let weights := gather permutation x.u
  (dot (claimed.map Prod.fst) weights - dot (x.outputs.map Prod.fst) weights,
    dot (claimed.map Prod.snd) weights - dot (x.outputs.map Prod.snd) weights)

theorem excessLogs_eq_zero {x : StatementLogs q} {permutation : List ℕ}
    {randomizers : List (ZMod q)}
    (ho : x.outputs = shuffleLogs x.key x.inputs permutation randomizers) :
    excessLogs x permutation randomizers = 0 := by
  simp [excessLogs, ho]

/-- The announcement with the two numbers about ciphertexts moved. -/
def AnnouncementLogs.shift (t : AnnouncementLogs q) (e : ZMod q × ZMod q) : AnnouncementLogs q :=
  { t with t41 := t.t41 + e.1, t42 := t.t42 + e.2 }

@[simp]
theorem AnnouncementLogs.shift_zero (t : AnnouncementLogs q) : t.shift 0 = t := by
  simp [shift]

/-- The verifier's equations give back what a prover announced, with any witness, but for the excess of
the outputs it claims. -/
theorem recomputeLogs_claimed {n : ℕ} (x : StatementLogs q) {permutation : List ℕ}
    {randomizers : List (ZMod q)} {w : NonceLogs q} (c : ZMod q)
    (hp : permutation.Perm (List.range n)) (size : w.HasSize n) (positive : n ≠ 0)
    (hh : x.h.length = n) (hu : x.u.length = n) (hi : x.inputs.length = n)
    (hr : randomizers.length = n) :
    recomputeLogs x (honestLogs x permutation randomizers w c)
      = (announceLogs x (honestLogs x permutation randomizers w c).chain w).shift
          (c • excessLogs x permutation randomizers) := by
  have hũ : (gather permutation x.u).length = n := by simp [length_of_perm_range hp]
  have answers (as : List (ZMod q)) := dot_answers as c (size.wTilde.trans hũ.symm)
  have sums := dot_gather hp ((List.length_map Prod.fst).trans hi) hu
  have sums' := dot_gather hp ((List.length_map Prod.snd).trans hi) hu
  simp only [recomputeLogs, announceLogs, honestLogs, AnnouncementLogs.shift, excessLogs,
    Prod.smul_mk, smul_eq_mul, AnnouncementLogs.mk.injEq]
  refine ⟨?t1, ?t2, ?t3, ?t41, ?t42, ?tHat⟩
  case t1 =>
    rw [sum_commitment hp size.commit hh]
    ring
  case t2 =>
    have last := getLastD_chainLogs (size.link.trans hũ.symm) x.base
    have nonempty : chainLogs x.base (w.link.zip (gather permutation x.u)) ≠ [] := by
      rw [← List.length_pos_iff, length_chainLogs, List.length_zip, size.link, hũ]
      omega
    rw [List.getLastD_eq_getLast?, List.getLast?_eq_some_getLast nonempty] at last ⊢
    rw [Option.getD_some] at last ⊢
    rw [last, (gather_perm hp hu).prod_eq]
    ring
  case t3 =>
    rw [dot_commitment hp size.commit hh hu, answers]
    ring
  case t41 =>
    rw [answers, dot_outputs_fst hp x.key hi hr, sums]
    ring
  case t42 =>
    rw [answers, dot_outputs_snd hp x.key hi hr, sums']
    ring
  case tHat =>
    exact map_links x.base c (hũ.trans size.link.symm) (size.wHat.trans size.link.symm)
      (size.wTilde.trans size.link.symm)

end BallotMix.Shuffle
