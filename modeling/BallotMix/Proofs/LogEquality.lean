import BallotMix.Proof.LogEquality
import BallotMix.Proofs.Entropy.Draws
import BallotMix.Proofs.Transcript
import Mathlib

/-!
# Proofs of equal logarithms by exponents

Every place of a statement has a base, an image and a commitment; a `Row` holds their exponents.  On
members the verifier checks `b s = a + y c` row by row (`verify_rows`), so a verification never fails,
whatever it is given (`exists_verify`), and what it accepts has rows (`exists_accepts`).

The prover answers with `w + c x`, whatever the images are (`proveWith_logs`).  Its proof is accepted
if every image has the exponent `x` to its base, and for other images only under the challenge zero
(`verify_answer`, and `verify_iff_of_prove` for what a prover returns).
-/

namespace BallotMix.LogEquality

/-- The exponents of a base, of its image and of the commitment to it. -/
@[ext]
structure Row (q : ℕ) where
  base : ZMod q
  image : ZMod q
  commitment : ZMod q

/-- What the verifier checks at a place. -/
def Row.Holds {q : ℕ} (c s : ZMod q) (e : Row q) : Prop := e.base * s = e.commitment + e.image * c

instance {q : ℕ} (c s : ZMod q) (e : Row q) : Decidable (e.Holds c s) :=
  inferInstanceAs (Decidable (_ = _))

/-- Three lists of one length are the columns of a list of rows. -/
theorem exists_rows {q : ℕ} {bs ys as : List (ZMod q)} (hy : ys.length = bs.length)
    (ha : as.length = bs.length) :
    ∃ rows : List (Row q), rows.map Row.base = bs ∧ rows.map Row.image = ys ∧
      rows.map Row.commitment = as := by
  induction bs generalizing ys as with
  | nil => exact ⟨[], rfl, (List.length_eq_zero_iff.1 hy).symm, (List.length_eq_zero_iff.1 ha).symm⟩
  | cons b bs ih =>
    obtain ⟨y, ys, rfl⟩ := List.exists_cons_of_length_eq_add_one hy
    obtain ⟨a, as, rfl⟩ := List.exists_cons_of_length_eq_add_one ha
    obtain ⟨rows, rfl, rfl, rfl⟩ := ih (Nat.succ.inj hy) (Nat.succ.inj ha)
    exact ⟨⟨b, y, a⟩ :: rows, rfl, rfl, rfl⟩

variable (G : Group) [accepted : G.Accepted]

open Recorder Transcript

/-- What the transcript of a proof holds after its context. -/
def fieldsOf (bs ys as : List (ZMod G.q)) : List Field :=
  [elementField G (Bytes.ofText "p") G.p, elementField G (Bytes.ofText "g") G.g] ++
  elementFields G (Bytes.ofText "bases") (bs.map G.element) ++
  elementFields G (Bytes.ofText "images") (ys.map G.element) ++
  elementFields G (Bytes.ofText "commitments") (as.map G.element)

/-- The fields after the context determine the columns of the statement and the commitments. -/
theorem eq_of_fieldsOf {bs ys as bs' ys' as' : List (ZMod G.q)}
    (same : fieldsOf G bs ys as = fieldsOf G bs' ys' as') : bs = bs' ∧ ys = ys' ∧ as = as' := by
  have column {label other : Bytes} (differ : other ++ Bytes.ofText ".len" ≠ label)
      (xs : List ℤ) : EndsList label (elementFields G other xs) := by
    simpa using endsList_elementFields G differ xs []
  simp only [fieldsOf, List.append_assoc, List.cons_append, List.nil_append, List.cons.injEq,
    true_and] at same
  obtain ⟨bases, same⟩ := eq_of_elementFields_append G (endsList_elementFields G (by decide) _ _)
    (endsList_elementFields G (by decide) _ _) same
  obtain ⟨images, commitments⟩ := eq_of_elementFields_append G (column (by decide) _)
    (column (by decide) _) same
  exact ⟨bases, images, (elementFields_inj G).1 commitments⟩

theorem transcript_eq (context : Transcript) (bs ys as : List (ZMod G.q)) :
    transcript G context (bs.map G.element) (ys.map G.element) (as.map G.element)
      = .ok ⟨context.fields ++ fieldsOf G bs ys as⟩ := by
  have elements (label : Bytes) (as : List (ZMod G.q)) :=
    adds_elements G (fits_elements G as) label
  have run := Adds.andThen (adds_group G) <| Adds.andThen (elements (Bytes.ofText "bases") bs) <|
    Adds.andThen (elements (Bytes.ofText "images") ys) (elements (Bytes.ofText "commitments") as)
  refine (run.extend context).trans ?_
  simp [fieldsOf]

theorem exists_challenge (context : Transcript) (bs ys as : List (ZMod G.q)) :
    ∃ c, challenge G context (bs.map G.element) (ys.map G.element) (as.map G.element)
      = .ok (G.scalar c) := by
  obtain ⟨c, hc⟩ := Transcript.exists_challenge G ⟨context.fields ++ fieldsOf G bs ys as⟩
  exact ⟨c, Result.bind_eq_ok_iff.2 ⟨_, transcript_eq G context bs ys as, hc⟩⟩

/-! ## Rows -/

def basesOf (rows : List (Row G.q)) : List ℤ := (rows.map Row.base).map G.element

def imagesOf (rows : List (Row G.q)) : List ℤ := (rows.map Row.image).map G.element

def commitmentsOf (rows : List (Row G.q)) : List ℤ := (rows.map Row.commitment).map G.element

/-- The proof with the commitments of the rows, a challenge and a response. -/
def proofOf (rows : List (Row G.q)) (c s : ZMod G.q) : Proof :=
  ⟨(commitmentsOf G rows).map some, some (G.scalar c), some (G.scalar s)⟩

theorem zip_rows (rows : List (Row G.q)) :
    (basesOf G rows).zip ((imagesOf G rows).zip (commitmentsOf G rows))
      = rows.map fun e => (G.element e.base, G.element e.image, G.element e.commitment) := by
  simp only [basesOf, imagesOf, commitmentsOf, List.map_map, List.zip_map', Function.comp_apply]

theorem wellFormed_rows {rows : List (Row G.q)} (ne : rows ≠ []) (c s : ZMod G.q) :
    wellFormed G ((basesOf G rows).map some) ((imagesOf G rows).map some) (proofOf G rows c s)
      = true := by
  simp [wellFormed, basesOf, imagesOf, commitmentsOf, proofOf, ne]

theorem equationHolds_eq (c s b y a : ZMod G.q) :
    equationHolds G (G.scalar c) (G.scalar s) (G.element b) (G.element y) (G.element a)
      = .ok (decide (b * s = a + y * c)) := by
  simp [equationHolds]

/-- A statement and a proof of one form come from rows. -/
theorem exists_rows_of_wellFormed {bases images : List (Option ℤ)} {proof : Proof}
    (formed : wellFormed G bases images proof = true) :
    ∃ (rows : List (Row G.q)) (c s : ZMod G.q), rows ≠ [] ∧ bases = (basesOf G rows).map some ∧
      images = (imagesOf G rows).map some ∧ proof = proofOf G rows c s := by
  obtain ⟨commitments, challenge, response⟩ := proof
  simp only [wellFormed, Bool.and_eq_true, Bool.not_eq_true', decide_eq_true_eq,
    List.all_eq_true] at formed
  obtain ⟨⟨⟨⟨⟨⟨⟨ne, hy⟩, ha⟩, hc⟩, hs⟩, bases⟩, images⟩, commitments⟩ := formed
  obtain ⟨bs, rfl⟩ := G.exists_members bases
  obtain ⟨ys, rfl⟩ := G.exists_members images
  obtain ⟨as, rfl⟩ := G.exists_members commitments
  obtain ⟨c, rfl⟩ := G.isScalar_iff.1 hc
  obtain ⟨s, rfl⟩ := G.isScalar_iff.1 hs
  simp only [List.length_map, List.isEmpty_eq_false_iff, ne_eq, List.map_eq_nil_iff] at ne hy ha
  obtain ⟨rows, rfl, rfl, rfl⟩ := exists_rows hy.symm ha
  exact ⟨rows, c, s, by simpa using ne, rfl, rfl, rfl⟩

/-! ## Verifying -/

theorem mapM_present_some (xs : List ℤ) : (xs.map some).mapM present = .ok xs :=
  Result.mapM_present_eq_ok_iff.2 rfl

/-- What the verifier decides about members and scalars. -/
theorem verify_rows (context : Transcript) {rows : List (Row G.q)} (ne : rows ≠ [])
    (c s : ZMod G.q) :
    ∃ c', challenge G context (basesOf G rows) (imagesOf G rows) (commitmentsOf G rows)
        = .ok (G.scalar c') ∧
      verify G context ((basesOf G rows).map some) ((imagesOf G rows).map some)
        (proofOf G rows c s) = .ok (decide (c' = c) && rows.all fun e => decide (e.Holds c s)) := by
  obtain ⟨c', hc⟩ := exists_challenge G context (rows.map Row.base) (rows.map Row.image)
    (rows.map Row.commitment)
  change challenge G context (basesOf G rows) (imagesOf G rows) (commitmentsOf G rows) = _ at hc
  refine ⟨c', hc, ?_⟩
  have equations : ∀ e ∈ rows, equationHolds G (G.scalar c) (G.scalar s) (G.element e.base)
      (G.element e.image) (G.element e.commitment) = .ok (decide (e.Holds c s)) :=
    fun e _ => equationHolds_eq G c s e.base e.image e.commitment
  rw [verify, wellFormed_rows G ne]
  simp only [proofOf, mapM_present_some, Result.ok_bind, present_some, hc, zip_rows,
    Bool.not_true, Bool.false_eq_true, if_false]
  by_cases same : c' = c
  · rw [if_neg (by simp [same]), Result.allM_map_eq_ok equations, decide_eq_true same,
      Bool.true_and]
  · rw [if_pos (by simpa using same), decide_eq_false same, Bool.false_and]
    rfl

/-- A verification never fails. -/
theorem exists_verify (context : Transcript) (bases images : List (Option ℤ)) (proof : Proof) :
    ∃ b, verify G context bases images proof = .ok b := by
  by_cases formed : wellFormed G bases images proof = true
  · obtain ⟨rows, c, s, ne, rfl, rfl, rfl⟩ := exists_rows_of_wellFormed G formed
    obtain ⟨_, -, decided⟩ := verify_rows G context ne c s
    exact ⟨_, decided⟩
  · exact ⟨false, by simp [verify, formed]⟩

omit accepted in
/-- What is accepted has the form of a statement and a proof. -/
theorem wellFormed_of_verify {context : Transcript} {bases images : List (Option ℤ)} {proof : Proof}
    (h : verify G context bases images proof = .ok true) : wellFormed G bases images proof = true := by
  by_contra formed
  rw [verify, if_pos (by simpa using formed)] at h
  cases h

omit accepted in
theorem isMember_of_verify {context : Transcript} {bases images : List (Option ℤ)} {proof : Proof}
    (h : verify G context bases images proof = .ok true) : ∀ y ∈ images, G.isMember y = true := by
  have formed := wellFormed_of_verify G h
  simp only [wellFormed, Bool.and_eq_true, List.all_eq_true] at formed
  exact formed.1.2

/-- A verification that accepts, by exponents. -/
structure Accepts (context : Transcript) (bases images : List (Option ℤ)) (proof : Proof)
    (rows : List (Row G.q)) (c s : ZMod G.q) : Prop where
  bases : bases = (basesOf G rows).map some
  images : images = (imagesOf G rows).map some
  proof : proof = proofOf G rows c s
  challenge : challenge G context (basesOf G rows) (imagesOf G rows) (commitmentsOf G rows)
    = .ok (G.scalar c)
  holds : ∀ e ∈ rows, e.Holds c s

theorem exists_accepts {context : Transcript} {bases images : List (Option ℤ)} {proof : Proof}
    (h : verify G context bases images proof = .ok true) :
    ∃ rows c s, Accepts G context bases images proof rows c s := by
  obtain ⟨rows, c, s, ne, rfl, rfl, rfl⟩ := exists_rows_of_wellFormed G (wellFormed_of_verify G h)
  obtain ⟨c', hc, decided⟩ := verify_rows G context ne c s
  rw [decided, Except.ok.injEq, Bool.and_eq_true, decide_eq_true_eq, List.all_eq_true] at h
  obtain ⟨rfl, holds⟩ := h
  exact ⟨rows, c', s, rfl, rfl, rfl, hc, fun e he => of_decide_eq_true (holds e he)⟩

/-! ## Proving -/

/-- The proof that is made with a nonce, whatever the images. -/
theorem proveWith_logs (context : Transcript) (bs ys : List (ZMod G.q)) (x : ℤ) (w : ZMod G.q) :
    ∃ c, challenge G context (bs.map G.element) (ys.map G.element)
        ((bs.map (· * w)).map G.element) = .ok (G.scalar c) ∧
      proveWith G context (bs.map G.element) (ys.map G.element) x (G.scalar w)
        = .ok ⟨((bs.map (· * w)).map G.element).map some, some (G.scalar c),
            some (G.scalar (w + c * x))⟩ := by
  have committed : (bs.map G.element).mapM (fun b => G.pow b (G.scalar w))
      = .ok ((bs.map (· * w)).map G.element) := by
    rw [List.mapM_map, List.map_map]
    exact Result.mapM_eq_ok fun b _ => G.pow_element_scalar b w
  obtain ⟨c, hc⟩ := exists_challenge G context bs ys (bs.map (· * w))
  refine ⟨c, hc, ?_⟩
  rw [proveWith, committed, Result.ok_bind, hc]
  simp

theorem Row.holds_answer {q : ℕ} [Fact q.Prime] {e : Row q} {w : ZMod q}
    (committed : e.commitment = e.base * w) (c x : ZMod q) :
    e.Holds c (w + c * x) ↔ c = 0 ∨ e.image = e.base * x := by
  rw [Holds, committed, ← sub_eq_zero, show e.base * (w + c * x) - (e.base * w + e.image * c)
    = c * (e.base * x - e.image) by ring, mul_eq_zero, sub_eq_zero, eq_comm (a := e.image)]

/-- The answer `w + c x` passes under the challenge zero, and for images that have the exponent
`x`. -/
theorem verify_answer (context : Transcript) {bs ys : List (ZMod G.q)} (ne : bs ≠ [])
    (size : ys.length = bs.length) {c w : ZMod G.q} (x : ZMod G.q)
    (hc : challenge G context (bs.map G.element) (ys.map G.element)
      ((bs.map (· * w)).map G.element) = .ok (G.scalar c)) :
    verify G context ((bs.map G.element).map some) ((ys.map G.element).map some)
      ⟨((bs.map (· * w)).map G.element).map some, some (G.scalar c), some (G.scalar (w + c * x))⟩
        = .ok (decide (c = 0 ∨ ys = bs.map (· * x))) := by
  obtain ⟨rows, rfl, rfl, columns⟩ := exists_rows size (List.length_map (· * w))
  rw [← columns] at hc ⊢
  rw [List.map_map, List.map_inj_left] at columns
  obtain ⟨c', hc', decided⟩ := verify_rows G context (by simpa using ne) c (w + c * x)
  obtain rfl : c' = c := G.scalar_injective (Except.ok.inj (hc'.symm.trans hc))
  refine decided.trans (congrArg Except.ok ?_)
  rw [decide_eq_true rfl, Bool.true_and, Bool.eq_iff_iff, List.all_eq_true, decide_eq_true_eq,
    List.map_map, List.map_inj_left]
  have answered (e : Row G.q) (he : e ∈ rows) :
      decide (e.Holds c' (w + c' * x)) = true ↔ c' = 0 ∨ e.image = e.base * x := by
    rw [decide_eq_true_eq]
    exact Row.holds_answer (columns e he) c' x
  rw [forall₂_congr answered]
  by_cases zero : c' = 0 <;> simp [zero]

omit accepted in
/-- A prover draws a nonce and makes the proof with it. -/
theorem prove_returns_iff {σ : Type} [Source σ] {context : Transcript} {bases images : List ℤ}
    {x : ℤ} {proof : Proof} {s s' : σ} :
    (prove G context bases images x).Returns s proof s' ↔
      (bases ≠ [] ∧ bases.length = images.length) ∧ ∃ nonce, G.randomExponent.Returns s nonce s' ∧
        proveWith G context bases images x nonce = .ok proof := by
  simp only [prove, ExceptT.bind_throw, Draw.returns_ite_throw_iff, Draw.returns_bind_iff,
    Draw.returns_liftM_iff]
  refine and_congr (by simp) (exists_congr fun nonce => ?_)
  constructor
  · rintro ⟨_, drawn, made, rfl⟩
    exact ⟨drawn, made⟩
  · rintro ⟨drawn, made⟩
    exact ⟨s', drawn, made, rfl⟩

/-- Every proof answers its challenge with the witness, also for numbers that are no members. -/
theorem exists_answer {context : Transcript} {bases images : List ℤ} {x : ℤ} {w : ZMod G.q}
    {proof : Proof} (h : proveWith G context bases images x (G.scalar w) = .ok proof) :
    ∃ as c, proof = ⟨as, some (G.scalar c), some (G.scalar (w + c * x))⟩ := by
  simp only [proveWith, challenge, Result.bind_eq_ok_iff, Result.pure_eq_ok, Except.ok.injEq] at h
  obtain ⟨as, -, c, ⟨t, -, hc⟩, cx, hcx, response, hresponse, rfl⟩ := h
  obtain ⟨c', hc'⟩ := Transcript.exists_challenge G t
  obtain rfl := Except.ok.inj (hc.symm.trans hc')
  rw [G.scalarMul_eq, Except.ok.injEq] at hcx
  rw [← hcx, G.scalarAdd_eq, Except.ok.injEq] at hresponse
  simp only [G.cast_scalar] at hresponse
  exact ⟨_, c', by rw [← hresponse]⟩

/-- What a prover who returns has made, and what the verifier decides about it. -/
theorem returns_answer {σ : Type} [Source σ] {context : Transcript} {bs ys : List (ZMod G.q)}
    {x : ℤ} {proof : Proof} {s s' : σ}
    (h : (prove G context (bs.map G.element) (ys.map G.element) x).Returns s proof s') :
    ∃ c, proof.challenge = some (G.scalar c) ∧
      verify G context ((bs.map G.element).map some) ((ys.map G.element).map some) proof
        = .ok (decide (c = 0 ∨ ys = bs.map (· * (x : ZMod G.q)))) := by
  obtain ⟨⟨ne, size⟩, nonce, drawn, made⟩ := (prove_returns_iff G).1 h
  obtain ⟨w, -, rfl⟩ := G.randomExponent_returns drawn
  obtain ⟨c, hc, made'⟩ := proveWith_logs G context bs ys x w
  obtain rfl := Except.ok.inj (made.symm.trans made')
  simp only [List.length_map, ne_eq, List.map_eq_nil_iff] at ne size
  exact ⟨c, rfl, verify_answer G context ne size.symm x hc⟩

theorem prove_returns {σ : Type} [Source σ] {context : Transcript} {bs : List (ZMod G.q)}
    {x : ZMod G.q} {proof : Proof} {s s' : σ}
    (h : (prove G context (bs.map G.element) ((bs.map (· * x)).map G.element)
      (G.scalar x)).Returns s proof s') :
    verify G context ((bs.map G.element).map some) (((bs.map (· * x)).map G.element).map some)
      proof = .ok true := by
  obtain ⟨c, -, decided⟩ := returns_answer G h
  rw [decided, G.cast_scalar, decide_eq_true (Or.inr rfl)]

theorem forall₂_pow_iff (bs ys : List (ZMod G.q)) (x : ℤ) :
    List.Forall₂ (fun b y => G.pow b (x % G.q) = .ok y) (bs.map G.element) (ys.map G.element)
      ↔ ys = bs.map (· * (x : ZMod G.q)) := by
  have powers : (bs.map G.element).mapM (fun b => G.pow b (x % G.q))
      = .ok ((bs.map (· * (x : ZMod G.q))).map G.element) := by
    rw [List.mapM_map, List.map_map, ← G.scalar_intCast]
    exact Result.mapM_eq_ok fun b _ => G.pow_element_scalar b x
  rw [← Result.mapM_eq_ok_iff, powers, Except.ok.injEq, G.element_injective.list_map.eq_iff, eq_comm]

variable {G}

/-- The proof of a prover who returns, which takes lists of one length that are not empty, is accepted
exactly if every image is its base to the residue of the witness or the challenge is zero. -/
theorem verify_iff_of_prove {σ : Type} [Source σ] {context : Transcript} {bases images : List ℤ}
    (hb : ∀ b ∈ bases, G.isMember (some b) = true) (hy : ∀ y ∈ images, G.isMember (some y) = true)
    {x : ℤ} {proof : Proof} {s s' : σ} (h : (prove G context bases images x).Returns s proof s') :
    ∃ accepted, verify G context (bases.map some) (images.map some) proof = .ok accepted ∧
      (accepted = true ↔ proof.challenge = some 0 ∨
        List.Forall₂ (fun b y => G.pow b (x % G.q) = .ok y) bases images) := by
  obtain ⟨bs, rfl⟩ := G.exists_elements hb
  obtain ⟨ys, rfl⟩ := G.exists_elements hy
  obtain ⟨c, hc, decided⟩ := returns_answer G h
  have zero : proof.challenge = some 0 ↔ c = 0 := by
    rw [hc, ← G.scalar_zero, Option.some.injEq, G.scalar_inj]
  exact ⟨_, decided, by rw [decide_eq_true_eq, zero, forall₂_pow_iff]⟩

/-- The witness `-1` for the inverses of two bases, and for a list with one other image. -/
theorem verify_iff_of_prove_least :
    let proof : Proof := ⟨[some 390430993, some 655242468], some 469084725, some 621500176⟩
    let forged : Proof := ⟨[some 390430993, some 655242468], some 1013464820, some 77120081⟩
    let images : List ℤ := [536870946, 1207959628]
    let mixed : List ℤ := [536870946, 16]
    (prove Group.least (.start []) [4, 16] images (-1)).Returns (⟨[1, 1, 1, 1]⟩ : Tape) proof ⟨[]⟩ ∧
      verify Group.least (.start []) [some 4, some 16] (images.map some) proof = .ok true ∧
      (prove Group.least (.start []) [4, 16] mixed (-1)).Returns (⟨[1, 1, 1, 1]⟩ : Tape) forged ⟨[]⟩ ∧
      verify Group.least (.start []) [some 4, some 16] (mixed.map some) forged = .ok false := by
  intro proof forged images mixed
  have run : (prove Group.least (.start []) [4, 16] images (-1)).Returns (⟨[1, 1, 1, 1]⟩ : Tape)
      proof ⟨[]⟩ := by
    unfold Draw.Returns
    decide +kernel
  have run' : (prove Group.least (.start []) [4, 16] mixed (-1)).Returns (⟨[1, 1, 1, 1]⟩ : Tape)
      forged ⟨[]⟩ := by
    unfold Draw.Returns
    decide +kernel
  have powers : List.Forall₂ (fun b y => Group.least.pow b (-1 % Group.least.q) = .ok y)
      [4, 16] images := Result.mapM_eq_ok_iff.1 (by decide +kernel)
  have other : ¬ List.Forall₂ (fun b y => Group.least.pow b (-1 % Group.least.q) = .ok y)
      [4, 16] mixed := Result.mapM_eq_ok_iff.not.1 (by decide +kernel)
  obtain ⟨accepted, verified, iff⟩ :=
    verify_iff_of_prove (by decide +kernel) (by decide +kernel) run
  obtain ⟨accepted', verified', iff'⟩ :=
    verify_iff_of_prove (by decide +kernel) (by decide +kernel) run'
  have refused : accepted' = false := by
    rw [← Bool.not_eq_true, iff']
    exact not_or.2 ⟨by decide, other⟩
  rw [iff.2 (Or.inr powers)] at verified
  rw [refused] at verified'
  exact ⟨run, verified, run', verified'⟩

end BallotMix.LogEquality
