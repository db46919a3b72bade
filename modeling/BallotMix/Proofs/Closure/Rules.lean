import BallotMix.Proofs.ElGamal.Exponents
import BallotMix.Proofs.Entropy.Draws
import BallotMix.Proofs.Formed
import BallotMix.Proofs.LogEquality
import BallotMix.Proofs.Workers
import Mathlib

/-!
# What a computation ensures

A computation ensures a property if it either fails or gives something that has it.  The rules for
`Ensures` follow the ways in which computations are put together: one after the other, for every entry
of a list, or as a fold along a list.  With them it is enough to know of each operation of the group
that it does not leave the group, of each operation on scalars that it gives a scalar, and of each
check that it lets nothing else pass.
-/

namespace BallotMix

variable {α β : Type}

/-! ## Results -/

namespace Result

/-- The computation fails, or what it gives has the property. -/
def Ensures (x : Result α) (P : α → Prop) : Prop := ∀ a, x = .ok a → P a

variable {P : α → Prop} {Q : β → Prop} {x : Result α}

theorem ensures_ok {a : α} (h : P a) : Ensures (.ok a) P := by
  rintro _ ⟨⟩
  exact h

theorem ensures_error (e : Error) : Ensures (.error e) P := by
  rintro _ ⟨⟩

theorem ensures_true : Ensures x fun _ => True := fun _ _ => trivial

theorem ensures_of_exists (h : ∃ a, P a ∧ x = .ok a) : Ensures x P := by
  obtain ⟨a, ha, rfl⟩ := h
  exact ensures_ok ha

theorem Ensures.mono (h : Ensures x P) {P' : α → Prop} (weaker : ∀ a, P a → P' a) :
    Ensures x P' := fun a ha => weaker a (h a ha)

theorem Ensures.bind (h : Ensures x P) {f : α → Result β} (hf : ∀ a, P a → Ensures (f a) Q) :
    Ensures (x >>= f) Q := by
  intro b hb
  obtain ⟨a, ha, hb⟩ := bind_eq_ok_iff.1 hb
  exact hf a (h a ha) b hb

theorem Ensures.guard (h : Ensures x P) {c : Prop} [Decidable c] {e : Error} :
    Ensures (if c then .error e else x) P := by
  split
  · exact ensures_error e
  · exact h

/-- What every step ensures is true of all entries of the list of what the steps give. -/
theorem ensures_mapM {f : α → Result β} {xs : List α} (h : ∀ a ∈ xs, Ensures (f a) Q) :
    Ensures (xs.mapM f) fun ys => ys.length = xs.length ∧ ∀ y ∈ ys, Q y := by
  intro ys run
  rw [mapM_eq_ok_iff] at run
  induction run with
  | nil => simp
  | cons head _ ih =>
    obtain ⟨length, all⟩ := ih fun a ha => h a (List.mem_cons_of_mem _ ha)
    exact ⟨congrArg Nat.succ length, List.forall_mem_cons.2 ⟨h _ List.mem_cons_self _ head, all⟩⟩

/-- What is left of a number modulo another lies below that one, if anything is. -/
theorem ensures_emod {m : ℕ} {e : Error} (x : ℤ) :
    Ensures (if m = 0 then .error e else .ok (x % m)) fun r => 0 ≤ r ∧ r < m := by
  split
  · exact ensures_error e
  · exact ensures_ok ⟨Int.emod_nonneg x (by omega), Int.emod_lt_of_pos x (by omega)⟩

/-- What every step of a fold keeps is true at its end. -/
theorem ensures_foldlM {f : β → α → Result β} {xs : List α}
    (step : ∀ b, Q b → ∀ a ∈ xs, Ensures (f b a) Q) {b : β} (hb : Q b) :
    Ensures (xs.foldlM f b) Q := by
  induction xs generalizing b with
  | nil => exact ensures_ok hb
  | cons a xs ih =>
    rw [List.foldlM_cons]
    exact (step b hb a List.mem_cons_self).bind fun b' hb' =>
      ih (fun b hb a ha => step b hb a (List.mem_cons_of_mem _ ha)) hb'

/-- What every task ensures is true of all results, whoever does which. -/
theorem ensures_forList [Workers.Scheduler] {threads : ℕ} {xs : List α} {f : α → Result β}
    (h : ∀ a ∈ xs, Ensures (f a) Q) :
    Ensures (Workers.forList threads xs f) fun ys => ys.length = xs.length ∧ ∀ y ∈ ys, Q y :=
  fun ys run => ensures_mapM h ys (Workers.forList_eq_ok_iff.1 run)

end Result

/-! ## Draws -/

namespace Draw

variable {σ : Type} {P : α → Prop} {Q : β → Prop} {d : Draw σ α}

/-- The computation fails, or what it returns has the property, whatever the source. -/
def Ensures (d : Draw σ α) (P : α → Prop) : Prop := ∀ s a s', d.Returns s a s' → P a

theorem ensures_pure {a : α} (h : P a) : Ensures (pure a : Draw σ α) P := by
  intro s a' s' run
  obtain ⟨rfl, -⟩ := returns_pure_iff.1 run
  exact h

theorem ensures_liftM {x : Result α} (h : x.Ensures P) : Ensures (liftM x : Draw σ α) P :=
  fun _ a _ run => h a (returns_liftM_iff.1 run).1

theorem Ensures.bind (h : Ensures d P) {f : α → Draw σ β} (hf : ∀ a, P a → Ensures (f a) Q) :
    Ensures (d >>= f) Q := by
  intro s b s' run
  obtain ⟨a, t, ha, hb⟩ := returns_bind_iff.1 run
  exact hf a (h s a t ha) t b s' hb

theorem ensures_true : Ensures d fun _ => True := fun _ _ _ _ => trivial

theorem Ensures.guard (h : Ensures d P) {c : Prop} [Decidable c] {e : Error} :
    Ensures (if c then throw e else d) P :=
  fun s a s' run => h s a s' (returns_ite_throw_iff.1 run).2

/-- A computation without draws, followed by others. -/
theorem ensures_liftM_bind {x : Result α} (h : x.Ensures P) {f : α → Draw σ β}
    (hf : ∀ a, P a → Ensures (f a) Q) : Ensures (liftM x >>= f) Q :=
  (ensures_liftM h).bind hf

end Draw

/-! ## Elements and scalars -/

namespace Group

open Result

variable (G : Group) [accepted : G.Accepted]

/-- The number is a member of the group. -/
def IsElement (x : ℤ) : Prop := G.isMember (some x) = true

/-- The number lies in `[0, q)`. -/
def IsScalar (s : ℤ) : Prop := G.isScalar (some s) = true

/-- Both numbers of the pair are members. -/
structure IsPair (c : Pair) : Prop where
  c1 : G.IsElement c.c1
  c2 : G.IsElement c.c2

variable {G}

theorem isElement_element (a : ZMod G.q) : G.IsElement (G.element a) := G.isMember_element a

theorem isElement_one : G.IsElement 1 := G.element_zero ▸ G.isElement_element 0

theorem isElement_generator : G.IsElement G.g := G.generator_eq_element ▸ G.isElement_element 1

theorem isPair_pairOf (c : ZMod G.q × ZMod G.q) : G.IsPair (G.pairOf c) :=
  ⟨isElement_element c.1, isElement_element c.2⟩

/-! ### Checks -/

omit accepted in
theorem ensures_ensureMember (what : String) (x : Option ℤ) :
    (G.ensureMember what x).Ensures G.IsElement := by
  intro v hv
  obtain ⟨member, rfl⟩ := G.ensureMember_eq_ok_iff.1 hv
  exact member

theorem ensures_ensureKey (pk : PublicKey) : (G.ensureKey pk).Ensures G.IsElement := by
  intro h hh
  obtain ⟨y, -, -, rfl⟩ := G.ensureKey_eq_ok_iff.1 hh
  exact isElement_element y

theorem ensures_ensureCiphertext (ct : Ciphertext) : (G.ensureCiphertext ct).Ensures G.IsPair := by
  intro c hc
  obtain ⟨c, -, rfl⟩ := G.ensureCiphertext_eq_ok_iff.1 hc
  exact isPair_pairOf c

/-! ### Operations -/

theorem ensures_pow {x : ℤ} (hx : G.IsElement x) (e : ℤ) : (G.pow x e).Ensures G.IsElement := by
  obtain ⟨a, rfl⟩ := G.exists_element hx
  exact ensures_of_exists ⟨_, isElement_element _, G.pow_element a e⟩

theorem ensures_genPow (e : ℤ) : (G.genPow e).Ensures G.IsElement :=
  ensures_pow isElement_generator e

theorem ensures_mul {x y : ℤ} (hx : G.IsElement x) (hy : G.IsElement y) :
    (G.mul x y).Ensures G.IsElement := by
  obtain ⟨a, rfl⟩ := G.exists_element hx
  obtain ⟨b, rfl⟩ := G.exists_element hy
  exact ensures_of_exists ⟨_, isElement_element _, G.mul_element a b⟩

theorem ensures_div {x y : ℤ} (hx : G.IsElement x) (hy : G.IsElement y) :
    (G.div x y).Ensures G.IsElement := by
  obtain ⟨a, rfl⟩ := G.exists_element hx
  obtain ⟨b, rfl⟩ := G.exists_element hy
  exact ensures_of_exists ⟨_, isElement_element _, G.div_element a b⟩

omit accepted in
theorem isScalar_of_bounds {s : ℤ} (h : 0 ≤ s ∧ s < G.q) : G.IsScalar s :=
  isScalar_iff_bounds.2 ⟨s, rfl, h⟩

omit accepted in
theorem ensures_scalarAdd (x y : ℤ) : (G.scalarAdd x y).Ensures G.IsScalar :=
  (ensures_emod (x + y)).mono fun _ => isScalar_of_bounds

omit accepted in
theorem ensures_scalarSub (x y : ℤ) : (G.scalarSub x y).Ensures G.IsScalar :=
  (ensures_emod (x - y)).mono fun _ => isScalar_of_bounds

omit accepted in
theorem ensures_challenge (t : Transcript) : (t.challenge G).Ensures G.IsScalar :=
  (ensures_emod _).mono fun _ => isScalar_of_bounds

theorem ensures_randomExponent {σ : Type} [Source σ] :
    Draw.Ensures (σ := σ) G.randomExponent G.IsScalar := by
  intro s r s' drawn
  obtain ⟨a, -, rfl⟩ := G.randomExponent_returns drawn
  exact G.isScalar_scalar a

end Group

end BallotMix
