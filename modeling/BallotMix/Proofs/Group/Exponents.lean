import BallotMix.Proofs.Dot
import BallotMix.Proofs.Group.Accepted
import Mathlib

/-!
# Members and scalars by their exponents

The members of an accepted group are the powers of its generator (`isMember_iff`), and each is the
power to exactly one exponent modulo `q` (`element_injective`).  So the group is described by the map
`element` from exponents to members and the map `scalar` from exponents to scalars.  Under the two
maps the operations of the group become operations on exponents: a product of members is the member
of the sum (`mul_element`), a power that of the product (`pow_element`), and so on, and a run on
members and scalars never fails.
-/

namespace BallotMix.Group

variable (G : Group) [accepted : G.Accepted]

/-! ## Elements as powers -/

/-- The residue of the generator to an exponent. -/
def residue (a : ZMod G.q) : ZMod G.p := (G.g : ZMod G.p) ^ a.val

/-- The generator to an exponent. -/
def element (a : ZMod G.q) : ℤ := (G.residue a).val

/-- The representative of an exponent in `[0, q)`. -/
def scalar (a : ZMod G.q) : ℤ := a.val

theorem generator_pow_order : (G.g : ZMod G.p) ^ G.q = 1 :=
  (G.isMember_some_iff.1 G.isMember_generator).2.2

theorem cast_generator_ne_one : (G.g : ZMod G.p) ≠ 1 := by
  obtain ⟨positive, small, -⟩ := G.isMember_some_iff.1 G.isMember_generator
  have := accepted.prime_modulus.one_lt
  rw [← Int.cast_one]
  exact fun h => G.generator_ne_one (G.eq_of_cast_eq ⟨positive.le, small⟩ (by omega) h)

theorem isPrimitiveRoot_generator : IsPrimitiveRoot (G.g : ZMod G.p) G.q :=
  IsPrimitiveRoot.iff_orderOf.2 (orderOf_eq_prime G.generator_pow_order G.cast_generator_ne_one)

theorem residue_natCast (n : ℕ) : G.residue n = (G.g : ZMod G.p) ^ n := by
  rw [residue, ZMod.val_natCast, ← pow_mod_orderOf (G.g : ZMod G.p) n,
    ← G.isPrimitiveRoot_generator.eq_orderOf]

@[simp]
theorem residue_zero : G.residue 0 = 1 := by
  rw [residue, ZMod.val_zero, pow_zero]

@[simp]
theorem residue_one : G.residue 1 = G.g := by
  simpa using G.residue_natCast 1

theorem residue_add (a b : ZMod G.q) : G.residue (a + b) = G.residue a * G.residue b := by
  have h := G.residue_natCast (a.val + b.val)
  rwa [Nat.cast_add, ZMod.natCast_zmod_val, ZMod.natCast_zmod_val, pow_add] at h

theorem residue_mul_natCast (a : ZMod G.q) (n : ℕ) : G.residue (a * n) = G.residue a ^ n := by
  have h := G.residue_natCast (a.val * n)
  rwa [Nat.cast_mul, ZMod.natCast_zmod_val, pow_mul] at h

theorem residue_mul (a b : ZMod G.q) : G.residue (a * b) = G.residue a ^ b.val := by
  rw [← residue_mul_natCast, ZMod.natCast_zmod_val]

theorem residue_neg (a : ZMod G.q) : G.residue (-a) = (G.residue a)⁻¹ := by
  refine eq_inv_of_mul_eq_one_left ?_
  rw [← residue_add, neg_add_cancel, residue_zero]

theorem residue_sub (a b : ZMod G.q) : G.residue (a - b) = G.residue a / G.residue b := by
  rw [sub_eq_add_neg, residue_add, residue_neg, div_eq_mul_inv]

theorem residue_ne_zero (a : ZMod G.q) : G.residue a ≠ 0 := fun h => by
  have := G.residue_add a (-a)
  rw [add_neg_cancel, residue_zero, h, zero_mul] at this
  exact one_ne_zero this

/-- The generator to any integer. -/
theorem residue_intCast (x : ℤ) : G.residue x = (G.g : ZMod G.p) ^ x := by
  cases x with
  | ofNat n => rw [Int.ofNat_eq_natCast, Int.cast_natCast, residue_natCast, zpow_natCast]
  | negSucc n =>
    rw [Int.cast_negSucc, residue_neg, residue_natCast, zpow_negSucc]

theorem residue_injective : Function.Injective G.residue := fun a b h => by
  have := G.isPrimitiveRoot_generator.pow_inj (ZMod.val_lt a) (ZMod.val_lt b) h
  exact ZMod.val_injective G.q this

theorem residue_sum (as : List (ZMod G.q)) : G.residue as.sum = (as.map G.residue).prod := by
  induction as with
  | nil => simp
  | cons a as ih => rw [List.sum_cons, residue_add, ih, List.map_cons, List.prod_cons]

@[simp]
theorem cast_element (a : ZMod G.q) : ((G.element a : ℤ) : ZMod G.p) = G.residue a := by
  rw [element, Int.cast_natCast, ZMod.natCast_zmod_val]

theorem element_eq_of_cast {a : ZMod G.q} {x : ZMod G.p} (h : G.residue a = x) :
    ((x.val : ℕ) : ℤ) = G.element a := by
  rw [element, h]

theorem element_bounds (a : ZMod G.q) : 0 < G.element a ∧ G.element a < G.p := by
  have positive : 0 < (G.residue a).val := (ZMod.val_pos).2 (G.residue_ne_zero a)
  have small := ZMod.val_lt (G.residue a)
  rw [element]
  omega

theorem element_injective : Function.Injective G.element := fun a b h =>
  G.residue_injective (by rw [← cast_element, h, cast_element])

@[simp]
theorem element_inj {a b : ZMod G.q} : G.element a = G.element b ↔ a = b :=
  G.element_injective.eq_iff

theorem generator_eq_element : G.g = G.element 1 := by
  obtain ⟨positive, small, -⟩ := G.isMember_some_iff.1 G.isMember_generator
  refine G.eq_of_cast_eq ⟨positive.le, small⟩ ?_ (by simp)
  exact ⟨(G.element_bounds 1).1.le, (G.element_bounds 1).2⟩

@[simp]
theorem element_zero : G.element 0 = 1 := by
  have := accepted.prime_modulus.one_lt
  exact G.eq_of_cast_eq ⟨(G.element_bounds 0).1.le, (G.element_bounds 0).2⟩ (by omega) (by simp)

@[simp]
theorem isMember_element (a : ZMod G.q) : G.isMember (some (G.element a)) = true := by
  refine G.isMember_some_iff.2 ⟨(G.element_bounds a).1, (G.element_bounds a).2, ?_⟩
  rw [cast_element, ← residue_mul_natCast, ZMod.natCast_self, mul_zero, residue_zero]

/-- The members are the powers of the generator. -/
theorem isMember_iff {x : Option ℤ} : G.isMember x = true ↔ ∃ a, x = some (G.element a) := by
  constructor
  · intro h
    obtain ⟨v, rfl, -⟩ := G.exists_of_isMember h
    obtain ⟨positive, small, torsion⟩ := G.isMember_some_iff.1 h
    obtain ⟨i, -, hi⟩ := G.isPrimitiveRoot_generator.eq_pow_of_pow_eq_one torsion
    refine ⟨i, congrArg some (G.eq_of_cast_eq ⟨positive.le, small⟩ ?_ ?_)⟩
    · exact ⟨(G.element_bounds i).1.le, (G.element_bounds i).2⟩
    · rw [cast_element, residue_natCast, hi]
  · rintro ⟨a, rfl⟩
    exact G.isMember_element a

theorem exists_element {x : ℤ} (h : G.isMember (some x) = true) : ∃ a, x = G.element a := by
  obtain ⟨a, ha⟩ := G.isMember_iff.1 h
  exact ⟨a, Option.some.inj ha⟩

/-- Lists of members are lists of powers. -/
theorem exists_elements {xs : List ℤ} (h : ∀ x ∈ xs, G.isMember (some x) = true) :
    ∃ as : List (ZMod G.q), xs = as.map G.element :=
  exists_map_of_forall_mem fun x hx => G.exists_element (h x hx)

/-- Fields that hold members hold powers. -/
theorem exists_members {xs : List (Option ℤ)} (h : ∀ x ∈ xs, G.isMember x = true) :
    ∃ as : List (ZMod G.q), xs = (as.map G.element).map some := by
  obtain ⟨as, rfl⟩ := exists_map_of_forall_mem fun x hx => G.isMember_iff.1 (h x hx)
  exact ⟨as, by rw [List.map_map]; rfl⟩

/-- A number in the residue class of a power leaves that power as its remainder. -/
theorem emod_eq_element {a : ZMod G.q} {n : ℤ} (h : (n : ZMod G.p) = G.residue a) :
    n % G.p = G.element a := by
  rw [element, ← h, ZMod.val_intCast]

theorem prod_emod_eq_element (as : List (ZMod G.q)) :
    (as.map G.element).prod % G.p = G.element as.sum := by
  refine G.emod_eq_element ?_
  rw [residue_sum, Int.cast_list_prod, List.map_map]
  simp only [Function.comp_def, cast_element]

/-! ## Arithmetic of elements -/

@[simp]
theorem mul_element (a b : ZMod G.q) :
    G.mul (G.element a) (G.element b) = .ok (G.element (a + b)) := by
  rw [mul_eq, cast_element, cast_element, G.element_eq_of_cast (G.residue_add a b)]

theorem pow_element (a : ZMod G.q) (e : ℤ) :
    G.pow (G.element a) e = .ok (G.element (a * e.natAbs)) := by
  rw [pow_eq, cast_element, G.element_eq_of_cast (G.residue_mul_natCast a e.natAbs)]

@[simp]
theorem natAbs_scalar (a : ZMod G.q) : ((G.scalar a).natAbs : ZMod G.q) = a := by
  rw [scalar, Int.natAbs_natCast, ZMod.natCast_zmod_val]

@[simp]
theorem pow_element_scalar (a b : ZMod G.q) :
    G.pow (G.element a) (G.scalar b) = .ok (G.element (a * b)) := by
  rw [pow_element, natAbs_scalar]

theorem genPow_eq (e : ℤ) : G.genPow e = .ok (G.element e.natAbs) := by
  rw [genPow, generator_eq_element, pow_element, one_mul]

@[simp]
theorem genPow_scalar (a : ZMod G.q) : G.genPow (G.scalar a) = .ok (G.element a) := by
  rw [genPow_eq, natAbs_scalar]

@[simp]
theorem inv_element (a : ZMod G.q) : G.inv (G.element a) = .ok (G.element (-a)) := by
  rw [inv_eq, cast_element, G.element_eq_of_cast (G.residue_neg a)]
  rw [cast_element]
  exact G.residue_ne_zero a

@[simp]
theorem div_element (a b : ZMod G.q) :
    G.div (G.element a) (G.element b) = .ok (G.element (a - b)) := by
  rw [div, inv_element, Result.ok_bind, mul_element, sub_eq_add_neg]

@[simp]
theorem prod_elements (as : List (ZMod G.q)) :
    G.prod (as.map G.element) = .ok (G.element as.sum) := by
  have step : ∀ b, ∀ a ∈ as, G.mul (G.element b) (G.element a) = .ok (G.element (b + a)) :=
    fun b a _ => G.mul_element b a
  rw [prod, ← G.element_zero, List.foldlM_map, Result.foldlM_sum step, zero_add, List.map_id']

/-! ## Arithmetic of scalars -/

@[simp]
theorem cast_scalar (a : ZMod G.q) : ((G.scalar a : ℤ) : ZMod G.q) = a := by
  rw [scalar, Int.cast_natCast, ZMod.natCast_zmod_val]

theorem scalar_bounds (a : ZMod G.q) : 0 ≤ G.scalar a ∧ G.scalar a < G.q := by
  have := ZMod.val_lt a
  rw [scalar]
  omega

theorem scalar_injective : Function.Injective G.scalar := fun a b h => by
  rw [← G.cast_scalar a, h, cast_scalar]

@[simp]
theorem scalar_inj {a b : ZMod G.q} : G.scalar a = G.scalar b ↔ a = b := G.scalar_injective.eq_iff

@[simp]
theorem scalar_zero : G.scalar 0 = 0 := by
  rw [scalar, ZMod.val_zero, Nat.cast_zero]

@[simp]
theorem scalar_one : G.scalar 1 = 1 := by
  have := accepted.prime_order.one_lt
  rw [scalar, ZMod.val_one'' this.ne', Nat.cast_one]

/-- The representative of the residue of a number. -/
theorem scalar_intCast (x : ℤ) : G.scalar x = x % G.q := by
  rw [scalar, ZMod.val_intCast]

theorem scalar_cast_of_bounds {x : ℤ} (h : 0 ≤ x ∧ x < G.q) : G.scalar x = x := by
  rw [scalar_intCast, Int.emod_eq_of_lt h.1 h.2]

@[simp]
theorem isScalar_scalar (a : ZMod G.q) : G.isScalar (some (G.scalar a)) = true := by
  simpa [isScalar] using G.scalar_bounds a

/-- The scalars are the representatives of the exponents. -/
theorem isScalar_iff {s : Option ℤ} : G.isScalar s = true ↔ ∃ a, s = some (G.scalar a) := by
  constructor
  · intro h
    cases s with
    | none => simp [isScalar] at h
    | some s =>
      have bounds : 0 ≤ s ∧ s < G.q := by simpa [isScalar] using h
      exact ⟨s, by rw [G.scalar_cast_of_bounds bounds]⟩
  · rintro ⟨a, rfl⟩
    exact G.isScalar_scalar a

theorem exists_scalar {s : ℤ} (h : G.isScalar (some s) = true) : ∃ a, s = G.scalar a := by
  obtain ⟨a, ha⟩ := G.isScalar_iff.1 h
  exact ⟨a, Option.some.inj ha⟩

/-- The numbers in `[1, q - 1]` are the representatives of the exponents other than zero. -/
theorem exists_nonzero_scalar {s : ℤ} (hs : 0 < s ∧ s < G.q) : ∃ a ≠ 0, s = G.scalar a := by
  have same : G.scalar s = s := G.scalar_cast_of_bounds ⟨hs.1.le, hs.2⟩
  refine ⟨s, fun zero => ?_, same.symm⟩
  rw [zero, scalar_zero] at same
  omega

theorem scalar_pos {a : ZMod G.q} (ha : a ≠ 0) : 0 < G.scalar a := by
  have positive := ZMod.val_pos.2 ha
  rw [scalar]
  omega

/-- Lists of scalars are lists of representatives. -/
theorem exists_scalars {xs : List ℤ} (h : ∀ x ∈ xs, G.isScalar (some x) = true) :
    ∃ as : List (ZMod G.q), xs = as.map G.scalar :=
  exists_map_of_forall_mem fun x hx => G.exists_scalar (h x hx)

@[simp]
theorem toScalar_eq (x : ℤ) : G.toScalar x = .ok (G.scalar x) := by
  rw [toScalar, Modular.reduce, if_neg accepted.prime_order.ne_zero, scalar_intCast]

@[simp]
theorem scalarAdd_eq (x y : ℤ) : G.scalarAdd x y = .ok (G.scalar (x + y)) := by
  rw [scalarAdd, Modular.add, if_neg accepted.prime_order.ne_zero, ← Int.cast_add, scalar_intCast]

@[simp]
theorem scalarSub_eq (x y : ℤ) : G.scalarSub x y = .ok (G.scalar (x - y)) := by
  rw [scalarSub, Modular.sub, if_neg accepted.prime_order.ne_zero, ← Int.cast_sub, scalar_intCast]

@[simp]
theorem scalarMul_eq (x y : ℤ) : G.scalarMul x y = .ok (G.scalar (x * y)) := by
  rw [scalarMul, Modular.mul, if_neg accepted.prime_order.ne_zero, ← Int.cast_mul, scalar_intCast]

@[simp]
theorem scalarNeg_eq (x : ℤ) : G.scalarNeg x = .ok (G.scalar (-x)) := by
  rw [scalarNeg, scalarSub_eq, Int.cast_zero, zero_sub]

theorem scalarSum_eq (xs : List ℤ) : G.scalarSum xs = .ok (G.scalar (xs.map Int.cast).sum) := by
  have step : ∀ b : ZMod G.q, ∀ x ∈ xs, G.scalarAdd (G.scalar b) x = .ok (G.scalar (b + (x : ℤ))) :=
    fun b x _ => by rw [scalarAdd_eq, cast_scalar]
  rw [scalarSum, ← G.scalar_zero, Result.foldlM_sum step, zero_add]

theorem scalarProd_eq (xs : List ℤ) : G.scalarProd xs = .ok (G.scalar (xs.map Int.cast).prod) := by
  have step : ∀ b : ZMod G.q, ∀ x ∈ xs, G.scalarMul (G.scalar b) x = .ok (G.scalar (b * (x : ℤ))) :=
    fun b x _ => by rw [scalarMul_eq, cast_scalar]
  rw [scalarProd, ← G.scalar_one, Result.foldlM_prod step, one_mul]

theorem scalarDot_eq (xs ys : List ℤ) :
    G.scalarDot xs ys = .ok (G.scalar (dot (xs.map Int.cast) (ys.map Int.cast))) := by
  rw [scalarDot, Result.mapM_eq_ok (g := fun xy => G.scalar (xy.1 * xy.2))
    fun xy _ => G.scalarMul_eq xy.1 xy.2, Result.ok_bind, scalarSum_eq, List.map_map,
    ← sum_map_zip, List.zip_map, List.map_map]
  simp only [Function.comp_def, cast_scalar, Prod.map_fst, Prod.map_snd]

@[simp]
theorem map_cast_scalars (as : List (ZMod G.q)) :
    (as.map G.scalar).map (Int.cast : ℤ → ZMod G.q) = as := by
  simp [Function.comp_def]

end BallotMix.Group
