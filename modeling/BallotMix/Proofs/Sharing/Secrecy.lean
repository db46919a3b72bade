import BallotMix.Proofs.Sharing.Interpolation
import Mathlib

/-!
# What fewer shares show

Fewer shares than needed would show nothing if the coefficients next to the secret were any scalars:
every secret has equally many lists of them that fit the shares (`ncard_valueAt`), and a multiple of
the polynomial that vanishes at the places of the shares takes one secret to another
(`valueAt_moved`).  But a dealer draws no coefficient that is zero.  So of the lists that fit those
with a zero are missing, and their number depends on the secret (`dealSecret_shows`): shares that one
secret can have are impossible for some others, though for no more of them than there are shares.
-/

namespace BallotMix.Sharing

open Polynomial

/-! ## Lists and polynomials -/

section

variable {q : ℕ}

/-- The polynomials of degree below `m` are those of the lists of `m` coefficients. -/
theorem exists_polyOf {m : ℕ} {f : (ZMod q)[X]} (small : f.degree < m) :
    ∃ as : List (ZMod q), as.length = m ∧ polyOf as = f :=
  ⟨(List.range m).map f.coeff, by simp, polyOf_map_coeff small⟩

theorem polyOf_injOn (m : ℕ) : Set.InjOn (polyOf (q := q)) {as | as.length = m} := by
  intro as has bs hbs same
  refine List.ext_getElem (has.trans hbs.symm) fun j low low' => ?_
  have coefficient := congrArg (fun f => f.coeff j) same
  rwa [coeff_polyOf, coeff_polyOf, List.getD_eq_getElem _ _ low,
    List.getD_eq_getElem _ _ low'] at coefficient

theorem ncard_length_eq [NeZero q] (m : ℕ) : {as : List (ZMod q) | as.length = m}.ncard = q ^ m := by
  have vectors : Fintype.card (List.Vector (ZMod q) m) = q ^ m := by
    rw [card_vector, ZMod.card]
  rw [← vectors, ← Nat.card_eq_fintype_card]
  rfl

end

/-! ## Values at few places -/

section

variable {q : ℕ} [Fact q.Prime] {places : Finset UInt64}

/-- The polynomial that vanishes at the places. -/
noncomputable def vanishing (q : ℕ) (places : Finset UInt64) : (ZMod q)[X] :=
  Lagrange.nodal places (place q)

theorem eval_vanishing {i : UInt64} (hi : i ∈ places) : (vanishing q places).eval (place q i) = 0 :=
  Lagrange.eval_nodal_at_node hi

theorem degree_vanishing_mul_lt_iff {m : ℕ} (few : places.card ≤ m) (g : (ZMod q)[X]) :
    (vanishing q places * g).degree < m ↔ g.degree < (m - places.card : ℕ) := by
  obtain ⟨k, rfl⟩ := Nat.exists_eq_add_of_le few
  rw [vanishing, degree_mul, Lagrange.degree_nodal, Nat.add_sub_cancel_left, Nat.cast_add]
  exact WithBot.add_lt_add_iff_left (WithBot.natCast_ne_bot _)

/-- The polynomials of small degree with given values at the places are one of them and all that
differ from it by a multiple of the polynomial that vanishes. -/
theorem eval_eq_iff (inj : Set.InjOn (place q) places) {m : ℕ} (few : places.card ≤ m)
    (v : UInt64 → ZMod q) (f : (ZMod q)[X]) :
    (f.degree < m ∧ ∀ i ∈ places, f.eval (place q i) = v i) ↔
      ∃ g : (ZMod q)[X], g.degree < (m - places.card : ℕ) ∧
        Lagrange.interpolate places (place q) v + vanishing q places * g = f := by
  have small : (Lagrange.interpolate places (place q) v).degree < m :=
    (Lagrange.degree_interpolate_lt v inj).trans_le (by exact_mod_cast few)
  constructor
  · rintro ⟨low, values⟩
    have split := modByMonic_add_div f (vanishing q places)
    have rest : f %ₘ vanishing q places = Lagrange.interpolate places (place q) v := by
      refine Lagrange.eq_interpolate_of_eval_eq v inj ?_ fun i hi => ?_
      · rw [← Lagrange.degree_nodal (v := place q)]
        exact degree_modByMonic_lt f Lagrange.nodal_monic
      · have value := congrArg (eval (place q i)) split
        rwa [eval_add, eval_mul, eval_vanishing hi, zero_mul, add_zero, values i hi] at value
    rw [rest] at split
    refine ⟨f /ₘ vanishing q places, ?_, split⟩
    rw [← degree_vanishing_mul_lt_iff few, eq_sub_of_add_eq' split]
    exact (degree_sub_le _ _).trans_lt (max_lt low small)
  · rintro ⟨g, hg, rfl⟩
    refine ⟨(degree_add_le _ _).trans_lt
      (max_lt small ((degree_vanishing_mul_lt_iff few g).2 hg)), fun i hi => ?_⟩
    rw [eval_add, eval_mul, eval_vanishing hi, zero_mul, add_zero,
      Lagrange.eval_interpolate_at_node v inj hi]

/-- Lists of `m` coefficients with given values at `k` places are as many as lists of `m - k`. -/
theorem ncard_valueAt_eq (inj : Set.InjOn (place q) places) {m : ℕ} (few : places.card ≤ m)
    (v : UInt64 → ZMod q) :
    {as : List (ZMod q) | as.length = m ∧ ∀ i ∈ places, valueAt as i = v i}.ncard
      = q ^ (m - places.card) := by
  have free : Set.InjOn (fun bs : List (ZMod q) =>
      Lagrange.interpolate places (place q) v + vanishing q places * polyOf bs)
      {bs | bs.length = m - places.card} := by
    intro bs hbs bs' hbs' same
    exact polyOf_injOn _ hbs hbs' (mul_left_cancel₀ Lagrange.nodal_ne_zero (add_left_cancel same))
  have fitting : Set.InjOn (polyOf (q := q))
      {as | as.length = m ∧ ∀ i ∈ places, valueAt as i = v i} :=
    (polyOf_injOn m).mono fun as has => has.1
  rw [← ncard_length_eq, ← free.ncard_image, ← fitting.ncard_image]
  congr 1
  ext f
  constructor
  · rintro ⟨as, ⟨rfl, values⟩, rfl⟩
    obtain ⟨g, hg, split⟩ := (eval_eq_iff inj few v _).1 ⟨degree_polyOf_lt as, values⟩
    obtain ⟨bs, length, rfl⟩ := exists_polyOf hg
    exact ⟨bs, length, split⟩
  · rintro ⟨bs, hbs, rfl⟩
    obtain ⟨low, values⟩ := (eval_eq_iff inj few v _).2
      ⟨polyOf bs, hbs ▸ degree_polyOf_lt bs, rfl⟩
    obtain ⟨as, length, has⟩ := exists_polyOf low
    exact ⟨as, ⟨length, fun i hi => (congrArg (eval (place q i)) has).trans (values i hi)⟩, has⟩

/-! ## Moving the secret -/

theorem valueAt_cons (a : ZMod q) (as : List (ZMod q)) (i : UInt64) :
    valueAt (a :: as) i = valueAt as i * place q i + a := by
  simp [valueAt, place]

/-- The coefficients after the first of the polynomial that vanishes at the places and is one at
zero. -/
noncomputable def mask (q : ℕ) (places : Finset UInt64) (j : ℕ) : ZMod q :=
  ((vanishing q places).coeff 0)⁻¹ * (vanishing q places).coeff (j + 1)

theorem mask_eq_zero {j : ℕ} (high : places.card ≤ j) : mask q places j = 0 := by
  have beyond : (vanishing q places).degree < (j + 1 : ℕ) := by
    rw [vanishing, Lagrange.degree_nodal]
    exact_mod_cast Nat.lt_succ_of_le high
  rw [mask, coeff_eq_zero_of_degree_lt beyond, mul_zero]

/-- The coefficients that fit the secret `b` as the coefficients `as` fit the secret `a`. -/
noncomputable def moved (places : Finset UInt64) (a b : ZMod q) (as : List (ZMod q)) :
    List (ZMod q) :=
  as.mapIdx fun j c => c + (b - a) * mask q places j

theorem polyOf_moved (nonzero : ∀ i ∈ places, place q i ≠ 0) (a b : ZMod q) {as : List (ZMod q)}
    (few : places.card ≤ as.length) :
    polyOf (b :: moved places a b as)
      = polyOf (a :: as) + C ((b - a) * ((vanishing q places).coeff 0)⁻¹) * vanishing q places := by
  have constant : (vanishing q places).coeff 0 ≠ 0 := by
    rw [coeff_zero_eq_eval_zero]
    exact Lagrange.eval_nodal_not_at_node fun i hi => (nonzero i hi).symm
  ext j
  rw [coeff_add, coeff_C_mul, coeff_polyOf, coeff_polyOf]
  cases j with
  | zero =>
    rw [List.getD_cons_zero, List.getD_cons_zero, mul_assoc, inv_mul_cancel₀ constant]
    ring
  | succ j =>
    rw [List.getD_cons_succ, List.getD_cons_succ, mul_assoc]
    rcases lt_or_ge j as.length with low | high
    · simp [moved, List.getD_eq_getElem?_getD, low, mask]
    · have none := mask_eq_zero (q := q) (few.trans high)
      rw [mask] at none
      simp [moved, List.getD_eq_getElem?_getD, high, none]

/-- The shares at the places stay. -/
theorem valueAt_moved (nonzero : ∀ i ∈ places, place q i ≠ 0) (a b : ZMod q) {as : List (ZMod q)}
    (few : places.card ≤ as.length) {i : UInt64} (hi : i ∈ places) :
    valueAt (b :: moved places a b as) i = valueAt (a :: as) i := by
  show eval (place q i) _ = eval (place q i) _
  rw [polyOf_moved nonzero a b few, eval_add, eval_mul, eval_vanishing hi, mul_zero, add_zero]

/-- The secrets to which coefficients other than zero move with a zero are no more than the places. -/
theorem ncard_zero_mem_moved_le (a : ZMod q) {as : List (ZMod q)} (nonzero : 0 ∉ as) :
    {b | 0 ∈ moved places a b as}.ncard ≤ places.card := by
  have covered : {b | 0 ∈ moved places a b as} ⊆
      (Finset.range places.card).image fun j => a - as.getD j 0 / mask q places j := by
    intro b hb
    obtain ⟨j, low, hj⟩ := List.mem_mapIdx.1 hb
    have own : as[j] ≠ 0 := fun zero => nonzero (zero ▸ List.getElem_mem low)
    have factor : mask q places j ≠ 0 := by
      intro zero
      rw [zero, mul_zero, add_zero] at hj
      exact own hj
    have few : j < places.card := not_le.1 (mt mask_eq_zero factor)
    refine Finset.mem_coe.2 (Finset.mem_image.2 ⟨j, Finset.mem_range.2 few, ?_⟩)
    rw [List.getD_eq_getElem _ _ low, eq_neg_of_add_eq_zero_left hj]
    field_simp
    ring
  refine (Set.ncard_le_ncard covered (Finset.finite_toSet _)).trans ?_
  rw [Set.ncard_coe_finset]
  exact Finset.card_image_le.trans (Finset.card_range _).le

end

/-! ## Dealings -/

/-- The dealing gives the places the secrets. -/
def Shows (dealing : Dealing) (places : Finset UInt64) (secrets : UInt64 → ℤ) : Prop :=
  ∀ i ∈ places, ∃ share ∈ dealing.shares, share.index = i ∧ share.secret = some (secrets i)

/-- The scalars, as many as a dealer draws, which after the secret `x` give the places the
secrets. -/
def fitting (G : Group) (x : ℤ) (t n : UInt64) (places : Finset UInt64) (secrets : UInt64 → ℤ) :
    Set (List ℤ) :=
  {others | others.length = t.toNat - 1 ∧ (∀ a ∈ others, G.isScalar (some a) = true) ∧
    ∃ dealing, dealPoly G (x :: others) n.toNat = .ok dealing ∧ Shows dealing places secrets}

/-- The scalars that a dealer of the secret `x` can draw so as to give the places the secrets. -/
def drawable (G : Group) (x : ℤ) (t n : UInt64) (places : Finset UInt64) (secrets : UInt64 → ℤ) :
    Set (List ℤ) :=
  {others | ∃ (σ : Type) (_ : Source σ) (s s' : σ) (dealing : Dealing),
    (G.randomExponents (t.toNat - 1)).Returns s others s' ∧
    (dealSecret G ⟨some x⟩ t n).Returns s dealing s' ∧ Shows dealing places secrets}

variable {G : Group} [accepted : G.Accepted]

theorem shareOf_mem_sharesOf (as : List (ZMod G.q)) {i n : UInt64} (nonzero : i ≠ 0) (low : i ≤ n) :
    shareOf G as i ∈ sharesOf G as n := by
  have positive : i.toNat ≠ 0 := fun zero => nonzero (UInt64.toNat_inj.1 zero)
  have bound := UInt64.le_iff_toNat_le.1 low
  refine List.mem_map.2 ⟨i.toNat - 1, List.mem_range.2 (by omega), ?_⟩
  rw [Nat.sub_add_cancel (by omega), UInt64.ofNat_toNat]

section

variable {x : ℤ} {t n : UInt64} {places : Finset UInt64} {secrets : UInt64 → ℤ}

theorem shows_iff {key : PublicKey} {commitments : Commitments} {as : List (ZMod G.q)}
    (within : ∀ i ∈ places, i ≠ 0 ∧ i ≤ n)
    (scalars : ∀ i ∈ places, G.isScalar (some (secrets i)) = true) :
    Shows ⟨key, commitments, sharesOf G as n⟩ places secrets ↔
      ∀ i ∈ places, valueAt as i = (secrets i : ZMod G.q) := by
  refine forall₂_congr fun i hi => ?_
  obtain ⟨nonzero, low⟩ := within i hi
  obtain ⟨v, hv⟩ := G.exists_scalar (scalars i hi)
  rw [hv, G.cast_scalar]
  constructor
  · rintro ⟨share, hshare, rfl, secret⟩
    rw [(eq_shareOf_of_mem hshare).1] at secret
    exact G.scalar_injective (Option.some.inj secret)
  · rintro rfl
    exact ⟨_, shareOf_mem_sharesOf as nonzero low, rfl, rfl⟩

/-- The scalars that fit are those of the coefficients whose polynomial has the values. -/
theorem fitting_eq (within : ∀ i ∈ places, i ≠ 0 ∧ i ≤ n)
    (scalars : ∀ i ∈ places, G.isScalar (some (secrets i)) = true) (a : ZMod G.q) :
    fitting G (G.scalar a) t n places secrets = List.map G.scalar '' {as | as.length = t.toNat - 1 ∧
      ∀ i ∈ places, valueAt (a :: as) i = (secrets i : ZMod G.q)} := by
  ext others
  constructor
  · rintro ⟨length, members, dealing, made, shown⟩
    obtain ⟨as, rfl⟩ := G.exists_scalars members
    rw [← List.map_cons, dealPoly_eq, Except.ok.injEq] at made
    subst made
    rw [List.length_map] at length
    exact ⟨as, ⟨length, (shows_iff within scalars).1 shown⟩, rfl⟩
  · rintro ⟨as, ⟨length, values⟩, rfl⟩
    refine ⟨by rwa [List.length_map], ?_, _, dealPoly_eq G a as n,
      (shows_iff within scalars).2 values⟩
    exact List.forall_mem_map.2 fun b _ => G.isScalar_scalar b

theorem zero_mem_map_scalar_iff {as : List (ZMod G.q)} : 0 ∈ as.map G.scalar ↔ 0 ∈ as := by
  rw [← G.scalar_zero, List.mem_map_of_injective G.scalar_injective]

/-- A dealer can draw the scalars that fit unless one is zero. -/
theorem drawable_eq (positive : t ≠ 0) (enough : t ≤ n) {a : ZMod G.q} (ha : a ≠ 0) :
    drawable G (G.scalar a) t n places secrets
      = {others ∈ fitting G (G.scalar a) t n places secrets | 0 ∉ others} := by
  ext others
  constructor
  · rintro ⟨σ, _, s, s', dealing, drawn, dealt, shown⟩
    obtain ⟨-, -, a', as, -, same, length, drawn', rfl⟩ := dealSecret_returns dealt
    obtain rfl := G.scalar_injective same
    obtain ⟨rfl, -⟩ := drawn.unique drawn'
    obtain ⟨as', -, nonzero, same⟩ := G.randomExponents_returns drawn
    obtain rfl := List.map_injective_iff.2 G.scalar_injective same
    refine ⟨⟨by rwa [List.length_map], ?_, _, dealPoly_eq G a as n, shown⟩, ?_⟩
    · exact List.forall_mem_map.2 fun b _ => G.isScalar_scalar b
    · exact fun zero => nonzero 0 (zero_mem_map_scalar_iff.1 zero) rfl
  · rintro ⟨⟨length, members, dealing, made, shown⟩, nonzero⟩
    obtain ⟨as, rfl⟩ := G.exists_scalars members
    rw [List.length_map] at length
    rw [zero_mem_map_scalar_iff] at nonzero
    obtain ⟨σ, source, s, s', drawn⟩ := G.yields_randomExponents fun b hb zero =>
      nonzero (zero ▸ hb)
    rw [length] at drawn
    refine ⟨σ, source, s, s', dealing, drawn, ?_, shown⟩
    exact dealSecret_returns_iff.2
      ⟨⟨positive, enough⟩, _, _, G.ensureExponent_scalar ha _, drawn, made⟩

/-! ## Counting -/

/-- Places that are numbers below the order are apart and are not zero. -/
theorem place_of_lt (few : n.toNat < G.q) (within : ∀ i ∈ places, i ≠ 0 ∧ i ≤ n) :
    Set.InjOn (place G.q) places ∧ ∀ i ∈ places, place G.q i ≠ 0 := by
  have low (i : UInt64) (hi : i ∈ places) : i.toNat < G.q :=
    (UInt64.le_iff_toNat_le.1 (within i hi).2).trans_lt few
  refine ⟨fun i hi j hj => eq_of_place_eq (low i hi) (low j hj), fun i hi zero => ?_⟩
  have value := val_place (low i hi)
  rw [zero, ZMod.val_zero] at value
  exact (within i hi).1 (UInt64.toNat_inj.1 value.symm)

theorem exists_scalar_of_lt {x : ℤ} (positive : 0 < x) (low : x < G.q) :
    ∃ a : ZMod G.q, a ≠ 0 ∧ x = G.scalar a := by
  have same := G.scalar_cast_of_bounds ⟨positive.le, low⟩
  refine ⟨x, fun zero => ?_, same.symm⟩
  rw [zero, G.scalar_zero] at same
  exact positive.ne same

theorem ncard_fitting (few : n.toNat < G.q) (within : ∀ i ∈ places, i ≠ 0 ∧ i ≤ n)
    (fewer : places.card < t.toNat) (scalars : ∀ i ∈ places, G.isScalar (some (secrets i)) = true)
    (a : ZMod G.q) :
    (fitting G (G.scalar a) t n places secrets).ncard = G.q ^ (t.toNat - 1 - places.card) := by
  obtain ⟨inj, nonzero⟩ := place_of_lt few within
  rw [fitting_eq within scalars,
    Set.ncard_image_of_injective _ (List.map_injective_iff.2 G.scalar_injective),
    ← ncard_valueAt_eq inj (by omega) fun i => ((secrets i : ZMod G.q) - a) / place G.q i]
  congr 1
  ext as
  refine and_congr_right fun _ => forall₂_congr fun i hi => ?_
  rw [valueAt_cons, eq_div_iff (nonzero i hi), eq_sub_iff_add_eq]

theorem ne_zero_of_fewer (fewer : places.card < t.toNat) : t ≠ 0 := by
  rintro rfl
  exact absurd fewer (Nat.not_lt_zero _)

/-- If the shares are possible for a secret, they are impossible for at most as many as there are. -/
theorem ncard_drawable_eq_empty_le (enough : t ≤ n) (few : n.toNat < G.q)
    (within : ∀ i ∈ places, i ≠ 0 ∧ i ≤ n) (fewer : places.card < t.toNat)
    (scalars : ∀ i ∈ places, G.isScalar (some (secrets i)) = true) {a : ZMod G.q} (ha : a ≠ 0)
    (possible : (drawable G (G.scalar a) t n places secrets).Nonempty) :
    {x : ℤ | 0 < x ∧ x < G.q ∧ drawable G x t n places secrets = ∅}.ncard ≤ places.card := by
  have apart := (place_of_lt few within).2
  rw [drawable_eq (ne_zero_of_fewer fewer) enough ha, fitting_eq within scalars] at possible
  obtain ⟨_, ⟨as, ⟨length, values⟩, rfl⟩, nonzero⟩ := possible
  rw [zero_mem_map_scalar_iff] at nonzero
  have covered : {x : ℤ | 0 < x ∧ x < G.q ∧ drawable G x t n places secrets = ∅} ⊆
      G.scalar '' {b | 0 ∈ moved places a b as} := by
    rintro x ⟨above, below, impossible⟩
    obtain ⟨b, hb, rfl⟩ := exists_scalar_of_lt above below
    refine ⟨b, ?_, rfl⟩
    by_contra apartFromZero
    rw [drawable_eq (ne_zero_of_fewer fewer) enough hb, fitting_eq within scalars] at impossible
    refine Set.notMem_empty ((moved places a b as).map G.scalar) (impossible ▸ ?_)
    refine ⟨⟨_, ⟨by rwa [moved, List.length_mapIdx], fun i hi => ?_⟩, rfl⟩,
      fun zero => apartFromZero (zero_mem_map_scalar_iff.1 zero)⟩
    rw [valueAt_moved apart a b (by omega) hi, values i hi]
  calc _ ≤ (G.scalar '' {b | 0 ∈ moved places a b as}).ncard :=
        Set.ncard_le_ncard covered (Set.toFinite _)
    _ ≤ {b | 0 ∈ moved places a b as}.ncard := Set.ncard_image_le (Set.toFinite _)
    _ ≤ places.card := ncard_zero_mem_moved_le a nonzero

/-- What fewer shares than needed show.  Every secret has the same number of lists of scalars that fit
the shares.  A dealer can draw those without a zero, so two secrets have equally many that can be
drawn exactly if they have equally many with a zero.  Shares that are possible for one secret are
impossible for at most as many secrets as there are shares. -/
theorem dealSecret_shows (enough : t ≤ n) (few : n.toNat < G.q)
    (within : ∀ i ∈ places, i ≠ 0 ∧ i ≤ n) (fewer : places.card < t.toNat)
    (scalars : ∀ i ∈ places, G.isScalar (some (secrets i)) = true) :
    (∀ x : ℤ, 0 < x → x < G.q →
      (fitting G x t n places secrets).ncard = G.q ^ (t.toNat - 1 - places.card) ∧
      drawable G x t n places secrets = {others ∈ fitting G x t n places secrets | 0 ∉ others}) ∧
    (∀ x x' : ℤ, 0 < x → x < G.q → 0 < x' → x' < G.q →
      ((drawable G x t n places secrets).ncard = (drawable G x' t n places secrets).ncard ↔
        {others ∈ fitting G x t n places secrets | 0 ∈ others}.ncard
          = {others ∈ fitting G x' t n places secrets | 0 ∈ others}.ncard)) ∧
    ∀ x : ℤ, 0 < x → x < G.q → (drawable G x t n places secrets).Nonempty →
      {x' : ℤ | 0 < x' ∧ x' < G.q ∧ drawable G x' t n places secrets = ∅}.ncard ≤ places.card := by
  have counts (x : ℤ) (above : 0 < x) (below : x < G.q) :
      (fitting G x t n places secrets).ncard = G.q ^ (t.toNat - 1 - places.card) ∧
      drawable G x t n places secrets
        = {others ∈ fitting G x t n places secrets | 0 ∉ others} := by
    obtain ⟨a, ha, rfl⟩ := exists_scalar_of_lt above below
    exact ⟨ncard_fitting few within fewer scalars a,
      drawable_eq (ne_zero_of_fewer fewer) enough ha⟩
  have complement (x : ℤ) (above : 0 < x) (below : x < G.q) :
      {others ∈ fitting G x t n places secrets | 0 ∈ others}.ncard
        + (drawable G x t n places secrets).ncard = G.q ^ (t.toNat - 1 - places.card) := by
    obtain ⟨count, without⟩ := counts x above below
    have finite : (fitting G x t n places secrets).Finite := by
      refine Set.finite_of_ncard_ne_zero ?_
      rw [count]
      exact pow_ne_zero _ accepted.prime_order.ne_zero
    rw [without, ← count]
    exact Set.ncard_inter_add_ncard_sdiff_eq_ncard _ {others | 0 ∈ others} finite
  refine ⟨counts, fun x x' above below above' below' => ?_, fun x above below possible => ?_⟩
  · have total := complement x above below
    have total' := complement x' above' below'
    omega
  · obtain ⟨a, ha, rfl⟩ := exists_scalar_of_lt above below
    exact ncard_drawable_eq_empty_le enough few within fewer scalars ha possible

end

/-- One share of three, when three are needed. -/
theorem dealSecret_shows_least :
    (fitting Group.least 7 3 3 {2} fun _ => 5).ncard = Group.least.q ∧
      drawable Group.least 7 3 3 {2} (fun _ => 5)
        = {others ∈ fitting Group.least 7 3 3 {2} fun _ => 5 | 0 ∉ others} := by
  have within : ∀ i ∈ ({2} : Finset UInt64), i ≠ 0 ∧ i ≤ 3 := by simp
  have fewer : ({2} : Finset UInt64).card < (3 : UInt64).toNat := by simp
  have scalars : ∀ i ∈ ({2} : Finset UInt64), Group.least.isScalar (some 5) = true :=
    fun _ _ => by decide
  obtain ⟨counts, -⟩ := dealSecret_shows (G := Group.least) (t := 3) (n := 3) (by decide)
    (by decide) within fewer scalars
  obtain ⟨count, without⟩ := counts 7 (by decide) (by decide)
  exact ⟨count.trans (pow_one _), without⟩

/-- When two shares of two are needed, one leaves one coefficient, which must not be zero. -/
theorem drawable_two {a : ZMod G.q} (ha : a ≠ 0) (v : ZMod G.q) :
    drawable G (G.scalar a) 2 2 {1} (fun _ => G.scalar v)
      = {others | others = [G.scalar (v - a)] ∧ v ≠ a} := by
  have value (b : ZMod G.q) : valueAt [a, b] 1 = b + a := by
    simp [valueAt]
  rw [drawable_eq (by decide) (by decide) ha, fitting_eq (by simp) (by simp)]
  ext others
  constructor
  · rintro ⟨⟨as, ⟨length, values⟩, rfl⟩, nonzero⟩
    obtain ⟨b, rfl⟩ := List.length_eq_one_iff.1 length
    have fits : b + a = v := by
      simpa [value] using values 1 (by simp)
    subst fits
    rw [zero_mem_map_scalar_iff] at nonzero
    simpa [eq_comm] using nonzero
  · rintro ⟨rfl, ne⟩
    refine ⟨⟨[v - a], ⟨rfl, by simp [value]⟩, rfl⟩, ?_⟩
    rw [← List.map_singleton, zero_mem_map_scalar_iff]
    simpa [sub_eq_zero, eq_comm] using ne

/-- One share of two, when two are needed, is not the secret. -/
theorem share_is_not_secret :
    (drawable Group.least 5 2 2 {1} fun _ => 5).ncard = 0 ∧
      (drawable Group.least 7 2 2 {1} fun _ => 5).ncard = 1 := by
  obtain ⟨a, ha, five⟩ := exists_scalar_of_lt (G := Group.least) (x := 5) (by decide) (by decide)
  obtain ⟨b, hb, seven⟩ := exists_scalar_of_lt (G := Group.least) (x := 7) (by decide) (by decide)
  have apart : a ≠ b := by
    rintro rfl
    exact absurd (five.trans seven.symm) (by decide)
  rw [five, seven, drawable_two ha, drawable_two hb]
  constructor
  · simp
  · simp [apart]

end BallotMix.Sharing
