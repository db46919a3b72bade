import BallotMix.Entropy.Source
import BallotMix.Number.Basic
import Mathlib

/-!
# Computations that may fail

How a successful run comes apart into its steps.  For a `Result` this is inversion of `>>=`,
`List.mapM` and `List.foldlM`; for a `Draw` it is the relation `Draw.Returns`, which says that a
computation started on one state of its source gives a value and leaves the source in another.
-/

namespace BallotMix

variable {α β γ : Type}

/-- A list whose entries all have one form has it as a list. -/
theorem exists_map_of_forall_mem {g : γ → α} {xs : List α} (h : ∀ x ∈ xs, ∃ c, x = g c) :
    ∃ cs : List γ, xs = cs.map g := by
  have covered : xs ∈ Set.range (List.map g) := by
    rw [Set.range_list_map]
    intro x hx
    obtain ⟨c, rfl⟩ := h x hx
    exact Set.mem_range_self c
  obtain ⟨cs, rfl⟩ := covered
  exact ⟨cs, rfl⟩

/-! ## Results -/

namespace Result

@[simp]
theorem pure_eq_ok (a : α) : (pure a : Result α) = .ok a := rfl

@[simp]
theorem throw_eq_error (e : Error) : (throw e : Result α) = .error e := rfl

@[simp]
theorem ok_bind (a : α) (f : α → Result β) : (Except.ok a : Result α) >>= f = f a := rfl

@[simp]
theorem error_bind (e : Error) (f : α → Result β) :
    (Except.error e : Result α) >>= f = .error e := rfl

theorem bind_eq_ok_iff {x : Result α} {f : α → Result β} {b : β} :
    x >>= f = .ok b ↔ ∃ a, x = .ok a ∧ f a = .ok b := by
  cases x <;> simp

theorem exists_bind {x : Result α} {f : α → Result β} (hx : ∃ a, x = .ok a)
    (hf : ∀ a, ∃ b, f a = .ok b) : ∃ b, x >>= f = .ok b := by
  obtain ⟨a, rfl⟩ := hx
  exact hf a

/-- Two continuations that agree on what a step can give make the same run. -/
theorem bind_congr_of_ok {x : Result α} {f g : α → Result β} (h : ∀ a, x = .ok a → f a = g a) :
    x >>= f = x >>= g := by
  cases x with
  | error e => rfl
  | ok a => exact h a rfl

/-- A guard is passed by every run that succeeds. -/
theorem ite_error_eq_ok_iff {c : Prop} [Decidable c] {e : Error} {x : Result α} {a : α} :
    (if c then .error e else x) = .ok a ↔ ¬ c ∧ x = .ok a := by
  split <;> simp [*]

/-- A check that ends a run with `false` is passed by every run that ends with `true`. -/
theorem ite_false_eq_true_iff {c : Prop} [Decidable c] {x : Result Bool} :
    (if c then .ok false else x) = .ok true ↔ ¬ c ∧ x = .ok true := by
  split <;> simp [*]

/-- A list of steps that all succeed gives the list of their values. -/
theorem mapM_eq_ok {f : α → Result β} {g : α → β} {xs : List α}
    (h : ∀ x ∈ xs, f x = .ok (g x)) : xs.mapM f = .ok (xs.map g) := by
  induction xs with
  | nil => rfl
  | cons x xs ih =>
    rw [List.mapM_cons, h x List.mem_cons_self, ok_bind,
      ih fun y hy => h y (List.mem_cons_of_mem x hy)]
    rfl

/-- Two functions that agree on a list make the same run over it. -/
theorem mapM_congr {f g : α → Result β} {xs : List α} (h : ∀ x ∈ xs, f x = g x) :
    xs.mapM f = xs.mapM g := by
  induction xs with
  | nil => rfl
  | cons x xs ih =>
    rw [List.mapM_cons, List.mapM_cons, h x List.mem_cons_self,
      ih fun y hy => h y (List.mem_cons_of_mem x hy)]

/-- A list of steps that all succeed succeeds. -/
theorem exists_mapM {f : α → Result β} {xs : List α} (h : ∀ x ∈ xs, ∃ y, f x = .ok y) :
    ∃ ys, xs.mapM f = .ok ys := by
  induction xs with
  | nil => exact ⟨[], rfl⟩
  | cons x xs ih =>
    obtain ⟨y, hy⟩ := h x List.mem_cons_self
    obtain ⟨ys, hys⟩ := ih fun z hz => h z (List.mem_cons_of_mem x hz)
    refine ⟨y :: ys, ?_⟩
    rw [List.mapM_cons, hy, ok_bind, hys]
    rfl

/-- The values of a list of steps belong to the steps one by one. -/
theorem mapM_eq_ok_iff {f : α → Result β} {xs : List α} {ys : List β} :
    xs.mapM f = .ok ys ↔ List.Forall₂ (fun x y => f x = .ok y) xs ys := by
  induction xs generalizing ys with
  | nil => simp [eq_comm]
  | cons x xs ih =>
    rw [List.mapM_cons, List.forall₂_cons_left_iff]
    simp only [bind_eq_ok_iff, ih, pure_eq_ok, Except.ok.injEq]
    constructor
    · rintro ⟨y, hy, zs, hzs, rfl⟩
      exact ⟨y, zs, hy, hzs, rfl⟩
    · rintro ⟨y, zs, hy, hzs, rfl⟩
      exact ⟨y, hy, zs, hzs, rfl⟩

theorem exists_of_mapM {f : α → Result β} {xs : List α} {ys : List β} (h : xs.mapM f = .ok ys)
    {x : α} (hx : x ∈ xs) : ∃ y ∈ ys, f x = .ok y := by
  rw [mapM_eq_ok_iff] at h
  induction h with
  | nil => cases hx
  | cons head _ ih =>
    rcases List.mem_cons.1 hx with rfl | hx
    · exact ⟨_, List.mem_cons_self, head⟩
    · obtain ⟨y, hy, hxy⟩ := ih hx
      exact ⟨y, List.mem_cons_of_mem _ hy, hxy⟩

/-- If every step that succeeds gives a value of one form, so does a list of steps. -/
theorem exists_map_of_mapM {f : α → Result β} {g : γ → β} {xs : List α} {ys : List β}
    (hf : ∀ x y, f x = .ok y → ∃ c, y = g c) (h : xs.mapM f = .ok ys) :
    ∃ cs : List γ, ys = cs.map g ∧ cs.length = xs.length := by
  rw [mapM_eq_ok_iff] at h
  induction h with
  | nil => exact ⟨[], rfl, rfl⟩
  | cons head _ ih =>
    obtain ⟨c, rfl⟩ := hf _ _ head
    obtain ⟨cs, rfl, length⟩ := ih
    exact ⟨c :: cs, rfl, by rw [List.length_cons, length, List.length_cons]⟩

/-- A fold whose steps all succeed is the fold of their values. -/
theorem foldlM_eq_ok {f : β → α → Result β} {g : β → α → β} {xs : List α} {b : β}
    (h : ∀ b, ∀ x ∈ xs, f b x = .ok (g b x)) : xs.foldlM f b = .ok (xs.foldl g b) := by
  induction xs generalizing b with
  | nil => rfl
  | cons x xs ih =>
    rw [List.foldlM_cons, h b x List.mem_cons_self, ok_bind, List.foldl_cons]
    exact ih fun b y hy => h b y (List.mem_cons_of_mem x hy)

/-- A fold whose steps add to what the result stands for adds up everything. -/
theorem foldlM_sum {M : Type} [AddMonoid M] {r : M → β} {f : β → α → Result β} {v : α → M}
    {xs : List α} (h : ∀ b, ∀ x ∈ xs, f (r b) x = .ok (r (b + v x))) (b : M) :
    xs.foldlM f (r b) = .ok (r (b + (xs.map v).sum)) := by
  induction xs generalizing b with
  | nil => rw [List.map_nil, List.sum_nil, add_zero, List.foldlM_nil, pure_eq_ok]
  | cons x xs ih =>
    rw [List.foldlM_cons, h b x List.mem_cons_self, ok_bind, List.map_cons, List.sum_cons,
      ← add_assoc]
    exact ih (fun b y hy => h b y (List.mem_cons_of_mem x hy)) (b + v x)

/-- A fold whose steps multiply what the result stands for multiplies everything. -/
theorem foldlM_prod {M : Type} [Monoid M] {r : M → β} {f : β → α → Result β} {v : α → M}
    {xs : List α} (h : ∀ b, ∀ x ∈ xs, f (r b) x = .ok (r (b * v x))) (b : M) :
    xs.foldlM f (r b) = .ok (r (b * (xs.map v).prod)) :=
  foldlM_sum (M := Additive M) (r := r) (v := v) h b

/-- A fold with a step that always fails, and of which no other step fails differently, fails as this
step does. -/
theorem foldlM_eq_error {f : β → α → Result β} {e : Error} {xs : List α}
    (h : ∀ b, ∀ x ∈ xs, (∃ b', f b x = .ok b') ∨ f b x = .error e) {x : α} (hx : x ∈ xs)
    (fails : ∀ b, f b x = .error e) (b : β) : xs.foldlM f b = .error e := by
  induction xs generalizing b with
  | nil => cases hx
  | cons y xs ih =>
    rw [List.foldlM_cons]
    rcases h b y List.mem_cons_self with ⟨b', hb⟩ | hb
    · rw [hb, ok_bind]
      rcases List.mem_cons.1 hx with rfl | hx
      · rw [fails b] at hb
        cases hb
      · exact ih (fun b z hz => h b z (List.mem_cons_of_mem y hz)) hx b'
    · rw [hb, error_bind]

/-- Checks that all succeed are the check of their values. -/
theorem allM_map_eq_ok {e : α → β} {f : β → Result Bool} {g : α → Bool} {xs : List α}
    (h : ∀ x ∈ xs, f (e x) = .ok (g x)) : (xs.map e).allM f = .ok (xs.all g) := by
  induction xs with
  | nil => rfl
  | cons x xs ih =>
    have rest := ih fun y hy => h y (List.mem_cons_of_mem x hy)
    rw [List.map_cons, List.allM, h x List.mem_cons_self, ok_bind, List.all_cons]
    cases g x with
    | false => rfl
    | true => exact rest

theorem exists_eq_ok_iff {x : Result α} : (∃ a, x = .ok a) ↔ x.isOk = true := by
  cases x with
  | error e => simp [Except.isOk, Except.toBool]
  | ok a => exact iff_of_true ⟨a, rfl⟩ rfl

/-- A check that gives an answer says whether it gives `true`. -/
theorem eq_ok_decide {x : Result Bool} (h : ∃ b, x = .ok b) : x = .ok (decide (x = .ok true)) := by
  obtain ⟨b, rfl⟩ := h
  cases b <;> rfl

/-- A check that gives an answer, but not `true`, gives `false`. -/
theorem eq_ok_false {x : Result Bool} (h : ∃ b, x = .ok b) (ne : x ≠ .ok true) : x = .ok false := by
  rw [eq_ok_decide h, decide_eq_false ne]

theorem present_eq_ok_iff {x : Option ℤ} {v : ℤ} : present x = .ok v ↔ x = some v := by
  cases x <;> simp [present]

theorem mapM_present_eq_ok_iff {xs : List (Option ℤ)} {vs : List ℤ} :
    xs.mapM present = .ok vs ↔ xs = vs.map some := by
  simp only [mapM_eq_ok_iff, present_eq_ok_iff]
  rw [← List.forall₂_eq_eq_eq, ← List.forall₂_map_right_iff]

end Result

/-! ## Draws -/

variable {σ : Type}

/-- Started on `s`, the computation gives `a` and leaves the source at `s'`. -/
def Draw.Returns (d : Draw σ α) (s : σ) (a : α) (s' : σ) : Prop :=
  @Eq (Result α × σ) (d.run s) (.ok a, s')

namespace Draw

theorem returns_pure_iff {a b : α} {s s' : σ} :
    (pure a : Draw σ α).Returns s b s' ↔ a = b ∧ s = s' := by
  show ((Except.ok a, s) : Result α × σ) = (.ok b, s') ↔ _
  simp

theorem not_returns_throw {e : Error} {s s' : σ} {a : α} :
    ¬ (throw e : Draw σ α).Returns s a s' := by
  show ¬ ((Except.error e, s) : Result α × σ) = (.ok a, s')
  simp

/-- A run of one computation after another goes on where the first stopped, unless that failed. -/
theorem run_bind (d : Draw σ α) (f : α → Draw σ β) (s : σ) :
    @Eq (Result β × σ) ((d >>= f).run s) (match (d.run s : Result α × σ) with
      | (.ok a, t) => (f a).run t
      | (.error e, t) => (.error e, t)) := by
  show StateT.bind d (ExceptT.bindCont f) s = _
  simp only [StateT.bind, ExceptT.run]
  rcases d s with ⟨_ | a, t⟩ <;> rfl

theorem returns_bind_iff {d : Draw σ α} {f : α → Draw σ β} {s s' : σ} {b : β} :
    (d >>= f).Returns s b s' ↔ ∃ a t, d.Returns s a t ∧ (f a).Returns t b s' := by
  unfold Returns
  rw [run_bind]
  rcases (d.run s : Result α × σ) with ⟨_ | a, t⟩
  · simp
  · constructor
    · intro h
      exact ⟨a, t, rfl, h⟩
    · rintro ⟨a', t', h, h'⟩
      cases h
      exact h'

/-- A guard is passed by every run that returns. -/
theorem returns_ite_throw_iff {c : Prop} [Decidable c] {e : Error} {d : Draw σ α} {s s' : σ}
    {a : α} : (if c then throw e else d).Returns s a s' ↔ ¬ c ∧ d.Returns s a s' := by
  split <;> simp [*, not_returns_throw]

theorem returns_liftM_iff {x : Result α} {s s' : σ} {a : α} :
    (liftM x : Draw σ α).Returns s a s' ↔ x = .ok a ∧ s = s' := by
  show ((x, s) : Result α × σ) = (.ok a, s') ↔ _
  simp

theorem liftM_ok_bind (a : α) (f : α → Draw σ β) :
    (liftM (.ok a : Result α) : Draw σ α) >>= f = f a := rfl

theorem returns_get_iff {s a s' : σ} :
    (get : Draw σ σ).Returns s a s' ↔ a = s ∧ s' = s := by
  show ((Except.ok s, s) : Result σ × σ) = (.ok a, s') ↔ _
  simp [eq_comm]

theorem returns_set_iff {t s s' : σ} {u : PUnit} :
    (set t : Draw σ PUnit).Returns s u s' ↔ s' = t := by
  show ((Except.ok PUnit.unit, t) : Result PUnit × σ) = (.ok u, s') ↔ _
  simp [eq_comm]

/-- Two continuations that agree on what a computation can return make the same computation. -/
theorem bind_congr_of_returns {d : Draw σ α} {f g : α → Draw σ β}
    (h : ∀ a s s', d.Returns s a s' → f a = g a) : d >>= f = d >>= g := by
  refine funext fun s => ?_
  show StateT.bind d (ExceptT.bindCont f) s = StateT.bind d (ExceptT.bindCont g) s
  simp only [StateT.bind]
  cases hd : d s with
  | mk r t =>
    cases r with
    | error e => rfl
    | ok a =>
      show f a t = g a t
      rw [h a s t hd]

/-- What a run returns can be seen from its outcome. -/
theorem run_eq_ok_iff {d : Draw σ α} {s : σ} {a : α} :
    (d.run s : Result α × σ).1 = .ok a ↔ ∃ s', d.Returns s a s' := by
  unfold Returns
  rcases (d.run s : Result α × σ) with ⟨r, t⟩
  simp

/-- Whether a run returns can be seen from its outcome. -/
theorem exists_returns_iff {d : Draw σ α} {s : σ} :
    (∃ a s', d.Returns s a s') ↔ (d.run s : Result α × σ).1.isOk = true := by
  rw [← Result.exists_eq_ok_iff]
  exact exists_congr fun a => run_eq_ok_iff.symm

/-- Started on `s`, the computation fails and leaves the source at `s'`. -/
def Fails (d : Draw σ α) (s : σ) (e : Error) (s' : σ) : Prop :=
  @Eq (Result α × σ) (d.run s) (.error e, s')

theorem fails_throw (e : Error) (s : σ) : (throw e : Draw σ α).Fails s e s := rfl

theorem not_fails_pure {a : α} {s s' : σ} {e : Error} : ¬ (pure a : Draw σ α).Fails s e s' := by
  show ¬ ((Except.ok a, s) : Result α × σ) = (.error e, s')
  simp

theorem fails_liftM_iff {x : Result α} {s s' : σ} {e : Error} :
    (liftM x : Draw σ α).Fails s e s' ↔ x = .error e ∧ s = s' := by
  show ((x, s) : Result α × σ) = (.error e, s') ↔ _
  simp

theorem fails_liftM {x : Result α} {e : Error} (h : x = .error e) (s : σ) :
    (liftM x : Draw σ α).Fails s e s := fails_liftM_iff.2 ⟨h, rfl⟩

/-- Of two computations, one after the other, the first fails, or the second does where the first
stopped. -/
theorem fails_bind_iff {d : Draw σ α} {f : α → Draw σ β} {s s' : σ} {e : Error} :
    (d >>= f).Fails s e s' ↔ d.Fails s e s' ∨ ∃ a t, d.Returns s a t ∧ (f a).Fails t e s' := by
  unfold Fails Returns
  rw [run_bind]
  rcases (d.run s : Result α × σ) with ⟨_ | a, t⟩
  · simp
  · constructor
    · intro h
      exact .inr ⟨a, t, rfl, h⟩
    · rintro (h | ⟨a', t', h, h'⟩)
      · cases h
      · cases h
        exact h'

/-- A computation that goes on after a failure fails with it. -/
theorem Fails.bind {d : Draw σ α} {s s' : σ} {e : Error} (h : d.Fails s e s')
    (f : α → Draw σ β) : (d >>= f).Fails s e s' := fails_bind_iff.2 (.inl h)

theorem Returns.bind_fails {d : Draw σ α} {s t s' : σ} {a : α} {e : Error} (h : d.Returns s a t)
    {f : α → Draw σ β} (hf : (f a).Fails t e s') : (d >>= f).Fails s e s' :=
  fails_bind_iff.2 (.inr ⟨a, t, h, hf⟩)

/-- A run that fails does not return. -/
theorem Fails.not_returns {d : Draw σ α} {s s' t : σ} {e : Error} {a : α} (h : d.Fails s e s') :
    ¬ d.Returns s a t := fun h' => by simpa using Eq.trans (Eq.symm h) h'

/-- Some source, in some state, makes the computation give `a`. -/
def Yields (d : (σ : Type) → [Source σ] → Draw σ α) (a : α) : Prop :=
  ∃ (σ : Type) (_ : Source σ) (s s' : σ), (d σ).Returns s a s'

theorem yields_of_run {d : (σ : Type) → [Source σ] → Draw σ α} [Source σ] {a : α} (s : σ)
    (h : ((d σ).run s : Result α × σ).1 = .ok a) : Yields d a :=
  ⟨σ, inferInstance, s, run_eq_ok_iff.1 h⟩

/-- A run has one outcome. -/
theorem Returns.unique {d : Draw σ α} {s t t' : σ} {a a' : α} (h : d.Returns s a t)
    (h' : d.Returns s a' t') : a = a' ∧ t = t' := by
  simpa using Eq.trans (Eq.symm h) h'

end Draw

end BallotMix
