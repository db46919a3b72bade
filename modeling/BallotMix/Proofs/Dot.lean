import Mathlib

/-!
# Sums of products

`dot as bs` is the sum of the products of the entries of two lists at the same places.  A product of
powers has such a sum in its exponent.
-/

namespace BallotMix

variable {R : Type} [CommRing R]

/-- The sum of the products of entries at the same places. -/
def dot (as bs : List R) : R := (List.zipWith (· * ·) as bs).sum

@[simp]
theorem dot_nil_left (bs : List R) : dot [] bs = 0 := rfl

@[simp]
theorem dot_nil_right (as : List R) : dot as [] = 0 := by
  rw [dot, List.zipWith_nil_right, List.sum_nil]

@[simp]
theorem dot_cons (a b : R) (as bs : List R) : dot (a :: as) (b :: bs) = a * b + dot as bs := by
  rw [dot, List.zipWith_cons_cons, List.sum_cons, dot]

theorem sum_map_zip (as bs : List R) :
    ((as.zip bs).map fun ab => ab.1 * ab.2).sum = dot as bs := by
  rw [dot, List.zip, List.map_zipWith]

theorem dot_add_left {as as' : List R} (h : as.length = as'.length) (bs : List R) :
    dot (List.zipWith (· + ·) as as') bs = dot as bs + dot as' bs := by
  induction as generalizing as' bs with
  | nil => simp [List.length_eq_zero_iff.1 h.symm]
  | cons a as ih =>
    cases as' with
    | nil => cases h
    | cons a' as' =>
      cases bs with
      | nil => simp
      | cons b bs =>
        rw [List.zipWith_cons_cons, dot_cons, dot_cons, dot_cons, ih (by simpa using h)]
        ring

/-- The answers `w - c x` in place of the secrets `x`. -/
theorem dot_answers (as : List R) (c : R) {ws xs : List R} (h : ws.length = xs.length) :
    dot as (List.zipWith (fun w x => w - c * x) ws xs) = dot as ws - c * dot as xs := by
  induction as generalizing ws xs with
  | nil => simp
  | cons a as ih =>
    cases ws with
    | nil => simp [List.length_eq_zero_iff.1 h.symm]
    | cons w ws =>
      cases xs with
      | nil => cases h
      | cons x xs =>
        rw [List.zipWith_cons_cons, dot_cons, dot_cons, dot_cons, ih (by simpa using h)]
        ring

/-- The quotients `(x' - x) e` of two lists of answers. -/
theorem dot_quotients (as : List R) (e : R) {xs xs' : List R} (h : xs.length = xs'.length) :
    dot as (List.zipWith (fun x x' => (x' - x) * e) xs xs') = (dot as xs' - dot as xs) * e := by
  induction as generalizing xs xs' with
  | nil => simp
  | cons a as ih =>
    cases xs with
    | nil => simp [List.length_eq_zero_iff.1 h.symm]
    | cons x xs =>
      cases xs' with
      | nil => cases h
      | cons x' xs' =>
        rw [List.zipWith_cons_cons, dot_cons, dot_cons, dot_cons, ih (by simpa using h)]
        ring

theorem dot_mul_left (y : R) (as bs : List R) :
    dot (as.map (y * ·)) bs = y * dot as bs := by
  induction as generalizing bs with
  | nil => simp
  | cons a as ih =>
    cases bs with
    | nil => simp
    | cons b bs =>
      rw [List.map_cons, dot_cons, dot_cons, ih]
      ring

end BallotMix
