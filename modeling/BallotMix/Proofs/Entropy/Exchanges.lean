import BallotMix.Proofs.Entropy.Permutation
import BallotMix.Proofs.Entropy.Uniform
import Mathlib

/-!
# Places and permutations

Each permutation of `[0, n)` comes from exactly one list of places (`existsUnique_places`): the entry
that it has last tells the first place, and later exchanges leave that entry alone.  So each comes from
the same number of tapes of any length (`giving_draw`, `ncard_giving_drawPlaces`).  Nothing else is
asked of the way in which places are picked than that they are below their bounds (`PicksBelow`).
-/

namespace BallotMix.Permutation

open Draw

/-! ## Exchanges one by one -/

@[simp]
theorem length_exchange (i j : ℕ) (values : List ℕ) :
    (exchange i j values).length = values.length := by
  simp [exchange]

/-- Exchanges leave alone what is behind their places. -/
theorem drop_exchange {i j k : ℕ} (hi : i < k) (hj : j < k) (values : List ℕ) :
    (exchange i j values).drop k = values.drop k := by
  rw [exchange, List.drop_set_of_lt hj, List.drop_set_of_lt hi]

theorem drop_exchangeAll {n : ℕ} {places values : List ℕ} (h : ArePlaces n places) :
    (exchangeAll n places values).drop n = values.drop n := by
  induction n, places, values using exchangeAll.induct with
  | case1 n j places values ih =>
    have later := congrArg (List.drop 1) (ih h.2)
    rw [List.drop_drop, List.drop_drop] at later
    rw [exchangeAll]
    exact later.trans (drop_exchange (Nat.lt_succ_self _) h.1 values)
  | case2 n places values stop =>
    unfold exchangeAll
    split
    · exact absurd rfl (stop _ _ _ rfl)
    · rfl

theorem getElem?_exchange {i j : ℕ} {values : List ℕ} (hi : i < values.length)
    (hj : j < values.length) : (exchange i j values)[i]? = values[j]? := by
  rw [exchange, List.getD_eq_getElem _ _ hj, List.getD_eq_getElem _ _ hi]
  rcases eq_or_ne j i with rfl | ne
  · simp [hj]
  · rw [List.getElem?_set_ne ne, List.getElem?_set_self hi, List.getElem?_eq_getElem hj]

/-- The first exchange brings an entry to its place for good. -/
theorem getElem?_exchangeAll {n j : ℕ} {places values : List ℕ} (h : ArePlaces (n + 2) (j :: places))
    (length : n + 2 ≤ values.length) :
    (exchangeAll (n + 2) (j :: places) values)[n + 1]? = values[j]? := by
  have behind : (exchangeAll (n + 1) places (exchange (n + 1) j values)).drop (n + 1)
      = (exchange (n + 1) j values).drop (n + 1) := drop_exchangeAll h.2
  have later := congrArg List.head? behind
  rw [List.head?_drop, List.head?_drop] at later
  rw [exchangeAll, later, getElem?_exchange (by omega) (h.1.trans_le length)]

/-! ## One list of places for each permutation -/

theorem ArePlaces.exists_cons {n : ℕ} {places : List ℕ} (h : ArePlaces (n + 2) places) :
    ∃ j others, places = j :: others ∧ j < n + 2 ∧ ArePlaces (n + 1) others := by
  cases places with
  | nil => exact h.elim
  | cons j others => exact ⟨j, others, rfl, h.1, h.2⟩

theorem eq_of_drop_one {as bs : List ℕ} (perm : as.Perm bs) (same : as.drop 1 = bs.drop 1) :
    as = bs := by
  cases as with
  | nil => exact (List.nil_perm.1 perm).symm
  | cons a as =>
    cases bs with
    | nil => exact List.perm_nil.1 perm
    | cons b bs =>
      obtain rfl : as = bs := same
      have sums := perm.sum_eq
      rw [List.sum_cons, List.sum_cons, Nat.add_right_cancel_iff] at sums
      rw [sums]

/-- The place at which distinct values hold the last entry of an arrangement of them, behind which
the two agree. -/
theorem exists_place {n : ℕ} {values target : List ℕ} (nodup : values.Nodup)
    (length : n < values.length) (perm : target.Perm values)
    (same : target.drop (n + 1) = values.drop (n + 1)) :
    ∃ j < n + 1, values[j]? = target[n]? := by
  have inside : n < target.length := by rwa [perm.length_eq]
  obtain ⟨j, hj⟩ := List.mem_iff_getElem?.1 (perm.mem_iff.1 (List.getElem_mem inside))
  rw [← List.getElem?_eq_getElem inside] at hj
  refine ⟨j, ?_, hj⟩
  by_contra behind
  obtain ⟨k, rfl⟩ := Nat.exists_eq_add_of_le (not_lt.1 behind)
  have agree := congrArg (fun l => l[k]?) same
  simp only [List.getElem?_drop] at agree
  rw [← agree] at hj
  have := (List.getElem?_inj inside (perm.nodup_iff.2 nodup)).1 hj.symm
  omega

/-- The exchange with that place makes the two agree from one place earlier on. -/
theorem drop_eq_drop_exchange {n j : ℕ} {values target : List ℕ} (length : n < values.length)
    (low : j < n + 1) (entry : values[j]? = target[n]?)
    (same : target.drop (n + 1) = values.drop (n + 1)) :
    target.drop n = (exchange n j values).drop n := by
  refine List.ext_getElem? fun k => ?_
  rw [List.getElem?_drop, List.getElem?_drop]
  cases k with
  | zero => rw [Nat.add_zero, getElem?_exchange length (by omega), entry]
  | succ k =>
    have behind := congrArg (fun l => l[k]?) (same.trans (drop_exchange (i := n) (by omega) low values).symm)
    simp only [List.getElem?_drop] at behind
    rwa [Nat.add_comm k 1, ← Nat.add_assoc]

/-- Two arrangements of distinct values that agree behind their first `n` places are turned into each
other by one list of exchanges of these. -/
theorem existsUnique_exchangeAll (n : ℕ) {values target : List ℕ} (nodup : values.Nodup)
    (length : n ≤ values.length) (perm : target.Perm values)
    (same : target.drop n = values.drop n) :
    ∃! places, ArePlaces n places ∧ exchangeAll n places values = target := by
  induction n using Nat.twoStepInduction generalizing values with
  | zero =>
    refine ⟨[], ⟨rfl, same.symm⟩, ?_⟩
    rintro places ⟨none, -⟩
    exact none
  | one =>
    refine ⟨[], ⟨rfl, (eq_of_drop_one perm same).symm⟩, ?_⟩
    rintro places ⟨none, -⟩
    exact none
  | more n _ ih =>
    obtain ⟨j, low, entry⟩ := exists_place nodup length perm same
    have swapped : (exchange (n + 1) j values).Perm values := exchange_perm length (by omega)
    obtain ⟨places, ⟨are, leads⟩, unique⟩ := ih (swapped.nodup_iff.2 nodup)
      (by rw [length_exchange]; omega) (perm.trans swapped.symm)
      (drop_eq_drop_exchange length low entry same)
    refine ⟨j :: places, ⟨⟨low, are⟩, by rw [exchangeAll, leads]⟩, ?_⟩
    rintro places' ⟨are', leads'⟩
    obtain ⟨j', others, rfl, low', later'⟩ := are'.exists_cons
    -- The last entry of the target was at the first place.
    have first := getElem?_exchangeAll ⟨low', later'⟩ length
    rw [leads', ← entry] at first
    obtain rfl := (List.getElem?_inj (low.trans_le length) nodup).1 first
    rw [exchangeAll] at leads'
    rw [unique others ⟨later', leads'⟩]

/-- Each permutation comes from one list of places. -/
theorem existsUnique_places {n : ℕ} {permutation : List ℕ}
    (perm : permutation.Perm (List.range n)) :
    ∃! places, ArePlaces n places ∧ ofExchanges n places = permutation := by
  have all : permutation.drop n = (List.range n).drop n := by
    rw [List.drop_of_length_le (perm.length_eq.trans List.length_range).le,
      List.drop_of_length_le List.length_range.le]
  exact existsUnique_exchangeAll n List.nodup_range List.length_range.ge perm all

/-! ## Places that are picked -/

variable {σ : Type}

/-- Places that are picked below `n`, below `n - 1`, and so on down to below two. -/
def drawPlacesBy (pick : UInt64 → Draw σ UInt64) : ℕ → Draw σ (List ℕ)
  | n + 2 => do
    let j ← pick (UInt64.ofNat (n + 2))
    let places ← drawPlacesBy pick (n + 1)
    pure (j.toNat :: places)
  | _ => pure []

/-- The permutation of `[0, n)` that the places stand for. -/
def drawBy (pick : UInt64 → Draw σ UInt64) (n : ℕ) : Draw σ (List ℕ) := do
  let places ← drawPlacesBy pick n
  pure (ofExchanges n places)

theorem drawPlacesBy_uniformIndex [Source σ] (n : ℕ) :
    drawPlacesBy (uniformIndex : UInt64 → Draw σ UInt64) n = drawPlaces n := by
  induction n using Nat.twoStepInduction with
  | zero => rfl
  | one => rfl
  | more n _ ih => rw [drawPlacesBy, drawPlaces, ih]

theorem drawBy_uniformIndex [Source σ] (n : ℕ) :
    drawBy (uniformIndex : UInt64 → Draw σ UInt64) n = draw n := by
  rw [drawBy, drawPlacesBy_uniformIndex, draw]

theorem drawBy_returns_iff {pick : UInt64 → Draw σ UInt64} {n : ℕ} {permutation : List ℕ}
    {s s' : σ} : (drawBy pick n).Returns s permutation s' ↔
      ∃ places, (drawPlacesBy pick n).Returns s places s' ∧ ofExchanges n places = permutation := by
  simp only [drawBy, returns_bind_iff, returns_pure_iff]
  constructor
  · rintro ⟨places, _, picked, rfl, rfl⟩
    exact ⟨places, picked, rfl⟩
  · rintro ⟨places, picked, rfl⟩
    exact ⟨places, s', picked, rfl, rfl⟩

/-- Whatever is picked is below its bound. -/
def PicksBelow (pick : UInt64 → Draw σ UInt64) : Prop :=
  ∀ bound s j s', (pick bound).Returns s j s' → j < bound

theorem picksBelow_uniformIndex [Source σ] :
    PicksBelow (uniformIndex : UInt64 → Draw σ UInt64) :=
  fun _ _ _ _ drawn => uniformIndex_lt drawn

/-- Picks below their bounds are places. -/
theorem drawPlacesBy_returns {pick : UInt64 → Draw σ UInt64} (below : PicksBelow pick) {n : ℕ}
    {places : List ℕ} {s s' : σ} (h : (drawPlacesBy pick n).Returns s places s') :
    ArePlaces n places := by
  induction n using Nat.twoStepInduction generalizing places s s' with
  | zero => exact (returns_pure_iff.1 h).1.symm
  | one => exact (returns_pure_iff.1 h).1.symm
  | more n _ ih =>
    simp only [drawPlacesBy, returns_bind_iff, returns_pure_iff] at h
    obtain ⟨j, t, hj, rest, t', hrest, rfl, -⟩ := h
    have low := UInt64.lt_iff_toNat_lt.1 (below _ _ _ _ hj)
    rw [UInt64.toNat_ofNat'] at low
    exact ⟨low.trans_le (Nat.mod_le _ _), ih hrest⟩

/-! ## Tapes -/

theorem giving_draw {n : ℕ} {places : List ℕ} (are : ArePlaces n places) (length : ℕ) :
    Tape.giving (draw n) (ofExchanges n places) length = Tape.giving (drawPlaces n) places length := by
  obtain ⟨_, -, unique⟩ := existsUnique_places (ofExchanges_perm are)
  ext bytes
  refine and_congr_right fun _ => exists_congr fun s => ?_
  rw [← drawBy_uniformIndex, drawBy_returns_iff, drawPlacesBy_uniformIndex]
  constructor
  · rintro ⟨places', picked, same⟩
    rwa [(unique places ⟨are, rfl⟩).trans (unique places' ⟨drawPlaces_returns picked, same⟩).symm]
  · intro picked
    exact ⟨places, picked, rfl⟩

theorem uniformIndex_returns_iff {σ : Type} [Source σ] {bound j : ℕ} (small : bound < 2 ^ 64)
    (low : j < bound) {s s' : σ} :
    (∃ w : UInt64, w.toNat = j ∧ (uniformIndex (UInt64.ofNat bound)).Returns s w s') ↔
      (uniform (bound : ℤ)).Returns s (j : ℤ) s' := by
  have word {k : ℕ} (below : k < 2 ^ 64) : (UInt64.ofNat k).toNat = k :=
    UInt64.toNat_ofNat_of_lt' below
  simp only [uniformIndex, word small, returns_bind_iff, returns_pure_iff]
  constructor
  · rintro ⟨_, value, v, _, drawn, rfl, rfl⟩
    have bounds := uniform_bounds drawn
    rw [word (by omega)] at value
    rwa [show (j : ℤ) = v by omega]
  · intro drawn
    refine ⟨UInt64.ofNat j, word (low.trans small), _, _, drawn, ?_, rfl⟩
    rw [Int.toNat_natCast]

/-- Tapes that give a list of places give the first and leave one that gives the others. -/
theorem giving_drawPlaces {n j : ℕ} (small : n + 2 < 2 ^ 64) (low : j < n + 2) (places : List ℕ)
    (length : ℕ) :
    Tape.giving (drawPlaces (n + 2)) (j :: places) length = drawing (n + 2) j
      {rest | ∃ s, (drawPlaces (n + 1) : Draw Tape (List ℕ)).Returns ⟨rest⟩ places s} length := by
  ext bytes
  refine and_congr_right fun _ => ?_
  simp only [drawPlaces, returns_bind_iff, returns_pure_iff]
  constructor
  · rintro ⟨s, w, t, first, others, _, picked, same, -⟩
    obtain ⟨rfl, rfl⟩ := List.cons.inj same
    exact ⟨t.bytes, ⟨_, picked⟩, (uniformIndex_returns_iff small low).1 ⟨w, rfl, first⟩⟩
  · rintro ⟨rest, ⟨s, picked⟩, first⟩
    obtain ⟨w, rfl, drawn⟩ := (uniformIndex_returns_iff small low).2 first
    exact ⟨s, w, _, drawn, places, s, picked, rfl, rfl⟩

theorem inter_strings {α : Type} (d : Draw Tape α) (a : α) (n : ℕ) :
    {bytes | ∃ s, d.Returns ⟨bytes⟩ a s} ∩ strings n = Tape.giving d a n := by
  ext bytes
  exact and_comm

/-- All lists of places come from equally many tapes. -/
theorem ncard_giving_drawPlaces {n : ℕ} (small : n < 2 ^ 64) {places places' : List ℕ}
    (are : ArePlaces n places) (are' : ArePlaces n places') (length : ℕ) :
    (Tape.giving (drawPlaces n) places length).ncard
      = (Tape.giving (drawPlaces n) places' length).ncard := by
  induction n using Nat.twoStepInduction generalizing places places' length with
  | zero =>
    obtain rfl : places = [] := are
    obtain rfl : places' = [] := are'
    rfl
  | one =>
    obtain rfl : places = [] := are
    obtain rfl : places' = [] := are'
    rfl
  | more n _ ih =>
    obtain ⟨j, others, rfl, low, are⟩ := are.exists_cons
    obtain ⟨j', others', rfl, low', are'⟩ := are'.exists_cons
    rw [giving_drawPlaces small low, giving_drawPlaces small low']
    refine ncard_drawing_congr (Nat.succ_pos _) low low' (fun m => ?_) length
    rw [inter_strings, inter_strings]
    exact ih (by omega) are are' m

/-- Some tape gives the places, whatever follows on it. -/
theorem exists_drawPlaces_returns {n : ℕ} (small : n < 2 ^ 64) {places : List ℕ}
    (are : ArePlaces n places) : ∃ front : Bytes, ∀ rest,
      (drawPlaces n).Returns (⟨front ++ rest⟩ : Tape) places ⟨rest⟩ := by
  induction n using Nat.twoStepInduction generalizing places with
  | zero =>
    obtain rfl : places = [] := are
    exact ⟨[], fun rest => returns_pure_iff.2 ⟨rfl, rfl⟩⟩
  | one =>
    obtain rfl : places = [] := are
    exact ⟨[], fun rest => returns_pure_iff.2 ⟨rfl, rfl⟩⟩
  | more n _ ih =>
    obtain ⟨j, others, rfl, low, are⟩ := are.exists_cons
    obtain ⟨front, drawn⟩ := ih (by omega) are
    obtain ⟨chunk, width, value⟩ : (readAs (n + 2) j).Nonempty :=
      Set.nonempty_of_ncard_ne_zero (by rw [ncard_readAs low]; positivity)
    refine ⟨chunk ++ front, fun rest => ?_⟩
    have first := Tape.uniform_returns_append (value.trans_lt low) width (front ++ rest)
    rw [value] at first
    obtain ⟨w, rfl, picked⟩ := (uniformIndex_returns_iff small low).2 first
    rw [List.append_assoc]
    simp only [drawPlaces, returns_bind_iff, returns_pure_iff]
    exact ⟨w, _, picked, others, _, drawn rest, rfl, rfl⟩

/-- Drawn exchanges stand for permutations one to one.  Whatever picks the places, if only below their
bounds, the outcome is a permutation of `[0, n)`, and it comes up exactly when its places are picked,
of which there is one list for each permutation.  Uniform draws below the bounds are such picks; from
them each permutation comes on the same number of tapes of any length, and on some. -/
theorem draw_bijective {n : ℕ} (small : n < 2 ^ 64) :
    (∀ {σ : Type} (pick : UInt64 → Draw σ UInt64), PicksBelow pick →
      ∀ permutation s s', (drawBy pick n).Returns s permutation s' →
        permutation.Perm (List.range n)) ∧
    (∀ {σ : Type} (pick : UInt64 → Draw σ UInt64), PicksBelow pick →
      ∀ permutation s s', (drawBy pick n).Returns s permutation s' ↔
        ∃ places, ArePlaces n places ∧ ofExchanges n places = permutation ∧
          (drawPlacesBy pick n).Returns s places s') ∧
    (∀ permutation : List ℕ, permutation.Perm (List.range n) →
      ∃! places, ArePlaces n places ∧ ofExchanges n places = permutation) ∧
    (∀ {σ : Type} [Source σ], PicksBelow (uniformIndex : UInt64 → Draw σ UInt64) ∧
      drawBy (uniformIndex : UInt64 → Draw σ UInt64) n = draw n) ∧
    (∀ permutation permutation' : List ℕ, permutation.Perm (List.range n) →
      permutation'.Perm (List.range n) → ∀ length,
        (Tape.giving (draw n) permutation length).ncard
          = (Tape.giving (draw n) permutation' length).ncard) ∧
    ∀ permutation : List ℕ, permutation.Perm (List.range n) →
      ∃ tape s, (draw n).Returns (tape : Tape) permutation s := by
  have places_of {σ : Type} {pick : UInt64 → Draw σ UInt64} (below : PicksBelow pick)
      (permutation : List ℕ) (s s' : σ) : (drawBy pick n).Returns s permutation s' ↔
        ∃ places, ArePlaces n places ∧ ofExchanges n places = permutation ∧
          (drawPlacesBy pick n).Returns s places s' := by
    rw [drawBy_returns_iff]
    exact exists_congr fun places =>
      ⟨fun h => ⟨drawPlacesBy_returns below h.1, h.2, h.1⟩, fun h => ⟨h.2.2, h.2.1⟩⟩
  refine ⟨fun pick below permutation s s' drawn => ?_, fun pick below => places_of below,
    fun permutation => existsUnique_places, fun {σ} _ => ⟨picksBelow_uniformIndex,
    drawBy_uniformIndex n⟩, fun permutation permutation' perm perm' length => ?_,
    fun permutation perm => ?_⟩
  · obtain ⟨places, are, rfl, -⟩ := (places_of below _ _ _).1 drawn
    exact ofExchanges_perm are
  · obtain ⟨places, ⟨are, rfl⟩, -⟩ := existsUnique_places perm
    obtain ⟨places', ⟨are', rfl⟩, -⟩ := existsUnique_places perm'
    rw [giving_draw are, giving_draw are']
    exact ncard_giving_drawPlaces small are are' length
  · obtain ⟨places, ⟨are, rfl⟩, -⟩ := existsUnique_places perm
    obtain ⟨front, drawn⟩ := exists_drawPlaces_returns small are
    refine ⟨⟨front ++ []⟩, ⟨[]⟩, ?_⟩
    rw [← drawBy_uniformIndex, drawBy_returns_iff, drawPlacesBy_uniformIndex]
    exact ⟨places, drawn [], rfl⟩

/-- Two of the six permutations of three values come from equally many of the tapes of five bytes. -/
theorem draw_bijective_three :
    3 < 2 ^ 64 ∧ (Tape.giving (draw 3) [1, 2, 0] 5).ncard = (Tape.giving (draw 3) [2, 1, 0] 5).ncard ∧
      ∃! places, ArePlaces 3 places ∧ ofExchanges 3 places = [1, 2, 0] := by
  have small : 3 < 2 ^ 64 := by decide
  obtain ⟨-, -, places, -, tapes, -⟩ := draw_bijective small
  exact ⟨small, tapes _ _ (by decide) (by decide) 5, places _ (by decide)⟩

end BallotMix.Permutation
