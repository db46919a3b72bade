import BallotMix.Proofs.Sharing.Batch
import BallotMix.Proofs.Shuffle.Chain
import BallotMix.Proofs.Tally
import Mathlib

/-!
# Elections

An election from the dealing of the key to the count: votes are encoded and encrypted, the ballots
go through any number of mixes, and holders of enough shares open the last list.  The count of what
they open is that of the votes (`election_counts`).
-/

namespace BallotMix

open Shuffle Sharing

/-- The encryption of a vote with a fresh nonce. -/
def castBallot {σ : Type} [Source σ] (G : Group) (encoding : Encoding) (pk : PublicKey)
    (vote : UInt64) : Draw σ Pair := do
  let m ← Tally.encode G encoding vote
  G.encryptFresh pk (some m)

/-- What is made in the course of an election. -/
structure Election where
  encoding : Encoding
  /-- The bound of the search when votes are decoded. -/
  bound : UInt64
  /-- How many shares are needed. -/
  threshold : UInt64
  /-- How many shares are dealt. -/
  total : UInt64
  dealing : Dealing
  votes : List UInt64
  ballots : List Pair
  mixes : List Mix
  /-- Those who take part in the decryption. -/
  holders : List KeyShare
  /-- The domain of the decryption. -/
  domain : Bytes
  contributions : List BatchShare

namespace Election

variable (G : Group) (e : Election)

/-- The key under which votes are cast. -/
def key : PublicKey := e.dealing.electionKey

/-- The list before the mixes. -/
def first : List Ciphertext := e.ballots.map Pair.toCiphertext

/-- The list after the mixes. -/
def last : List Ciphertext := Mix.final e.first e.mixes

/-- Everything was made by its rules, with any sources. -/
structure Runs : Prop where
  dealt : Draw.Yields (fun _ [Source _] => deal G e.threshold e.total) e.dealing ∨
    ∃ x, Draw.Yields (fun _ [Source _] => dealSecret G ⟨some x⟩ e.threshold e.total) e.dealing
  few : e.total.toNat < G.q
  castable : ∀ vote ∈ e.votes, Tally.Castable G e.encoding e.bound vote
  cast : List.Forall₂ (fun vote ballot =>
    Draw.Yields (fun _ [Source _] => castBallot G e.encoding e.key vote) ballot) e.votes e.ballots
  mixed : Mix.Along (Mix.Shuffled G e.key) e.first e.mixes
  holders_nodup : e.holders.Nodup
  holders_dealt : ∀ holder ∈ e.holders, holder ∈ e.dealing.shares
  enough : e.threshold.toNat ≤ e.holders.length
  contributed : List.Forall₂ (fun holder share =>
    Draw.Yields (fun _ [Source _] => partialDecryptBatch G holder e.last e.domain) share)
    e.holders e.contributions

/-- The outcome of the election is that of its votes. -/
def IsCounted : Prop :=
  ∃ plaintexts counts, combineBatch G e.dealing.commitments e.last e.contributions e.domain
      = .ok ⟨plaintexts, []⟩ ∧
    plaintexts.length = e.votes.length ∧
    Tally.count G e.encoding (plaintexts.map some) e.bound = .ok counts ∧
    Tally.Counts e.votes counts

end Election

/-! ## Casting -/

variable {G : Group} [accepted : G.Accepted]

/-- A ballot opens to an element that decodes to the vote. -/
theorem exists_of_castBallot {encoding : Encoding} {bound vote : UInt64} {y : ZMod G.q}
    (hy : y ≠ 0) (castable : Tally.Castable G encoding bound vote) {ballot : Pair}
    (h : Draw.Yields (fun _ [Source _] => castBallot G encoding ⟨some (G.element y)⟩ vote) ballot) :
    ∃ c, ballot = G.pairOf c ∧
      Tally.decode G encoding (some (G.element (Group.plainLog y c))) bound = .ok vote := by
  obtain ⟨m, encoded, decoded⟩ := Tally.exists_encode castable
  obtain ⟨σ, _, s, s', run⟩ := h
  simp only [castBallot, Group.encryptFresh, Group.encryptWithNonce, encoded,
    Draw.returns_bind_iff, Draw.returns_liftM_iff, Draw.returns_pure_iff, Except.ok.injEq] at run
  obtain ⟨_, _, ⟨rfl, -⟩, _, _, ⟨nonce, _, drawn, made, _, ⟨encrypted, -⟩, rfl, -⟩, rfl, -⟩ := run
  obtain ⟨r, hr, rfl⟩ := G.randomExponent_returns drawn
  rw [G.encrypt_element hy hr, Except.ok.injEq] at encrypted
  refine ⟨(0, m) + Group.blind y r, encrypted.symm, ?_⟩
  rw [Group.plainLog_add_blind]
  simpa [Group.plainLog] using decoded

theorem exists_of_ballots {encoding : Encoding} {bound : UInt64} {y : ZMod G.q} (hy : y ≠ 0)
    {votes : List UInt64} (castable : ∀ vote ∈ votes, Tally.Castable G encoding bound vote)
    {ballots : List Pair}
    (h : List.Forall₂ (fun vote ballot => Draw.Yields (fun _ [Source _] =>
      castBallot G encoding ⟨some (G.element y)⟩ vote) ballot) votes ballots) :
    ∃ cs : List (ZMod G.q × ZMod G.q), ballots = cs.map G.pairOf ∧
      List.Forall₂ (fun a vote => Tally.decode G encoding (some (G.element a)) bound = .ok vote)
        (cs.map (Group.plainLog y)) votes := by
  induction h with
  | nil => exact ⟨[], rfl, List.Forall₂.nil⟩
  | cons head _ ih =>
    obtain ⟨own, others⟩ := List.forall_mem_cons.1 castable
    obtain ⟨c, rfl, decoded⟩ := exists_of_castBallot hy own head
    obtain ⟨cs, rfl, rest⟩ := ih others
    exact ⟨c :: cs, rfl, List.Forall₂.cons decoded rest⟩

/-! ## The outcome -/

theorem Election.exists_dealing {e : Election} (h : e.Runs G) :
    ∃ (y : ZMod G.q) (as : List (ZMod G.q)), y ≠ 0 ∧ (y :: as).length = e.threshold.toNat ∧
      e.dealing =
        ⟨⟨some (G.element y)⟩, commitmentsOf G (y :: as), sharesOf G (y :: as) e.total⟩ := by
  have dealt : ∃ x, Draw.Yields
      (fun _ [Source _] => dealSecret G ⟨some x⟩ e.threshold e.total) e.dealing := by
    rcases h.dealt with ⟨σ, _, s, s', run⟩ | secret
    · simp only [deal, Draw.returns_bind_iff] at run
      obtain ⟨x, t, -, run⟩ := run
      exact ⟨x, σ, _, t, s', run⟩
    · exact secret
  obtain ⟨x, σ, _, s, s', run⟩ := dealt
  obtain ⟨positive, -, y, as, hy, -, length, -, dealing⟩ := dealSecret_returns run
  refine ⟨y, as, hy, ?_, dealing⟩
  have : e.threshold.toNat ≠ 0 := fun zero => positive (UInt64.toNat_inj.1 zero)
  rw [List.length_cons]
  omega

/-- Every mix of an election passes, the decryption rejects nobody and opens as many plaintexts as
there are votes, and the count gives every value the number of its votes. -/
theorem election_counts (e : Election) (h : e.Runs G) :
    Mix.Along (Mix.Passes G e.key) e.first e.mixes ∧ e.IsCounted G := by
  obtain ⟨y, as, hy, length, dealing⟩ := Election.exists_dealing h
  have key : e.key = ⟨some (G.element y)⟩ := by rw [Election.key, dealing]
  have cast := h.cast
  have mixed := h.mixed
  rw [key] at cast mixed
  obtain ⟨cs, ballots, opened⟩ := exists_of_ballots hy h.castable cast
  have first : e.first = cs.map G.cipherOf := by
    rw [Election.first, ballots, List.map_map]
    rfl
  rw [first] at mixed
  obtain ⟨pass, outputs, final, kept⟩ := shuffled_plainLogs mixed
  have last : e.last = outputs.map G.cipherOf := by rw [Election.last, first, final]
  refine ⟨by rwa [key, first], ?_⟩
  have contributed := h.contributed
  have dealtTo := h.holders_dealt
  rw [last] at contributed
  rw [dealing] at dealtTo
  have combined := combineBatch_honest (List.cons_ne_nil y as) h.few h.holders_nodup dealtTo
    (length ▸ h.enough) contributed
  rw [eval_zero_polyOf_cons] at combined
  -- The mixes have changed the order of the plaintexts, hence of the votes they decode to.
  obtain ⟨votes, decoded, order⟩ := List.perm_comp_forall₂ kept opened
  have elements : List.Forall₂ (fun x vote => Tally.decode G e.encoding x e.bound = .ok vote)
      (((outputs.map (Group.plainLog y)).map G.element).map some) votes := by
    rw [List.map_map, List.forall₂_map_left_iff]
    exact decoded
  obtain ⟨counts, counted, exact⟩ := Tally.exists_count elements
  refine ⟨_, counts, ?_, ?_, counted, exact.perm order⟩
  · rw [dealing, last, combined]
  · rw [List.length_map, decoded.length_eq, order.length_eq]

/-- An election with three votes, one mix, and two of three holders. -/
def Election.small : Election where
  encoding := .exponential
  bound := 10
  threshold := 2
  total := 3
  dealing := {
    electionKey := ⟨some 1416891179⟩
    commitments := ⟨[some 1416891179, some 1954361144]⟩
    shares := [⟨1, some 67504140, some 797631088⟩, ⟨2, some 134942228, some 1704426018⟩,
      ⟨3, some 202380316, some 1369943940⟩] }
  votes := [2, 0, 2]
  ballots := [⟨1974867636, 1719432448⟩, ⟨1246797006, 1171051096⟩, ⟨89898245, 834928113⟩]
  mixes := [{
    options := ⟨[1], 2⟩
    outputs := [⟨588205742, 204450839⟩, ⟨767062628, 1190147104⟩, ⟨1517188077, 1011948103⟩]
    proof := {
      challenge := 1057096639
      s1 := 285828869
      s2 := 149505539
      s3 := 906072965
      s4 := 764134877
      sHat := [465676255, 511422389, 850460299]
      sTilde := [1000486164, 996385271, 783591425]
      commitment := [1159408789, 211961614, 67988933]
      chain := [1491326121, 200232098, 1961111764] } }]
  holders := [⟨3, some 202380316, some 1369943940⟩, ⟨1, some 67504140, some 797631088⟩]
  domain := [1]
  contributions := [
    ⟨3, [some 987596682, some 630852024, some 720726346],
      ⟨[some 540625124, some 742888244, some 653985661, some 1868354303], some 517461037,
        some 361583324⟩⟩,
    ⟨1, [some 179457352, some 1478109460, some 1543532639],
      ⟨[some 1744903370, some 1864406723, some 1832832644, some 325354319], some 724091274,
        some 125261677⟩⟩]

set_option maxRecDepth 100000 in
theorem election_counts_small :
    Election.small.Runs Group.least ∧
      Mix.Along (Mix.Passes Group.least Election.small.key) Election.small.first
        Election.small.mixes ∧ Election.small.IsCounted Group.least := by
  let tape (k : ℕ) : Tape := ⟨(List.range 200).map fun i => UInt8.ofNat (i * k)⟩
  have runs : Election.small.Runs Group.least := by
    refine {
      dealt := Or.inl (Draw.yields_of_run (tape 1) (by decide +kernel))
      few := by decide
      castable := ?_
      cast := ?_
      mixed := ⟨Draw.yields_of_run (tape 11) (by decide +kernel), trivial⟩
      holders_nodup := by decide
      holders_dealt := by decide
      enough := by decide
      contributed := ?_ }
    · intro vote hvote
      have listed : vote ∈ ([2, 0, 2] : List UInt64) := hvote
      simp only [List.mem_cons, List.not_mem_nil, or_false] at listed
      rcases listed with rfl | rfl | rfl
      all_goals decide +kernel
    · refine .cons (Draw.yields_of_run (tape 3) ?_) (.cons (Draw.yields_of_run (tape 5) ?_)
        (.cons (Draw.yields_of_run (tape 7) ?_) .nil))
      all_goals decide +kernel
    · refine .cons (Draw.yields_of_run (tape 13) ?_) (.cons (Draw.yields_of_run (tape 17) ?_) .nil)
      all_goals decide +kernel
  exact ⟨runs, election_counts Election.small runs⟩

end BallotMix
