import BallotMix.Proofs.Command.Commands
import BallotMix.Proofs.Group.Preset
import Mathlib

/-!
# An election on the command line

An election is held by calls of the program, each of which is given lines that earlier calls printed:
the key and the commitments of the dealer, the ballots, the shuffled list with its proof, the shares
of those who open a ciphertext and their contributions.  All calls succeed, the proof is found to hold,
no contribution is rejected, and the values that come out are those that went in
(`polling_succeeds`).
-/

namespace BallotMix.Command

/-! ## Outcomes -/

/-- The opening of one ciphertext. -/
structure Opening where
  /-- The shares that take part, as they were printed. -/
  holders : List String
  /-- What the calls of their holders leave. -/
  partials : List Outcome
  combination : Outcome

def Opening.outcomes (o : Opening) : List Outcome := o.partials ++ [o.combination]

/-- What the calls of an election leave. -/
structure Polling where
  dealing : Outcome
  ballots : List Outcome
  shuffle : Outcome
  verification : Outcome
  /-- The openings of the shuffled list, in its order. -/
  openings : List Opening

namespace Polling

variable (p : Polling)

def outcomes : List Outcome :=
  p.dealing :: p.ballots ++ p.shuffle :: p.verification :: p.openings.flatMap Opening.outcomes

/-! ## Lines -/

def key : String := (lines p.dealing.out).getD 0 ""

def commitments : String := (lines p.dealing.out).getD 1 ""

def shares : List String := (lines p.dealing.out).drop 2

/-- The ciphertexts before the shuffle. -/
def inputs : List String := p.ballots.flatMap fun o => lines o.out

/-- The ciphertexts after the shuffle. -/
def outputs : List String := (lines p.shuffle.out).dropLast

def proof : String := (lines p.shuffle.out).getLastD ""

end Polling

/-! ## Runs -/

/-- A ciphertext is opened with at least `t` of the shares, in any order. -/
structure Opening.Runs (G : Group) (domain : Bytes) (t : UInt64) (commitments : String)
    (shares : List String) (ct : String) (o : Opening) : Prop where
  distinct : o.holders.Nodup
  dealt : ∀ share ∈ o.holders, share ∈ shares
  enough : t.toNat ≤ o.holders.length
  contributed : List.Forall₂ (fun share => Leaves G domain (fun _ [Source _] => G.randomExponent)
    ["partial", share, ct]) o.holders o.partials
  combined : Leaves G domain (fun σ [Source σ] => (pure () : Draw σ Unit))
    ("combine" :: commitments :: ct :: o.partials.flatMap fun out => lines out.out) o.combination

/-- Every outcome is that of a call given what the calls before it printed.  Settings apart from the
group and the domain, and the sources, are those of each call.  All ballots are arguments of one
call, and the number of these fits in 32 bits. -/
structure Polling.Runs (G : Group) (domain : Bytes) (t n : UInt64) (votes : List UInt64)
    (p : Polling) : Prop where
  few : votes.length < 2 ^ 32
  dealt : Leaves G domain (fun _ [Source _] => G.randomExponents t.toNat)
    ["deal", decimal t, decimal n] p.dealing
  cast : List.Forall₂ (fun vote => Leaves G domain (fun _ [Source _] => G.randomExponent)
    ["encrypt", p.key, decimal vote]) votes p.ballots
  shuffled : Leaves G domain (fun _ [Source _] => Shuffle.drawShuffle G votes.length)
    ("shuffle" :: p.key :: p.inputs) p.shuffle
  verified : Leaves G domain (fun σ [Source σ] => (pure () : Draw σ Unit))
    ("verify-shuffle" :: p.key :: p.proof :: decimal (UInt64.ofNat votes.length) ::
      (p.inputs ++ p.outputs)) p.verification
  opened : List.Forall₂ (Opening.Runs G domain t p.commitments p.shares) p.outputs p.openings

/-- All calls end with exit code zero and without a remark, so that nothing is reported as rejected;
the proof is found to hold; and the values printed at the end are the votes in some order. -/
structure Polling.Succeeds (votes : List UInt64) (p : Polling) : Prop where
  clean : ∀ out ∈ p.outcomes, out.IsClean
  verified : p.verification.out = "OK\n"
  counted : ∃ values : List UInt64, values.Perm votes ∧
    p.openings.map (fun o => o.combination.out) = values.map fun v => decimal v ++ "\n"

/-! ## Calls -/

variable {G : Group} [accepted : G.Accepted] {domain : Bytes}

open Sharing

theorem lines_printing {words : List String} (h : ∀ word ∈ words, IsWord word) :
    lines (Outcome.printing words).out = words := lines_unlines h

/-- Outcomes of one line each give a list of lines. -/
theorem flatMap_lines {α : Type} {text : α → String} (h : ∀ a, IsWord (text a)) (xs : List α) :
    (xs.map fun a => Outcome.printing [text a]).flatMap (fun out => lines out.out) = xs.map text := by
  have line (a : α) : lines (Outcome.printing [text a]).out = [text a] :=
    lines_printing (by simpa using h a)
  rw [List.flatMap_map]
  simp only [line]
  exact List.map_eq_flatMap.symm

/-- What a dealer's call leaves. -/
theorem exists_dealt {t n : UInt64} (positive : 1 ≤ t) (le : t ≤ n) (small : n.toNat < 2 ^ 32)
    {out : Outcome} (h : Leaves G domain (fun _ [Source _] => G.randomExponents t.toNat)
      ["deal", decimal t, decimal n] out) :
    ∃ (y : ZMod G.q) (as : List (ZMod G.q)), y ≠ 0 ∧ (y :: as).length = t.toNat ∧
      out = .printing (keyText G y :: commitmentsText G (y :: as) :: shareTexts G (y :: as) n) := by
  have nonzero : t ≠ 0 := by
    rintro rfl
    exact absurd positive (by decide)
  have words : ∀ a ∈ [decimal t, decimal n], IsWord a := by
    simp [isWord_decimal]
  obtain ⟨⟨y, as⟩, ⟨hy, length⟩, rfl⟩ := h.exists_printed (by decide) words
    (fun f : ZMod G.q × List (ZMod G.q) =>
      keyText G f.1 :: commitmentsText G (f.1 :: f.2) :: shareTexts G (f.1 :: f.2) n)
    (P := fun f => f.1 ≠ 0 ∧ (f.1 :: f.2).length = t.toNat) fun _ _ _ _ _ _ drawn => by
      obtain ⟨y, as, hy, length, prints⟩ := exists_prints_deal nonzero le small drawn
      exact ⟨(y, as), ⟨hy, length⟩, prints⟩
  exact ⟨y, as, hy, length, rfl⟩

theorem lines_of_dealing {y : ZMod G.q} {as : List (ZMod G.q)} {n : UInt64} {p : Polling}
    (h : p.dealing
      = .printing (keyText G y :: commitmentsText G (y :: as) :: shareTexts G (y :: as) n)) :
    p.key = keyText G y ∧ p.commitments = commitmentsText G (y :: as) ∧
      p.shares = shareTexts G (y :: as) n := by
  have words : ∀ a ∈ keyText G y :: commitmentsText G (y :: as) :: shareTexts G (y :: as) n,
      IsWord a := by
    simp only [List.forall_mem_cons, shareTexts, List.forall_mem_map]
    exact ⟨isWord_keyText G y, isWord_commitmentsText G _, fun share _ => isWord_shareText G _ _⟩
  rw [Polling.key, Polling.commitments, Polling.shares, h, lines_printing words]
  exact ⟨rfl, rfl, rfl⟩

/-- What the calls of voters leave. -/
theorem exists_ballots {y : ZMod G.q} (hy : y ≠ 0) {votes : List UInt64} {outs : List Outcome}
    (h : List.Forall₂ (fun vote => Leaves G domain (fun _ [Source _] => G.randomExponent)
      ["encrypt", keyText G y, decimal vote]) votes outs) :
    ∃ cs : List (ZMod G.q × ZMod G.q),
      cs.map (Group.plainLog y) = votes.map (fun vote => (vote.toNat : ZMod G.q)) ∧
      outs = cs.map fun c => .printing [ballotText G c] := by
  induction h with
  | nil => exact ⟨[], rfl, rfl⟩
  | @cons vote out votes outs head _ ih =>
    have words : ∀ a ∈ [keyText G y, decimal vote], IsWord a := by
      simp [isWord_keyText, isWord_decimal]
    obtain ⟨c, plain, rfl⟩ := head.exists_printed (by decide) words (fun c => [ballotText G c])
      fun _ _ _ _ _ _ drawn => exists_prints_encrypt hy vote drawn
    obtain ⟨cs, plains, rfl⟩ := ih
    exact ⟨c :: cs, by rw [List.map_cons, List.map_cons, plain, plains], rfl⟩

/-- What the call of a mixer leaves. -/
theorem exists_shuffled {y : ZMod G.q} (hy : y ≠ 0) {cs : List (ZMod G.q × ZMod G.q)} (ne : cs ≠ [])
    (small : cs.length < 2 ^ 32) {gens : Shuffle.Generators}
    (derived : Shuffle.generators G domain cs.length = .ok gens) {out : Outcome}
    (h : Leaves G domain (fun _ [Source _] => Shuffle.drawShuffle G cs.length)
      ("shuffle" :: keyText G y :: cs.map (ballotText G)) out) :
    ∃ ds proof, IsShuffled domain y cs ds proof ∧
      out = .printing (ds.map (ballotText G) ++ [proofText G proof]) := by
  have words : ∀ a ∈ keyText G y :: cs.map (ballotText G), IsWord a :=
    List.forall_mem_cons.2 ⟨isWord_keyText G y, List.forall_mem_map.2 fun c _ => isWord_ballotText G c⟩
  obtain ⟨⟨ds, proof⟩, shuffled, rfl⟩ := h.exists_printed (by decide) words
    (fun made : List (ZMod G.q × ZMod G.q) × Shuffle.CompleteProof =>
      made.1.map (ballotText G) ++ [proofText G made.2])
    (P := fun made => IsShuffled domain y cs made.1 made.2) fun threads _ _ _ _ _ answered => by
      obtain ⟨ds, proof, shuffled, prints⟩ :=
        exists_prints_shuffle hy ne small threads derived answered
      exact ⟨(ds, proof), shuffled, prints⟩
  exact ⟨ds, proof, shuffled, rfl⟩

theorem lines_of_shuffle {ds : List (ZMod G.q × ZMod G.q)} {proof : Shuffle.CompleteProof}
    {p : Polling} (h : p.shuffle = .printing (ds.map (ballotText G) ++ [proofText G proof])) :
    p.outputs = ds.map (ballotText G) ∧ p.proof = proofText G proof := by
  have words : ∀ a ∈ ds.map (ballotText G) ++ [proofText G proof], IsWord a := by
    simp only [List.forall_mem_append, List.forall_mem_map, List.forall_mem_singleton]
    exact ⟨fun d _ => isWord_ballotText G d, isWord_proofText G proof⟩
  rw [Polling.outputs, Polling.proof, h, lines_printing words]
  exact ⟨List.dropLast_concat, by simp⟩

/-- What the call of a verifier leaves. -/
theorem verified_of_shuffled {y : ZMod G.q} (hy : y ≠ 0) {cs ds : List (ZMod G.q × ZMod G.q)}
    (ne : cs ≠ []) (small : cs.length < 2 ^ 32) {proof : Shuffle.CompleteProof}
    (shuffled : IsShuffled domain y cs ds proof) {out : Outcome}
    (h : Leaves G domain (fun σ [Source σ] => (pure () : Draw σ Unit))
      ("verify-shuffle" :: keyText G y :: proofText G proof :: decimal (UInt64.ofNat cs.length) ::
        (cs.map (ballotText G) ++ ds.map (ballotText G))) out) : out = .printing ["OK"] := by
  have words : ∀ a ∈ keyText G y :: proofText G proof :: decimal (UInt64.ofNat cs.length) ::
      (cs.map (ballotText G) ++ ds.map (ballotText G)), IsWord a := by
    have ballots (bs : List (ZMod G.q × ZMod G.q)) : ∀ a ∈ bs.map (ballotText G), IsWord a :=
      List.forall_mem_map.2 fun c _ => isWord_ballotText G c
    simp only [List.forall_mem_cons, List.forall_mem_append]
    exact ⟨isWord_keyText G y, isWord_proofText G proof, isWord_decimal _, ballots cs, ballots ds⟩
  obtain ⟨_, -, rfl⟩ := h.exists_printed (by decide) words (fun _ : Unit => ["OK"])
    (P := fun _ => True) fun threads _ _ _ _ _ _ =>
      ⟨(), trivial, prints_verifyShuffle hy ne small shuffled threads⟩
  rfl

/-! ## Openings -/

/-- What the calls of holders of dealt shares leave. -/
theorem exists_contributions {as : List (ZMod G.q)} {n : UInt64} (small : n.toNat < 2 ^ 32)
    {d : ZMod G.q × ZMod G.q} {holders : List KeyShare} (dealt : ∀ k ∈ holders, k ∈ sharesOf G as n)
    {outs : List Outcome}
    (h : List.Forall₂ (fun k : KeyShare => Leaves G domain (fun _ [Source _] => G.randomExponent)
      ["partial", shareText G as k.index, ballotText G d]) holders outs) :
    ∃ shares : List DecryptionShare,
      List.Forall₂ (fun k share => Contributes G k (G.cipherOf d) domain share) holders shares ∧
      (∀ share ∈ shares, (Wire.shareFormat G).Fits share) ∧
      outs = shares.map fun share => .printing [contributionText G share] := by
  induction h with
  | nil => exact ⟨[], List.Forall₂.nil, by simp, rfl⟩
  | @cons k out holders outs head _ ih =>
    obtain ⟨own, others⟩ := List.forall_mem_cons.1 dealt
    obtain ⟨same, -, low⟩ := eq_shareOf_of_mem own
    have words : ∀ a ∈ [shareText G as k.index, ballotText G d], IsWord a := by
      simp [isWord_shareText, isWord_ballotText]
    obtain ⟨share, ⟨made, fits⟩, rfl⟩ := head.exists_printed (by decide) words
      (fun share => [contributionText G share])
      (P := fun share => Contributes G (shareOf G as k.index) (G.cipherOf d) domain share ∧
        (Wire.shareFormat G).Fits share) fun _ _ _ _ _ _ drawn => by
        obtain ⟨share, made, fits, prints⟩ :=
          exists_prints_partial (low.trans_lt small) d domain drawn
        exact ⟨share, ⟨made, fits⟩, prints⟩
    obtain ⟨shares, rest, all, rfl⟩ := ih others
    rw [← same] at made
    exact ⟨share :: shares, List.Forall₂.cons made rest, List.forall_mem_cons.2 ⟨fits, all⟩, rfl⟩

/-- Distinct lines of shares are those of distinct shares. -/
theorem exists_holders {as : List (ZMod G.q)} {n : UInt64} {lines : List String}
    (distinct : lines.Nodup) (dealt : ∀ line ∈ lines, line ∈ shareTexts G as n) :
    ∃ holders : List KeyShare, holders.Nodup ∧ (∀ k ∈ holders, k ∈ sharesOf G as n) ∧
      lines = holders.map fun k => shareText G as k.index := by
  obtain ⟨ks, rfl⟩ := exists_map_of_forall_mem
    (g := fun k : { k // k ∈ sharesOf G as n } => shareText G as k.val.index) fun line hline => by
      obtain ⟨k, hk, rfl⟩ := List.mem_map.1 (dealt line hline)
      exact ⟨⟨k, hk⟩, rfl⟩
  refine ⟨ks.map Subtype.val, ?_, ?_, ?_⟩
  · exact (List.Nodup.of_map _ distinct).map Subtype.val_injective
  · exact List.forall_mem_map.2 fun k _ => k.property
  · rw [List.map_map]
    rfl

/-- What the calls for the opening of a ciphertext leave, if it holds the value. -/
theorem Opening.Runs.eq {y : ZMod G.q} {as : List (ZMod G.q)} {t n : UInt64}
    (length : (y :: as).length = t.toNat) (le : t ≤ n) (few : n.toNat < G.q)
    (small : n.toNat < 2 ^ 32) {d : ZMod G.q × ZMod G.q} {value : UInt64}
    (holds : Group.plainLog y d = value.toNat) (castable : value.toNat ≤ 2 ^ 20 ∧ value.toNat < G.q)
    {o : Opening} (runs : o.Runs G domain t (commitmentsText G (y :: as))
      (shareTexts G (y :: as) n) (ballotText G d)) :
    (∀ out ∈ o.outcomes, out.IsClean) ∧ o.combination = .printing [decimal value] := by
  obtain ⟨distinct, dealt, enough, contributed, combined⟩ := runs
  obtain ⟨holders, nodup, own, lines⟩ := exists_holders distinct dealt
  rw [lines, List.forall₂_map_left_iff] at contributed
  rw [lines, List.length_map, ← length] at enough
  obtain ⟨shares, made, fits, partials⟩ := exists_contributions small own contributed
  have opened := combine_of_holders (List.cons_ne_nil y as) few nodup own enough made
  rw [eval_zero_polyOf_cons, holds] at opened
  have many : (y :: as).length < 2 ^ 32 := by
    rw [length]
    exact (UInt64.le_iff_toNat_le.1 le).trans_lt small
  rw [partials, flatMap_lines (isWord_contributionText G)] at combined
  have words : ∀ a ∈ commitmentsText G (y :: as) :: ballotText G d ::
      shares.map (contributionText G), IsWord a := by
    simp only [List.forall_mem_cons, List.forall_mem_map]
    exact ⟨isWord_commitmentsText G _, isWord_ballotText G d,
      fun share _ => isWord_contributionText G share⟩
  obtain ⟨_, -, printed⟩ := combined.exists_printed (by decide) words
    (fun _ : Unit => [decimal value]) (P := fun _ => True) fun _ _ _ _ _ _ _ =>
      ⟨(), trivial, prints_combine (List.cons_ne_nil y as) many fits opened
        (UInt64.le_iff_toNat_le.2 castable.1) castable.2⟩
  refine ⟨?_, printed⟩
  rw [Opening.outcomes, partials, printed, List.forall_mem_append, List.forall_mem_map,
    List.forall_mem_singleton]
  exact ⟨fun _ _ => Outcome.isClean_printing _, Outcome.isClean_printing _⟩

/-- What the calls for the openings of all ciphertexts leave. -/
theorem openings_eq {y : ZMod G.q} {as : List (ZMod G.q)} {t n : UInt64}
    (length : (y :: as).length = t.toNat) (le : t ≤ n) (few : n.toNat < G.q)
    (small : n.toNat < 2 ^ 32) {ds : List (ZMod G.q × ZMod G.q)} {values : List UInt64}
    (holds : List.Forall₂ (fun d value => Group.plainLog y d = (value.toNat : ZMod G.q)) ds values)
    (castable : ∀ value ∈ values, value.toNat ≤ 2 ^ 20 ∧ value.toNat < G.q)
    {openings : List Opening} (runs : List.Forall₂ (fun d => Opening.Runs G domain t
      (commitmentsText G (y :: as)) (shareTexts G (y :: as) n) (ballotText G d)) ds openings) :
    (∀ out ∈ openings.flatMap Opening.outcomes, out.IsClean) ∧
      openings.map Opening.combination = values.map fun value => .printing [decimal value] := by
  induction holds generalizing openings with
  | nil =>
    cases runs
    exact ⟨by simp, rfl⟩
  | cons head _ ih =>
    cases runs with
    | cons first rest =>
      obtain ⟨own, others⟩ := List.forall_mem_cons.1 castable
      obtain ⟨clean, combination⟩ := first.eq length le few small head own
      obtain ⟨cleans, combinations⟩ := ih others rest
      refine ⟨?_, by rw [List.map_cons, List.map_cons, combination, combinations]⟩
      rw [List.flatMap_cons, List.forall_mem_append]
      exact ⟨clean, cleans⟩

/-! ## Calls in a row -/

/-- The election that is held by making the calls one after the other, and by opening every ciphertext
with the same shares. -/
def Polling.held (make : List String → Outcome) (t n : UInt64) (votes : List UInt64)
    (holders : List String) : Polling :=
  let p : Polling := ⟨make ["deal", decimal t, decimal n], [], .printing [], .printing [], []⟩
  let p := { p with ballots := votes.map fun vote => make ["encrypt", p.key, decimal vote] }
  let p := { p with shuffle := make ("shuffle" :: p.key :: p.inputs) }
  let p := { p with
    verification := make ("verify-shuffle" :: p.key :: p.proof ::
      decimal (UInt64.ofNat votes.length) :: (p.inputs ++ p.outputs)) }
  { p with
    openings := p.outputs.map fun ct =>
      let partials := holders.map fun share => make ["partial", share, ct]
      { holders, partials
        combination :=
          make ("combine" :: p.commitments :: ct :: partials.flatMap fun out => lines out.out) } }

omit accepted in
theorem Polling.held_runs {make : List String → Outcome} {t n : UInt64} {votes : List UInt64}
    (few : votes.length < 2 ^ 32)
    (dealt : ∀ command, Leaves G domain (fun _ [Source _] => G.randomExponents t.toNat) command
      (make command))
    (once : ∀ command, Leaves G domain (fun _ [Source _] => G.randomExponent) command (make command))
    (shuffled : ∀ command, Leaves G domain (fun _ [Source _] => Shuffle.drawShuffle G votes.length)
      command (make command))
    (undrawn : ∀ command, Leaves G domain (fun σ [Source σ] => (pure () : Draw σ Unit)) command
      (make command))
    {holders : List String} (distinct : holders.Nodup) (enough : t.toNat ≤ holders.length)
    (own : ∀ share ∈ holders, share ∈ (held make t n votes holders).shares) :
    (held make t n votes holders).Runs G domain t n votes where
  few := few
  dealt := dealt _
  cast := List.forall₂_map_right_iff.2 (List.forall₂_same.2 fun _ _ => once _)
  shuffled := shuffled _
  verified := undrawn _
  opened := List.forall₂_map_right_iff.2 <| List.forall₂_same.2 fun _ _ => {
    distinct := distinct
    dealt := own
    enough := enough
    contributed := List.forall₂_map_right_iff.2 (List.forall₂_same.2 fun _ _ => once _)
    combined := undrawn _ }

/-! ## The election -/

/-- An election on the command line succeeds: every call does, the proof of the shuffle is found to
hold, no contribution is rejected, and the values that the ciphertexts are opened to are the votes. -/
theorem polling_succeeds {t n : UInt64} (positive : 1 ≤ t) (le : t ≤ n) (few : n.toNat < G.q)
    (small : n.toNat < 2 ^ 32) {votes : List UInt64} (ne : votes ≠ [])
    (castable : ∀ vote ∈ votes, vote.toNat ≤ 2 ^ 20 ∧ vote.toNat < G.q)
    (derived : ∃ gens, Shuffle.generators G domain votes.length = .ok gens) {polling : Polling}
    (runs : polling.Runs G domain t n votes) : polling.Succeeds votes := by
  obtain ⟨several, dealt, cast, shuffled, verified, opened⟩ := runs
  obtain ⟨y, as, hy, length, dealing⟩ := exists_dealt positive le small dealt
  obtain ⟨key, commitments, shares⟩ := lines_of_dealing dealing
  rw [key] at cast shuffled verified
  obtain ⟨cs, plains, ballots⟩ := exists_ballots hy cast
  have size : cs.length = votes.length := by simpa using congrArg List.length plains
  have inputs : polling.inputs = cs.map (ballotText G) := by
    rw [Polling.inputs, ballots, flatMap_lines (isWord_ballotText G)]
  rw [inputs, ← size] at shuffled verified
  have nonempty : cs ≠ [] := by
    rwa [Ne, ← List.length_eq_zero_iff, size, List.length_eq_zero_iff]
  rw [← size] at several
  obtain ⟨gens, derived⟩ := derived
  obtain ⟨ds, proof, isShuffled, shuffle⟩ :=
    exists_shuffled hy nonempty several (size ▸ derived) shuffled
  obtain ⟨outputs, proof_eq⟩ := lines_of_shuffle shuffle
  rw [proof_eq, outputs] at verified
  have verification := verified_of_shuffled hy nonempty several isShuffled verified
  -- The shuffle has changed the order of the plaintexts, hence of the votes they are.
  have encoded : List.Forall₂ (fun (a : ZMod G.q) (vote : UInt64) => a = vote.toNat)
      (cs.map (Group.plainLog y)) votes := by
    rw [plains, List.forall₂_map_left_iff]
    exact List.forall₂_same.2 fun _ _ => rfl
  obtain ⟨values, holds, order⟩ := List.perm_comp_forall₂ isShuffled.kept encoded
  rw [List.forall₂_map_left_iff] at holds
  rw [outputs, commitments, shares, List.forall₂_map_left_iff] at opened
  obtain ⟨clean, combinations⟩ := openings_eq length le few small holds
    (fun value hvalue => castable value (order.subset hvalue)) opened
  constructor
  · rw [Polling.outcomes, dealing, ballots, shuffle, verification]
    simp only [List.cons_append, List.forall_mem_cons, List.forall_mem_append, List.forall_mem_map]
    have printed := Outcome.isClean_printing
    exact ⟨printed _, fun _ _ => printed _, printed _, printed _, clean⟩
  · rw [verification]
    exact unlines_singleton "OK"
  · refine ⟨values, order, ?_⟩
    have printed := congrArg (List.map Outcome.out) combinations
    rw [List.map_map, List.map_map] at printed
    exact printed.trans (List.map_congr_left fun value _ => unlines_singleton _)

/-- A call with the parameter set `sm`, for the domain `vote` and with two threads. -/
def smallCall (command : List String) : Outcome :=
  call ([Flag.params "sm", .domain "vote", .threads "2"].flatMap Flag.words ++ command)
    (⟨(List.range 90).map UInt8.ofNat⟩ : Tape)

set_option maxRecDepth 100000 in
theorem polling_succeeds_small :
    let polling := Polling.held smallCall 2 3 [7, 5] ["3:12161A1E222A", "1:06080A0C0E12"]
    polling.Runs Group.small (Bytes.ofText "vote") 2 3 [7, 5] ∧ polling.Succeeds [7, 5] := by
  have selects : Selects Group.small (Bytes.ofText "vote")
      [.params "sm", .domain "vote", .threads "2"] :=
    ⟨⟨"sm", ⟨Bytes.ofText "vote", 2⟩, []⟩, rfl, Group.preset_small, rfl⟩
  have runs : (Polling.held smallCall 2 3 [7, 5] ["3:12161A1E222A", "1:06080A0C0E12"]).Runs
      Group.small (Bytes.ofText "vote") 2 3 [7, 5] :=
    Polling.held_runs (by decide)
      (leaves_call selects (Draw.exists_returns_iff.2 (by decide +kernel)))
      (leaves_call selects (Draw.exists_returns_iff.2 (by decide +kernel)))
      (leaves_call selects (Draw.exists_returns_iff.2 (by decide +kernel)))
      (leaves_call selects (Draw.exists_returns_iff.2 rfl)) (by decide) (by decide)
      (by decide +kernel)
  have castable : ∀ vote ∈ ([7, 5] : List UInt64),
      vote.toNat ≤ 2 ^ 20 ∧ vote.toNat < Group.small.q := by simp [Group.small]
  have derived : ∃ gens, Shuffle.generators Group.small (Bytes.ofText "vote") 2 = .ok gens :=
    Result.exists_eq_ok_iff.2 (by decide +kernel)
  exact ⟨runs, polling_succeeds (by decide) (by decide) (by decide) (by decide) (by decide) castable
    derived runs⟩

end BallotMix.Command
