import BallotMix.Proofs.Formed
import BallotMix.Proofs.LogEquality
import BallotMix.Proofs.Shuffle.Binding
import BallotMix.Proofs.Transcript.Framing
import Mathlib

/-!
# Separation of the proofs

Four protocols take challenges from transcripts: the proofs about key shares, about contributions to
a decryption, about re-encryptions and about shuffles.  A `Query` is what one of them hashes.  On
members a query can always be recorded, and its bytes determine it: the protocol, the election, the
holder, and every column of the statement with its length (`encode_determines`).  The bytes give the
fields by their framing alone, and a column ends where the next label is another one.
-/

namespace BallotMix

/-! ## Queries -/

/-- What a proof of equal logarithms is about. -/
inductive Purpose
  /-- Knowledge of a key share. -/
  | keyShare (holder : Bytes)
  /-- A contribution to a decryption. -/
  | contribution (index : UInt64)
  | reencryption
deriving DecidableEq

namespace Purpose

def context (domain : Bytes) : Purpose → Transcript
  | keyShare holder => Sharing.keyShareContext domain holder
  | contribution index => Sharing.decryptionContext domain index
  | reencryption => Reencryption.context domain

/-- The name of the protocol, which is said first. -/
def protocol : Purpose → Bytes
  | keyShare _ => Bytes.ofText "mixnet/keygen"
  | contribution _ => Bytes.ofText "mixnet/decryption"
  | reencryption => Bytes.ofText "mixnet/reencryption"

/-- What is said about the holder. -/
def holderFields : Purpose → List Field
  | keyShare holder => [⟨Bytes.ofText "sealer", holder⟩]
  | contribution index => [⟨Bytes.ofText "sealer", Bytes.ofUInt64 index⟩]
  | reencryption => []

theorem fields_context (purpose : Purpose) (domain : Bytes) :
    (purpose.context domain).fields = ⟨Bytes.ofText "domain", purpose.protocol⟩ ::
      ⟨Bytes.ofText "election", domain⟩ :: purpose.holderFields := by
  cases purpose <;> rfl

theorem protocol_ne_shuffle (purpose : Purpose) :
    purpose.protocol ≠ Bytes.ofText "mixnet/shuffle" := by
  cases purpose <;> simp only [protocol] <;> decide

/-- The purpose and the election can be read off from the front. -/
theorem eq_of_fields_append {purpose purpose' : Purpose} {domain domain' : Bytes}
    {rest rest' : List Field}
    (same : (purpose.context domain).fields ++ rest = (purpose'.context domain').fields ++ rest') :
    purpose = purpose' ∧ domain = domain' ∧ rest = rest' := by
  simp only [fields_context, List.cons_append, List.cons.injEq, Field.mk.injEq, true_and] at same
  obtain ⟨protocols, rfl, same⟩ := same
  cases purpose <;> cases purpose' <;> try exact absurd protocols (by simp only [protocol]; decide)
  case keyShare.keyShare =>
    obtain ⟨holder, rest⟩ := List.cons.inj same
    exact ⟨congrArg keyShare (congrArg Field.value holder), rfl, rest⟩
  case contribution.contribution =>
    obtain ⟨holder, rest⟩ := List.cons.inj same
    obtain rfl := Bytes.ofUInt64_injective (congrArg Field.value holder)
    exact ⟨rfl, rfl, rest⟩
  case reencryption.reencryption => exact ⟨rfl, rfl, same⟩

end Purpose

/-- What a proof hashes. -/
inductive Query
  /-- For the challenge of a proof of equal logarithms. -/
  | logEquality (purpose : Purpose) (domain : Bytes) (bases images commitments : List ℤ)
  /-- For the weights of a shuffle. -/
  | weights (domain : Bytes) (pk : PublicKey) (inputs outputs : List Ciphertext)
      (commitment : List ℤ)
  /-- For the challenge of a shuffle. -/
  | shuffle (domain : Bytes) (pk : PublicKey) (inputs outputs : List Ciphertext)
      (commitment chain : List ℤ) (t : Shuffle.Announcement)
deriving DecidableEq

namespace Query

variable (G : Group)

/-- The transcript of which a digest is taken. -/
def transcript : Query → Result Transcript
  | logEquality purpose domain bases images commitments =>
    LogEquality.transcript G (purpose.context domain) bases images commitments
  | weights domain pk inputs outputs commitment =>
    Shuffle.statement G domain pk inputs outputs commitment
  | shuffle domain pk inputs outputs commitment chain t => do
    Shuffle.finalTranscript G (← Shuffle.statement G domain pk inputs outputs commitment) chain t

/-- All elements of the query lie in the group. -/
def Members : Query → Prop
  | logEquality _ _ bases images commitments =>
    G.Members ((bases ++ images ++ commitments).map some)
  | weights _ pk inputs outputs commitment =>
    G.Members (pk.h :: commitment.map some) ∧ G.MemberPairs (inputs ++ outputs)
  | shuffle _ pk inputs outputs commitment chain t =>
    G.Members (pk.h :: (commitment ++ chain ++ t.elements).map some) ∧
      G.MemberPairs (inputs ++ outputs)

end Query

/-! ## Queries by exponents -/

/-- A query by exponents. -/
inductive QueryLogs (q : ℕ)
  | logEquality (purpose : Purpose) (domain : Bytes) (bases images commitments : List (ZMod q))
  | weights (domain : Bytes) (key : ZMod q) (inputs outputs : List (ZMod q × ZMod q))
      (commitment : List (ZMod q))
  | shuffle (domain : Bytes) (key : ZMod q) (inputs outputs : List (ZMod q × ZMod q))
      (commitment chain : List (ZMod q)) (t : Shuffle.AnnouncementLogs q)

namespace QueryLogs

open Transcript

variable (G : Group) [accepted : G.Accepted]

/-- The query with the given exponents. -/
def query : QueryLogs G.q → Query
  | logEquality purpose domain bs ys as =>
    .logEquality purpose domain (bs.map G.element) (ys.map G.element) (as.map G.element)
  | weights domain key ins outs commitment =>
    .weights domain ⟨some (G.element key)⟩ (ins.map G.cipherOf) (outs.map G.cipherOf)
      (commitment.map G.element)
  | shuffle domain key ins outs commitment chain t =>
    .shuffle domain ⟨some (G.element key)⟩ (ins.map G.cipherOf) (outs.map G.cipherOf)
      (commitment.map G.element) (chain.map G.element) (Shuffle.announcementOf G t)

/-- The fields of a shuffle up to its statement. -/
def shuffleFields (domain : Bytes) (key : ZMod G.q) (ins outs : List (ZMod G.q × ZMod G.q))
    (commitment : List (ZMod G.q)) : List Field :=
  ⟨Bytes.ofText "domain", Bytes.ofText "mixnet/shuffle"⟩ :: ⟨Bytes.ofText "election", domain⟩ ::
    Shuffle.statementFields G key ins outs commitment

/-- What is recorded. -/
def fields : QueryLogs G.q → List Field
  | logEquality purpose domain bs ys as =>
    (purpose.context domain).fields ++ LogEquality.fieldsOf G bs ys as
  | weights domain key ins outs commitment => shuffleFields G domain key ins outs commitment
  | shuffle domain key ins outs commitment chain t =>
    shuffleFields G domain key ins outs commitment ++ Shuffle.announcementFields G chain t

theorem transcript_query (l : QueryLogs G.q) : (l.query G).transcript G = .ok ⟨l.fields G⟩ := by
  cases l with
  | logEquality purpose domain bs ys as =>
    exact LogEquality.transcript_eq G (purpose.context domain) bs ys as
  | weights domain key ins outs commitment =>
    exact Shuffle.statement_eq G domain key ins outs commitment
  | shuffle domain key ins outs commitment chain t =>
    rw [query, Query.transcript, Shuffle.statement_eq, Result.ok_bind, Shuffle.finalTranscript_eq]
    rfl

variable {G}

/-- A key and lists of members are given by exponents. -/
theorem exists_statement_logs {pk : PublicKey} {inputs outputs : List Ciphertext}
    (key : G.isMember pk.h = true) (pairs : G.MemberPairs (inputs ++ outputs)) :
    ∃ (y : ZMod G.q) (ins outs : List (ZMod G.q × ZMod G.q)), pk = ⟨some (G.element y)⟩ ∧
      inputs = ins.map G.cipherOf ∧ outputs = outs.map G.cipherOf := by
  obtain ⟨h⟩ := pk
  obtain ⟨y, rfl⟩ := G.isMember_iff.1 key
  obtain ⟨first, second⟩ := List.forall_mem_append.1 pairs
  obtain ⟨ins, rfl⟩ := G.exists_cipherOf_list fun ct hct => by simpa using first ct hct
  obtain ⟨outs, rfl⟩ := G.exists_cipherOf_list fun ct hct => by simpa using second ct hct
  exact ⟨y, ins, outs, rfl, rfl, rfl⟩

/-- A query about members is given by exponents. -/
theorem exists_logs {x : Query} (members : x.Members G) : ∃ l : QueryLogs G.q, x = l.query G := by
  cases x with
  | logEquality purpose domain bases images commitments =>
    simp only [Query.Members, Group.members_map_some, List.forall_mem_append] at members
    obtain ⟨⟨bases, images⟩, commitments⟩ := members
    obtain ⟨bs, rfl⟩ := G.exists_elements bases
    obtain ⟨ys, rfl⟩ := G.exists_elements images
    obtain ⟨as, rfl⟩ := G.exists_elements commitments
    exact ⟨.logEquality purpose domain bs ys as, rfl⟩
  | weights domain pk inputs outputs commitment =>
    obtain ⟨elements, pairs⟩ := members
    rw [Group.members_cons, Group.members_map_some] at elements
    obtain ⟨y, ins, outs, rfl, rfl, rfl⟩ := exists_statement_logs elements.1 pairs
    obtain ⟨cs, rfl⟩ := G.exists_elements elements.2
    exact ⟨.weights domain y ins outs cs, rfl⟩
  | shuffle domain pk inputs outputs commitment chain t =>
    obtain ⟨elements, pairs⟩ := members
    simp only [Group.members_cons, Group.members_map_some, List.forall_mem_append] at elements
    obtain ⟨key, ⟨commitment, chain⟩, announcement⟩ := elements
    obtain ⟨y, ins, outs, rfl, rfl, rfl⟩ := exists_statement_logs key pairs
    obtain ⟨cs, rfl⟩ := G.exists_elements commitment
    obtain ⟨ds, rfl⟩ := G.exists_elements chain
    obtain ⟨t, rfl⟩ := Shuffle.exists_announcementOf G announcement
    exact ⟨.shuffle domain y ins outs cs ds t, rfl⟩

/-- The statement of a shuffle can be read off from the front. -/
theorem eq_of_shuffleFields_append {domain domain' : Bytes} {y y' : ZMod G.q}
    {ins outs ins' outs' : List (ZMod G.q × ZMod G.q)} {cs cs' : List (ZMod G.q)}
    {rest rest' : List Field} (ends : EndsList (Bytes.ofText "perm") rest)
    (ends' : EndsList (Bytes.ofText "perm") rest')
    (same : shuffleFields G domain y ins outs cs ++ rest
      = shuffleFields G domain' y' ins' outs' cs' ++ rest') :
    domain = domain' ∧ y = y' ∧ ins = ins' ∧ outs = outs' ∧ cs = cs' ∧ rest = rest' := by
  simp only [shuffleFields, List.cons_append, List.cons.injEq, Field.mk.injEq, true_and] at same
  exact ⟨same.1, Shuffle.eq_of_statementFields ends ends' same.2⟩

/-- The fields of a proof of equal logarithms are not those of a shuffle. -/
theorem context_append_ne {purpose : Purpose} {domain domain' : Bytes} {y : ZMod G.q}
    {ins outs : List (ZMod G.q × ZMod G.q)} {cs : List (ZMod G.q)} {rest rest' : List Field} :
    (purpose.context domain).fields ++ rest ≠ shuffleFields G domain' y ins outs cs ++ rest' := by
  rw [purpose.fields_context, shuffleFields]
  intro same
  exact purpose.protocol_ne_shuffle (congrArg Field.value (List.cons.inj same).1)

theorem fields_injective : Function.Injective (fields G) := by
  have ended : EndsList (Bytes.ofText "perm") [] := by simp [EndsList]
  have announced (ds : List (ZMod G.q)) (t : Shuffle.AnnouncementLogs G.q) :
      EndsList (Bytes.ofText "perm") (Shuffle.announcementFields G ds t) :=
    Shuffle.endsList_announcementFields (by decide)
  -- After the statement of a shuffle comes nothing or the announcement, and either ends the column of
  -- the commitment.
  intro l l' same
  cases l <;> cases l' <;> simp only [fields] at same
  case logEquality.logEquality =>
    obtain ⟨rfl, rfl, columns⟩ := Purpose.eq_of_fields_append same
    obtain ⟨rfl, rfl, rfl⟩ := LogEquality.eq_of_fieldsOf G columns
    rfl
  case logEquality.weights =>
    rw [← List.append_nil (shuffleFields ..)] at same
    exact absurd same context_append_ne
  case logEquality.shuffle => exact absurd same context_append_ne
  case weights.logEquality =>
    rw [← List.append_nil (shuffleFields ..)] at same
    exact absurd same.symm context_append_ne
  case weights.weights =>
    obtain ⟨rfl, rfl, rfl, rfl, rfl, -⟩ :=
      eq_of_shuffleFields_append ended ended (congrArg (· ++ []) same)
    rfl
  case weights.shuffle =>
    rw [← List.append_nil (shuffleFields ..)] at same
    have rests := (eq_of_shuffleFields_append ended (announced _ _) same).2.2.2.2.2
    cases rests
  case shuffle.logEquality => exact absurd same.symm context_append_ne
  case shuffle.weights =>
    have rests := (eq_of_shuffleFields_append (announced _ _) ended
      (same.trans (List.append_nil _).symm)).2.2.2.2.2
    cases rests
  case shuffle.shuffle =>
    obtain ⟨rfl, rfl, rfl, rfl, rfl, rests⟩ :=
      eq_of_shuffleFields_append (announced _ _) (announced _ _) same
    obtain ⟨rfl, rfl⟩ := Shuffle.eq_of_announcementFields rests
    rfl

end QueryLogs

/-! ## The guarantee -/

/-- Where labels and values are shorter than `2 ^ 32` bytes, the bytes of a transcript determine the
fields that were said, and begin those of another only if its fields do.  So what the four protocols
hash about members can always be recorded and determines the whole query. -/
theorem encode_determines (G : Group) [G.Accepted] :
    (∀ (domain domain' : Bytes) (as bs : List Addition) (S T : Transcript),
      Addition.recorded domain as = .ok S → Addition.recorded domain' bs = .ok T →
      S.Short → T.Short →
        (S.encode = T.encode ↔ Addition.said domain as = Addition.said domain' bs) ∧
        (S.encode <+: T.encode ↔ Addition.said domain as <+: Addition.said domain' bs)) ∧
    ∀ x y : Query, x.Members G → y.Members G →
      ∃ S T, x.transcript G = .ok S ∧ y.transcript G = .ok T ∧
        (S.Short → T.Short → (S.encode = T.encode ↔ x = y)) := by
  constructor
  · intro domain domain' as bs S T hS hT short short'
    obtain ⟨-, rfl⟩ := Addition.recorded_eq_ok_iff.1 hS
    obtain ⟨-, rfl⟩ := Addition.recorded_eq_ok_iff.1 hT
    exact ⟨Transcript.encode_inj_iff short short', Transcript.encode_prefix_iff short short'⟩
  · intro x y hx hy
    obtain ⟨l, rfl⟩ := QueryLogs.exists_logs hx
    obtain ⟨l', rfl⟩ := QueryLogs.exists_logs hy
    refine ⟨_, _, l.transcript_query G, l'.transcript_query G, fun short short' => ?_⟩
    rw [Transcript.encode_inj_iff short short']
    constructor
    · intro same
      rw [QueryLogs.fields_injective same]
    · intro same
      have transcripts := l.transcript_query G
      rw [same, l'.transcript_query G, Except.ok.injEq] at transcripts
      exact congrArg Transcript.fields transcripts.symm

/-- Fields that differ in where a label ends, one empty field in front of two, and two proofs whose
columns hold the same elements but part elsewhere. -/
theorem encode_determines_least :
    let text (label value : String) : Addition := .bytes (Bytes.ofText label) (Bytes.ofText value)
    let x : Query := .logEquality .reencryption (Bytes.ofText "e") [4, 16] [64] [256]
    let y : Query := .logEquality .reencryption (Bytes.ofText "e") [4] [16, 64] [256]
    (∃ S T, Addition.recorded [] [text "ab" "c"] = .ok S ∧
      Addition.recorded [] [text "a" "bc"] = .ok T ∧ S.encode ≠ T.encode) ∧
    (∃ S T, Addition.recorded [] [text "" ""] = .ok S ∧
      Addition.recorded [] [text "" "", text "" ""] = .ok T ∧ S.encode <+: T.encode ∧
      ¬ T.encode <+: S.encode) ∧
    ∃ S T, x.transcript Group.least = .ok S ∧ y.transcript Group.least = .ok T ∧
      S.encode ≠ T.encode := by
  intro text x y
  obtain ⟨framed, separated⟩ := encode_determines Group.least
  have made (as : List Addition) (fits : ∀ a ∈ as, a.Fits) :
      Addition.recorded [] as = .ok ⟨Addition.said [] as⟩ :=
    Addition.recorded_eq_ok_iff.2 ⟨fits, rfl⟩
  refine ⟨?shifted, ?empty, ?columns⟩
  case shifted =>
    have hS := made [text "ab" "c"] (by simp [text, Addition.Fits])
    have hT := made [text "a" "bc"] (by simp [text, Addition.Fits])
    have determined := framed _ _ _ _ _ _ hS hT (by decide) (by decide)
    exact ⟨_, _, hS, hT, determined.1.not.2 (by decide)⟩
  case empty =>
    have hS := made [text "" ""] (by simp [text, Addition.Fits])
    have hT := made [text "" "", text "" ""] (by simp [text, Addition.Fits])
    have front := framed _ _ _ _ _ _ hS hT (by decide) (by decide)
    have back := framed _ _ _ _ _ _ hT hS (by decide) (by decide)
    exact ⟨_, _, hS, hT, front.2.2 (by decide), back.2.not.2 (by decide)⟩
  case columns =>
    have member : ∀ v ∈ [4, 16, 64, 256], Group.least.isMember (some v) = true := by decide +kernel
    have hx : x.Members Group.least := Group.members_map_some.2 member
    have hy : y.Members Group.least := Group.members_map_some.2 member
    obtain ⟨S, T, hS, hT, determined⟩ := separated x y hx hy
    have shortS : (x.transcript Group.least).toOption.any (fun S => decide S.Short) = true := by
      decide +kernel
    have shortT : (y.transcript Group.least).toOption.any (fun T => decide T.Short) = true := by
      decide +kernel
    rw [hS] at shortS
    rw [hT] at shortT
    exact ⟨S, T, hS, hT, (determined (of_decide_eq_true shortS) (of_decide_eq_true shortT)).not.2
      (by decide)⟩

end BallotMix
