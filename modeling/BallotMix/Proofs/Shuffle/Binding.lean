import BallotMix.Proofs.Shuffle.Verifier
import Mathlib

/-!
# Proofs are bound to their statements

The challenge of a proof is taken from the bytes of its last transcript (`Hashes`).  Under one proof
these bytes determine the statement: the name of the election, which is the only value in them whose
length is not known, the key and both lists (`eq_of_encode`).  So a proof that passes for two
statements shows two byte strings that have one challenge (`shuffle_binding`).
-/

namespace BallotMix.Shuffle

open Transcript

theorem length_tHat {q n : ℕ} {x : StatementLogs q} {π : ProofLogs q} (hπ : π.HasSize n) :
    (recomputeLogs x π).tHat.length = n := by
  simp only [recomputeLogs, ProofLogs.links, previousLogs, List.length_map, List.length_zip,
    List.length_cons, List.length_dropLast, hπ.chain, hπ.sHat, hπ.sTilde]
  omega

variable {G : Group} [accepted : G.Accepted]

/-! ## The fields of a statement -/

variable {y y' : ZMod G.q} {ins outs ins' outs' : List (ZMod G.q × ZMod G.q)}
  {commitment commitment' chain chain' : List (ZMod G.q)} {t t' : AnnouncementLogs G.q}

theorem map_shape_statementFields (hi : ins.length = ins'.length) (ho : outs.length = outs'.length)
    (hc : commitment.length = commitment'.length) :
    (statementFields G y ins outs commitment).map Field.shape
      = (statementFields G y' ins' outs' commitment').map Field.shape := by
  simp [statementFields, shape_elementField, map_shape_elementFields, hi, ho, hc]

omit accepted in
/-- The two columns of a list determine it. -/
theorem eq_of_columns {cs cs' : List (ZMod G.q × ZMod G.q)}
    (first : cs.map Prod.fst = cs'.map Prod.fst) (second : cs.map Prod.snd = cs'.map Prod.snd) :
    cs = cs' := by
  rw [← List.zip_unzip cs, ← List.zip_unzip cs', List.unzip_fst, List.unzip_snd, List.unzip_fst,
    List.unzip_snd, first, second]

/-- A statement can be read off from the front of its fields. -/
theorem eq_of_statementFields {rest rest' : List Field}
    (ends : EndsList (Bytes.ofText "perm") rest) (ends' : EndsList (Bytes.ofText "perm") rest')
    (same : statementFields G y ins outs commitment ++ rest
      = statementFields G y' ins' outs' commitment' ++ rest') :
    y = y' ∧ ins = ins' ∧ outs = outs' ∧ commitment = commitment' ∧ rest = rest' := by
  have column {label other : Bytes} (differ : other ++ Bytes.ofText ".len" ≠ label) :=
    endsList_elementFields (G := G) differ
  simp only [statementFields, List.append_assoc, List.cons_append, List.nil_append,
    List.cons.injEq, elementField_inj, true_and] at same
  obtain ⟨rfl, same⟩ := same
  obtain ⟨in₁, same⟩ :=
    eq_of_elementFields_append G (column (by decide) _ _) (column (by decide) _ _) same
  obtain ⟨in₂, same⟩ :=
    eq_of_elementFields_append G (column (by decide) _ _) (column (by decide) _ _) same
  obtain ⟨out₁, same⟩ :=
    eq_of_elementFields_append G (column (by decide) _ _) (column (by decide) _ _) same
  obtain ⟨out₂, same⟩ :=
    eq_of_elementFields_append G (column (by decide) _ _) (column (by decide) _ _) same
  obtain ⟨perm, same⟩ := eq_of_elementFields_append G ends ends' same
  exact ⟨rfl, eq_of_columns in₁ in₂, eq_of_columns out₁ out₂, perm, same⟩

theorem endsList_announcementFields {label : Bytes} (differ : Bytes.ofText "chain.len" ≠ label) :
    EndsList label (announcementFields G chain t) := by
  rintro f ⟨⟩
  exact differ

/-- The fields after the statement determine what they hold. -/
theorem eq_of_announcementFields
    (same : announcementFields G chain t = announcementFields G chain' t') :
    chain = chain' ∧ t = t' := by
  have ends (x : ℤ) (rest : List Field) : EndsList (Bytes.ofText "chain")
      (elementField G (Bytes.ofText "t1") x :: rest) := by
    rintro f ⟨⟩
    show Bytes.ofText "t1" ≠ Bytes.ofText "chain"
    decide
  simp only [announcementFields, List.append_assoc, List.cons_append, List.nil_append] at same
  obtain ⟨links, same⟩ := eq_of_elementFields_append G (ends _ _) (ends _ _) same
  simp only [List.cons.injEq, elementField_inj, elementFields_inj] at same
  obtain ⟨h1, h2, h3, h41, h42, hHat⟩ := same
  exact ⟨links, AnnouncementLogs.ext h1 h2 h3 h41 h42 hHat⟩

/-! ## The last transcript -/

/-- The verifier of the proof takes the challenge from the transcript. -/
def Hashes (G : Group) (pk : PublicKey) (inputs outputs : List Ciphertext) (proof : Proof)
    (options : Options) (T : Transcript) : Prop :=
  ∃ complete d, proof = complete.toProof ∧ Derives G pk inputs outputs complete options d ∧
    finalTranscript G d.statement complete.chain d.announcement = .ok T

theorem map_shape_announcementFields (hchain : chain.length = chain'.length)
    (hHat : t.tHat.length = t'.tHat.length) :
    (announcementFields G chain t).map Field.shape
      = (announcementFields G chain' t').map Field.shape := by
  simp [announcementFields, shape_elementField, map_shape_elementFields, hchain, hHat]

/-- After one statement and with one chain the bytes of the last transcript determine the
announcement. -/
theorem eq_of_encode_announcement {T : Transcript} (hHat : t.tHat.length = t'.tHat.length)
    (same : encode ⟨T.fields ++ announcementFields G chain t⟩
      = encode ⟨T.fields ++ announcementFields G chain t'⟩) : t = t' := by
  have fields : announcementFields G chain t = announcementFields G chain t' := by
    simp only [encode, List.flatMap_append, List.append_cancel_left_eq] at same
    exact fields_eq_of_encode (map_shape_announcementFields rfl hHat) same
  exact (eq_of_announcementFields fields).2

/-- Two announcements after one statement that have one challenge have it for two byte strings. -/
theorem exists_collision {T : Transcript} (differ : t ≠ t')
    (hHat : t.tHat.length = t'.tHat.length) {c : ℤ}
    (hc : finalChallenge G T (chain.map G.element) (announcementOf G t) = .ok c)
    (hc' : finalChallenge G T (chain.map G.element) (announcementOf G t') = .ok c) :
    ∃ U U', finalTranscript G T (chain.map G.element) (announcementOf G t) = .ok U ∧
      finalTranscript G T (chain.map G.element) (announcementOf G t') = .ok U' ∧
      U.encode ≠ U'.encode ∧ U.challenge G = .ok c ∧ U'.challenge G = .ok c := by
  rw [finalChallenge, finalTranscript_eq, Result.ok_bind] at hc hc'
  exact ⟨_, _, finalTranscript_eq G T chain t, finalTranscript_eq G T chain t',
    fun same => differ (eq_of_encode_announcement hHat same), hc, hc'⟩

variable {pk pk' : PublicKey} {inputs outputs inputs' outputs' : List Ciphertext}
  {options options' : Options} {T T' : Transcript}

/-- A run of the verifier by exponents, with its last transcript. -/
theorem Derives.exists_fields {complete : CompleteProof} {d : Derivation}
    (run : Derives G pk inputs outputs complete options d)
    (hT : finalTranscript G d.statement complete.chain d.announcement = .ok T) :
    ∃ (y : ZMod G.q) (ins outs : List (ZMod G.q × ZMod G.q)) (π : ProofLogs G.q)
      (t : AnnouncementLogs G.q), pk = ⟨some (G.element y)⟩ ∧ inputs = ins.map G.cipherOf ∧
      outputs = outs.map G.cipherOf ∧ complete = proofOf G π ∧
      ins.length = π.commitment.length ∧ outs.length = π.commitment.length ∧
      t.tHat.length = π.commitment.length ∧
      T = ⟨[⟨Bytes.ofText "domain", Bytes.ofText "mixnet/shuffle"⟩] ++
        ⟨Bytes.ofText "election", options.domain⟩ ::
          (statementFields G y ins outs π.commitment ++ announcementFields G π.chain t)⟩ := by
  obtain ⟨n, x, π, -, hx, hπ, rfl, rfl, rfl, rfl, -, -, announced⟩ := run.exists_logs
  have statement := run.statement
  simp only [proofOf] at statement hT
  rw [statement_eq, Except.ok.injEq] at statement
  rw [announced, ← statement, finalTranscript_eq, Except.ok.injEq] at hT
  exact ⟨x.key, x.inputs, x.outputs, π, recomputeLogs x π, rfl, rfl, rfl, rfl,
    hx.inputs.trans hπ.commitment.symm, hx.outputs.trans hπ.commitment.symm,
    (length_tHat hπ).trans hπ.commitment.symm, hT.symm.trans (by rw [List.append_assoc]; rfl)⟩

/-- Under one proof the bytes of the last transcript determine the statement. -/
theorem eq_of_encode {proof : Proof} (hT : Hashes G pk inputs outputs proof options T)
    (hT' : Hashes G pk' inputs' outputs' proof options' T') (same : T.encode = T'.encode) :
    (options.domain, pk, inputs, outputs) = (options'.domain, pk', inputs', outputs') := by
  obtain ⟨complete, d, rfl, run, hT⟩ := hT
  obtain ⟨complete', d', sameProof, run', hT'⟩ := hT'
  obtain rfl := toProof_injective sameProof
  obtain ⟨y, ins, outs, π, t, rfl, rfl, rfl, rfl, hi, ho, hHat, rfl⟩ := run.exists_fields hT
  obtain ⟨y', ins', outs', π', t', rfl, rfl, rfl, sameLogs, hi', ho', hHat', rfl⟩ :=
    run'.exists_fields hT'
  have commitment : π.commitment = π'.commitment :=
    G.element_injective.list_map (congrArg CompleteProof.commitment sameLogs)
  have chain : π.chain = π'.chain :=
    G.element_injective.list_map (congrArg CompleteProof.chain sameLogs)
  rw [commitment] at hi ho hHat
  have shapes : (statementFields G y ins outs π.commitment).map Field.shape
      = (statementFields G y' ins' outs' π'.commitment).map Field.shape :=
    map_shape_statementFields (hi.trans hi'.symm) (ho.trans ho'.symm)
      (congrArg List.length commitment)
  have shapes' := map_shape_announcementFields (congrArg List.length chain) (hHat.trans hHat'.symm)
  obtain ⟨sameDomain, rest⟩ := eq_of_encode_of_shape (by
    rw [List.map_append, List.map_append, shapes, shapes']) same
  obtain ⟨rfl, rfl, rfl, -⟩ := eq_of_statementFields (endsList_announcementFields (by decide))
    (endsList_announcementFields (by decide)) rest
  rw [sameDomain]

/-- A proof that passes for two statements, of which the name of the election, the key, the inputs or
the outputs differ, shows two byte strings with one challenge: those from which the two verifiers take
it. -/
theorem shuffle_binding {proof : Proof}
    (pass : verify G pk inputs outputs proof options = .ok true)
    (pass' : verify G pk' inputs' outputs' proof options' = .ok true)
    (differ : (options.domain, pk, inputs, outputs) ≠ (options'.domain, pk', inputs', outputs')) :
    ∃ T T' c, Hashes G pk inputs outputs proof options T ∧
      Hashes G pk' inputs' outputs' proof options' T' ∧ T.encode ≠ T'.encode ∧
      T.challenge G = .ok c ∧ T'.challenge G = .ok c ∧ proof.challenge = some c := by
  obtain ⟨complete, d, rfl, run, hc⟩ := verify_eq_true_iff.1 pass
  obtain ⟨complete', d', sameProof, run', hc'⟩ := verify_eq_true_iff.1 pass'
  obtain rfl := toProof_injective sameProof
  obtain ⟨T, hT, hc⟩ := Result.bind_eq_ok_iff.1 hc
  obtain ⟨T', hT', hc'⟩ := Result.bind_eq_ok_iff.1 hc'
  have hashes : Hashes G pk inputs outputs complete.toProof options T := ⟨_, d, rfl, run, hT⟩
  have hashes' : Hashes G pk' inputs' outputs' complete.toProof options' T' := ⟨_, d', rfl, run', hT'⟩
  exact ⟨T, T', complete.challenge, hashes, hashes', fun same =>
    differ (eq_of_encode hashes hashes' same), hc, hc', rfl⟩

/-- A proof that passes for two outputs and for the same outputs exchanged, found by search in a group
that is small enough. -/
theorem shuffle_binding_least :
    let inputs : List Ciphertext := [⟨some 4, some 16⟩, ⟨some 4, some 4⟩]
    let outputs : List Ciphertext := [⟨some 16, some 16⟩, ⟨some 64, some 256⟩]
    let proof : Proof := ⟨some 673537498, some 507485156, some 967446013, some 687288544,
      some 414033275, [some 107280766, some 973734645], [some 207942668, some 103045315],
      [some 1743314049, some 329987194], [some 554208173, some 1105395572]⟩
    ∃ T T' c, Hashes Group.least ⟨some 4⟩ inputs outputs proof ⟨[], 1⟩ T ∧
      Hashes Group.least ⟨some 4⟩ inputs outputs.reverse proof ⟨[], 2⟩ T' ∧
      T.encode ≠ T'.encode ∧ T.challenge Group.least = .ok c ∧ T'.challenge Group.least = .ok c ∧
      proof.challenge = some c := by
  intro inputs outputs proof
  have pass : verify Group.least ⟨some 4⟩ inputs outputs proof ⟨[], 1⟩ = .ok true := by
    decide +kernel
  have pass' : verify Group.least ⟨some 4⟩ inputs outputs.reverse proof ⟨[], 2⟩ = .ok true := by
    decide +kernel
  exact shuffle_binding pass pass' (by decide)

end BallotMix.Shuffle
