import BallotMix.Proofs.Closure.Ranges
import BallotMix.Proofs.Command.Calls
import Mathlib

/-!
# What a failing call has printed

A command has two parts.  The steps of the first may fail, but are `Silent`: they print nothing, and
remark on rejected contributions at most.  Those of the second print, and cannot fail, since what they
write is there and in range (`OnlyPrints`).  A run of this form is `Tidy`, and so is a verdict.  So a
call that fails has printed nothing, or that a verification failed, and nothing else.
-/

namespace BallotMix.Command

open Draw

variable {σ α β : Type} {P : α → Prop} {Q : β → Prop}

/-! ## Silent steps -/

/-- The remarks on rejected contributions. -/
def rejections (indices : List UInt64) : String := String.join (indices.map rejectionText)

theorem rejections_append (indices others : List UInt64) :
    rejections (indices ++ others) = rejections indices ++ rejections others := by
  simp [rejections]

/-- The step prints nothing, whichever way it ends.  If it succeeds, it has remarked on nothing but
rejected contributions, and what it gives has the property. -/
structure Silent (step : Run σ α) (P : α → Prop) : Prop where
  fails : ∀ {s e s'}, Draw.Fails step s e s' → s'.out = s.out
  returns : ∀ {s a s'}, Draw.Returns step s a s' →
    P a ∧ s'.out = s.out ∧ ∃ indices, s'.err = s.err ++ rejections indices

theorem silent_pure {a : α} (h : P a) : Silent (pure a : Run σ α) P where
  fails := fun run => (not_fails_pure run).elim
  returns := by
    intro s a s' run
    obtain ⟨rfl, rfl⟩ := returns_pure_iff.1 run
    exact ⟨h, rfl, [], by simp [rejections]⟩

theorem Silent.bind {step : Run σ α} (h : Silent step P) {f : α → Run σ β}
    (hf : ∀ a, P a → Silent (f a) Q) : Silent (step >>= f) Q where
  fails := by
    intro s e s' run
    rcases fails_bind_iff.1 run with first | ⟨a, t, first, second⟩
    · exact h.fails first
    · obtain ⟨ha, same, -⟩ := h.returns first
      rw [(hf a ha).fails second, same]
  returns := by
    intro s b s' run
    obtain ⟨a, t, first, second⟩ := returns_bind_iff.1 run
    obtain ⟨ha, same, indices, remarked⟩ := h.returns first
    obtain ⟨hb, same', others, remarked'⟩ := (hf a ha).returns second
    refine ⟨hb, same'.trans same, indices ++ others, ?_⟩
    rw [remarked', remarked, rejections_append, String.append_assoc]

theorem silent_lift {x : Result α} (h : x.Ensures P) : Silent (liftM x : Run σ α) P where
  fails := by
    intro s e s' run
    rw [(fails_liftM_iff.1 run).2]
  returns := by
    intro s a s' run
    obtain ⟨given, rfl⟩ := returns_liftM_iff.1 run
    exact ⟨h a given, rfl, [], by simp [rejections]⟩

theorem silent_draw {d : Draw σ α} (h : d.Ensures P) : Silent (draw d) P where
  fails := by
    intro s e s' run
    exact congrArg (fun t : Result α × Session σ => t.2.out) (Eq.symm run)
  returns := by
    intro s a s' run
    obtain ⟨source', drawn, rfl⟩ := returns_draw_iff.1 run
    exact ⟨h _ _ _ drawn, rfl, [], by simp [rejections]⟩

theorem remark_returns (text : String) (s : Session σ) :
    Draw.Returns (remark text) s () { s with err := s.err ++ text } := rfl

theorem silent_rejection (i : UInt64) :
    Silent (remark (rejectionText i) : Run σ Unit) fun _ => True where
  fails := fun run => (run.not_returns (remark_returns _ _)).elim
  returns := by
    intro s a s' run
    obtain ⟨-, rfl⟩ := run.unique (remark_returns _ s)
    exact ⟨trivial, rfl, [i], by simp [rejections]⟩

theorem silent_rejections (indices : List UInt64) :
    Silent (indices.forM fun i => remark (rejectionText i) : Run σ Unit) fun _ => True := by
  induction indices with
  | nil => exact silent_pure trivial
  | cons i indices ih => exact (silent_rejection i).bind fun _ _ => ih

/-! ## Steps that only print -/

/-- The step gets to its end with the value, and all it does is print. -/
def OnlyPrints (step : Run σ α) (a : α) : Prop := ∀ s, ∃ out, Draw.Returns step s a { s with out }

theorem onlyPrints_pure (a : α) : OnlyPrints (pure a : Run σ α) a :=
  fun s => ⟨s.out, returns_pure_iff.2 ⟨rfl, rfl⟩⟩

theorem OnlyPrints.bind {step : Run σ α} {a : α} (h : OnlyPrints step a) {f : α → Run σ β} {b : β}
    (hf : OnlyPrints (f a) b) : OnlyPrints (step >>= f) b := by
  intro s
  obtain ⟨out, first⟩ := h s
  obtain ⟨out', second⟩ := hf { s with out }
  exact ⟨out', returns_bind_iff.2 ⟨a, _, first, second⟩⟩

/-- With the last step done, the exit code is zero. -/
theorem OnlyPrints.exit {step : Run σ Unit} (h : OnlyPrints step ()) :
    OnlyPrints (do step; pure 0 : Run σ UInt32) 0 := h.bind (onlyPrints_pure 0)

theorem onlyPrints_lift {x : Result α} {a : α} (h : x = .ok a) :
    OnlyPrints (liftM x : Run σ α) a :=
  fun s => ⟨s.out, returns_liftM_iff.2 ⟨h, rfl⟩⟩

theorem onlyPrints_print (text : String) : OnlyPrints (print text : Run σ Unit) () :=
  fun s => ⟨s.out ++ text, rfl⟩

theorem onlyPrints_printLine (line : String) : OnlyPrints (printLine line : Run σ Unit) () :=
  fun s => ⟨s.out ++ line ++ "\n", rfl⟩

theorem onlyPrints_forM {f : α → Run σ Unit} {xs : List α} (h : ∀ x ∈ xs, OnlyPrints (f x) ()) :
    OnlyPrints (xs.forM f) () := by
  induction xs with
  | nil => exact onlyPrints_pure ()
  | cons x xs ih =>
    exact (h x List.mem_cons_self).bind (ih fun y hy => h y (List.mem_cons_of_mem x hy))

/-! ## Tidy runs -/

/-- A run that starts with nothing printed and fails has printed nothing.  If it ends with an exit code
other than zero, it has printed nothing or that a verification failed, and if it ends with zero, it has
remarked on nothing but rejected contributions. -/
structure Tidy (run : Run σ UInt32) : Prop where
  fails : ∀ {s e s'}, s.out = "" → Draw.Fails run s e s' → s'.out = ""
  refuses : ∀ {s exit s'}, s.out = "" → Draw.Returns run s exit s' → exit ≠ 0 →
    s'.out = "" ∨ s'.out = "FAIL\n"
  succeeds : ∀ {s s'}, s.out = "" → Draw.Returns run s 0 s' →
    ∃ indices, s'.err = s.err ++ rejections indices

theorem tidy_throw (e : Error) : Tidy (throw e : Run σ UInt32) where
  fails := by
    intro s e' s' start run
    obtain ⟨-, rfl⟩ := Prod.ext_iff.1 run
    exact start
  refuses := fun _ run => (not_returns_throw run).elim
  succeeds := fun _ run => (not_returns_throw run).elim

/-- Silent steps come before. -/
theorem Silent.tidy_bind {step : Run σ α} (h : Silent step P) {f : α → Run σ UInt32}
    (hf : ∀ a, P a → Tidy (f a)) : Tidy (step >>= f) where
  fails := by
    intro s e s' start run
    rcases fails_bind_iff.1 run with first | ⟨a, t, first, second⟩
    · exact (h.fails first).trans start
    · obtain ⟨ha, same, -⟩ := h.returns first
      exact (hf a ha).fails (same.trans start) second
  refuses := by
    intro s exit s' start run refused
    obtain ⟨a, t, first, second⟩ := returns_bind_iff.1 run
    obtain ⟨ha, same, -⟩ := h.returns first
    exact (hf a ha).refuses (same.trans start) second refused
  succeeds := by
    intro s s' start run
    obtain ⟨a, t, first, second⟩ := returns_bind_iff.1 run
    obtain ⟨ha, same, indices, remarked⟩ := h.returns first
    obtain ⟨others, remarked'⟩ := (hf a ha).succeeds (same.trans start) second
    refine ⟨indices ++ others, ?_⟩
    rw [remarked', remarked, rejections_append, String.append_assoc]

/-- Steps that only print come last. -/
theorem OnlyPrints.tidy {run : Run σ UInt32} (h : OnlyPrints run 0) : Tidy run where
  fails := by
    intro s e s' start failed
    obtain ⟨out, returned⟩ := h s
    exact (failed.not_returns returned).elim
  refuses := by
    intro s exit s' start returned refused
    obtain ⟨out, returned'⟩ := h s
    exact (refused (returned.unique returned').1).elim
  succeeds := by
    intro s s' start returned
    obtain ⟨out, returned'⟩ := h s
    obtain ⟨-, rfl⟩ := returned.unique returned'
    exact ⟨[], by simp [rejections]⟩

/-- A run that always ends with exit code one, and prints nothing but that a verification failed. -/
theorem tidy_refusal {run : Run σ UInt32} {f : Session σ → Session σ}
    (refused : ∀ s, Draw.Returns run s 1 (f s))
    (printed : ∀ s, s.out = "" → (f s).out = "" ∨ (f s).out = "FAIL\n") : Tidy run where
  fails := fun _ failed => (failed.not_returns (refused _)).elim
  refuses := by
    intro s exit s' start returned _
    obtain ⟨-, rfl⟩ := returned.unique (refused s)
    exact printed s start
  succeeds := by
    intro s s' _ returned
    obtain ⟨zero, -⟩ := returned.unique (refused s)
    exact absurd zero (by decide)

theorem tidy_verdict (holds : Bool) : Tidy (verdict holds : Run σ UInt32) := by
  cases holds with
  | true => exact (onlyPrints_printLine "OK").exit.tidy
  | false =>
    apply tidy_refusal (f := fun s => { s with out := s.out ++ "FAIL" ++ "\n" }) fun _ => rfl
    intro s start
    right
    show s.out ++ "FAIL" ++ "\n" = "FAIL\n"
    rw [start]
    rfl

/-- A remark on how the program is called. -/
theorem tidy_usage (text : String) : Tidy (do remark text; pure 1 : Run σ UInt32) :=
  tidy_refusal (f := fun s => { s with err := s.err ++ text }) (fun _ => rfl) fun _ start =>
    .inl start

/-! ## Commands that do not draw -/

open Result

theorem silent_any {x : Result α} : Silent (liftM x : Run σ α) fun _ => True :=
  silent_lift ensures_true

theorem blobText_pair {G : Group} {c : Pair} (h : G.Residues [some c.c1, some c.c2]) :
    blobText (Wire.encodeCiphertext G c.toCiphertext)
      = .ok (Hex.ofBytes (Wire.pairPiece G c.toCiphertext)) :=
  blobText_eq (Wire.adds_ciphertext h).blob_eq

variable {G : Group}

theorem tidy_params : Tidy (params G : Run σ UInt32) := by
  unfold params
  refine OnlyPrints.tidy ?_
  refine (onlyPrints_printLine _).bind <| (onlyPrints_printLine _).bind ?_
  exact (onlyPrints_printLine _).exit

theorem tidy_decrypt (arguments : List String) : Tidy (decrypt G arguments : Run σ UInt32) := by
  unfold decrypt
  split
  · refine silent_any.tidy_bind fun x _ => silent_any.tidy_bind fun ct _ => ?_
    refine silent_any.tidy_bind fun m _ => silent_any.tidy_bind fun value _ => ?_
    exact (onlyPrints_printLine _).exit.tidy
  · exact tidy_throw _

theorem tidy_verifyReencryption (domain : Bytes) (arguments : List String) :
    Tidy (verifyReencryption G domain arguments : Run σ UInt32) := by
  unfold verifyReencryption
  split
  · refine silent_any.tidy_bind fun pk _ => silent_any.tidy_bind fun data _ => ?_
    refine silent_any.tidy_bind fun proof _ => silent_any.tidy_bind fun again _ => ?_
    refine silent_any.tidy_bind fun ct _ => silent_any.tidy_bind fun holds _ => ?_
    exact tidy_verdict holds
  · exact tidy_throw _

theorem tidy_verifyShuffle (options : Shuffle.Options) (arguments : List String) :
    Tidy (verifyShuffle G options arguments : Run σ UInt32) := by
  unfold verifyShuffle
  split
  · refine silent_any.tidy_bind fun pk _ => silent_any.tidy_bind fun data _ => ?_
    refine silent_any.tidy_bind fun proof _ => silent_any.tidy_bind fun n _ => ?_
    refine silent_any.tidy_bind fun _ _ => silent_any.tidy_bind fun inputs _ => ?_
    refine silent_any.tidy_bind fun outputs _ => silent_any.tidy_bind fun holds _ => ?_
    exact tidy_verdict holds
  · exact tidy_throw _

theorem tidy_combine (domain : Bytes) (arguments : List String) :
    Tidy (combine G domain arguments : Run σ UInt32) := by
  unfold combine
  split
  · refine silent_any.tidy_bind fun commitments _ => silent_any.tidy_bind fun ct _ => ?_
    refine silent_any.tidy_bind fun shares _ => silent_any.tidy_bind fun combined _ => ?_
    refine (silent_rejections combined.rejected).tidy_bind fun _ _ => ?_
    refine silent_any.tidy_bind fun value _ => ?_
    exact (onlyPrints_printLine _).exit.tidy
  · exact tidy_throw _

theorem tidy_tally (arguments : List String) : Tidy (tally G arguments : Run σ UInt32) := by
  unfold tally
  split
  · refine silent_any.tidy_bind fun x _ => silent_any.tidy_bind fun bound _ => ?_
    refine silent_any.tidy_bind fun plaintexts _ => silent_any.tidy_bind fun counts _ => ?_
    exact (onlyPrints_forM fun vn _ => onlyPrints_printLine _).exit.tidy
  · exact tidy_throw _

/-! ## Commands that draw -/

variable [Source σ]

theorem tidy_keygen : Tidy (keygen G : Run σ UInt32) := by
  unfold keygen
  refine (silent_draw Group.ensures_generateKeyPair).tidy_bind fun keys made => ?_
  obtain ⟨x, h, rfl⟩ := made
  refine OnlyPrints.tidy ?_
  refine (onlyPrints_lift (present_some x)).bind <| (onlyPrints_print _).bind ?_
  refine (onlyPrints_print " ").bind <| (onlyPrints_lift (present_some h)).bind ?_
  exact (onlyPrints_printLine _).exit

theorem tidy_deal (positive : 0 < G.p) (arguments : List String) :
    Tidy (deal G arguments : Run σ UInt32) := by
  unfold deal
  split
  · refine silent_any.tidy_bind fun t _ => silent_any.tidy_bind fun n _ => ?_
    refine (silent_draw (Sharing.writable_deal positive t n)).tidy_bind fun dealing writable => ?_
    obtain ⟨⟨h, key⟩, commitments, secrets⟩ := writable
    have printed : ∀ share ∈ dealing.shares, OnlyPrints (printShare share : Run σ Unit) () := by
      intro share hshare
      obtain ⟨s, hs⟩ := secrets share hshare
      unfold printShare
      rw [hs]
      exact (onlyPrints_print _).bind <| (onlyPrints_lift (present_some s)).bind
        (onlyPrints_printLine _)
    have text := blobText_eq (Wire.adds_elements commitments).blob_eq
    rw [key]
    refine OnlyPrints.tidy ?_
    refine (onlyPrints_lift (present_some h)).bind <| (onlyPrints_printLine _).bind ?_
    refine (onlyPrints_lift text).bind <| (onlyPrints_printLine _).bind ?_
    exact (onlyPrints_forM printed).exit
  · exact tidy_throw _

theorem tidy_encrypt (arguments : List String) : Tidy (encrypt G arguments : Run σ UInt32) := by
  unfold encrypt
  split
  · refine silent_any.tidy_bind fun pk _ => silent_any.tidy_bind fun value _ => ?_
    refine silent_any.tidy_bind fun m _ => ?_
    refine (silent_draw ensures_true).tidy_bind fun c _ => ?_
    refine silent_any.tidy_bind fun text _ => ?_
    exact (onlyPrints_printLine text).exit.tidy
  · exact tidy_throw _

theorem tidy_reencrypt (positive : 0 < G.p) (domain : Bytes) (arguments : List String) :
    Tidy (reencrypt G domain arguments : Run σ UInt32) := by
  unfold reencrypt
  split
  · refine silent_any.tidy_bind fun pk _ => silent_any.tidy_bind fun ct _ => ?_
    refine (silent_draw (Reencryption.writable_reencryptWithProof positive pk ct domain)).tidy_bind
      fun made writable => ?_
    obtain ⟨pair, written⟩ := writable
    have proof := blobText_eq (Wire.adds_reencryption written).blob_eq
    refine OnlyPrints.tidy ?_
    refine (onlyPrints_lift (blobText_pair pair)).bind <| (onlyPrints_print _).bind ?_
    refine (onlyPrints_print " ").bind <| (onlyPrints_lift proof).bind ?_
    exact (onlyPrints_printLine _).exit
  · exact tidy_throw _

theorem tidy_shuffle (positive : 0 < G.p) (options : Shuffle.Options) (arguments : List String) :
    Tidy (shuffle G options arguments : Run σ UInt32) := by
  unfold shuffle
  split
  · refine silent_any.tidy_bind fun pk _ => silent_any.tidy_bind fun inputs _ => ?_
    refine (silent_draw (Shuffle.writable_shuffle positive pk inputs options)).tidy_bind
      fun made writable => ?_
    obtain ⟨pairs, written⟩ := writable
    have proof := blobText_eq (Wire.encodeShuffle_eq written)
    refine OnlyPrints.tidy ?_
    refine (onlyPrints_forM fun c hc => ?_).bind ?_
    · exact (onlyPrints_lift (blobText_pair (pairs c hc))).bind (onlyPrints_printLine _)
    · exact (onlyPrints_lift proof).bind (onlyPrints_printLine _).exit
  · exact tidy_throw _

theorem tidy_partialDecryption (domain : Bytes) (arguments : List String) :
    Tidy (partialDecryption G domain arguments : Run σ UInt32) := by
  unfold partialDecryption
  split
  · refine silent_any.tidy_bind fun share _ => silent_any.tidy_bind fun ct _ => ?_
    refine (silent_draw ensures_true).tidy_bind fun contribution _ => ?_
    refine silent_any.tidy_bind fun text _ => ?_
    exact (onlyPrints_printLine text).exit.tidy
  · exact tidy_throw _

/-! ## Calls -/

theorem tidy_dispatch (positive : 0 < G.p) (options : Shuffle.Options) (name : String)
    (arguments : List String) : Tidy (dispatch G options name arguments : Run σ UInt32) := by
  unfold dispatch
  split
  · exact tidy_params
  · exact tidy_keygen
  · exact tidy_deal positive arguments
  · exact tidy_encrypt arguments
  · exact tidy_decrypt arguments
  · exact tidy_reencrypt positive _ arguments
  · exact tidy_verifyReencryption _ arguments
  · exact tidy_shuffle positive options arguments
  · exact tidy_verifyShuffle options arguments
  · exact tidy_partialDecryption _ arguments
  · exact tidy_combine _ arguments
  · exact tidy_tally arguments
  · exact tidy_usage _

theorem tidy_perform (arguments : List String) : Tidy (perform arguments : Run σ UInt32) := by
  unfold perform
  refine silent_any.tidy_bind fun settings _ => ?_
  split
  · exact tidy_usage usage
  · next name rest _ =>
    have loaded : (Group.preset settings.preset).Ensures fun G => 0 < G.p :=
      fun _ => Group.positive_of_preset
    refine (silent_lift loaded).tidy_bind fun G positive => ?_
    exact tidy_dispatch positive settings.options name rest

/-- A call that fails prints no partial result.  If its exit code is not zero, it has printed nothing
or the line `FAIL`, and if its exit code is zero, it has remarked on nothing but rejected
contributions, with a line for each. -/
theorem call_no_partial_result (arguments : List String) (source : σ) :
    ((call arguments source).exit ≠ 0 →
      (call arguments source).out = "" ∨ (call arguments source).out = "FAIL\n") ∧
    ((call arguments source).exit = 0 → ∃ indices : List UInt64, (call arguments source).err =
      String.join (indices.map fun i => "rejected: " ++ decimal i ++ "\n")) := by
  have tidy := tidy_perform (σ := σ) (arguments.map beforeNul)
  unfold call
  dsimp only
  split
  · next exit session run =>
    refine ⟨tidy.refuses rfl run, ?_⟩
    rintro rfl
    obtain ⟨indices, remarked⟩ := tidy.succeeds rfl run
    exact ⟨indices, remarked.trans (String.empty_append)⟩
  · next e session run =>
    refine ⟨fun _ => .inl (tidy.fails rfl run), fun zero => ?_⟩
    cases zero

/-- A call without a command prints nothing, and remarks on how the program is called. -/
example (source : Tape) : call ["--threads", "2"] source = ⟨1, "", usage⟩ := by rfl

end BallotMix.Command
