import BallotMix.Proofs.Command.Text
import BallotMix.Proofs.Computation
import Mathlib

/-!
# What a call leaves

A command reads its arguments, draws, computes and prints, in this order.  `Prints` says of a run
that it gets to its end with exit code zero and prints certain lines and no remark; its rules follow
the ways in which commands are put together.  A call carries out its command with the settings that
its flags make, wherever these stand (`call_eq`).
-/

namespace BallotMix.Command

open Draw

variable {σ α β : Type}

/-! ## Runs -/

/-- The run ends with exit code zero; it prints the lines after what was written before and adds no
remark. -/
def Prints (run : Run σ UInt32) (source : σ) (words : List String) : Prop :=
  ∀ out err, ∃ source', Draw.Returns run ⟨source, out, err⟩ 0 ⟨source', out ++ unlines words, err⟩

variable {source : σ} {printed : List String}

theorem prints_pure : Prints (pure 0) source [] := by
  intro out err
  refine ⟨source, returns_pure_iff.2 ⟨rfl, ?_⟩⟩
  simp [unlines]

/-- A command draws from the source of its session, and changes nothing else in it. -/
theorem run_draw (d : Draw σ α) (s : Session σ) :
    @Eq (Result α × Session σ) ((draw d).run s) ((d.run s.source : Result α × σ).1,
      { s with source := (d.run s.source : Result α × σ).2 }) := rfl

theorem returns_draw_iff {d : Draw σ α} {s s' : Session σ} {a : α} :
    Draw.Returns (draw d) s a s' ↔
      ∃ source', d.Returns s.source a source' ∧ s' = { s with source := source' } := by
  unfold Returns
  rw [run_draw]
  rcases (d.run s.source : Result α × σ) with ⟨r, t⟩
  simp only [Prod.mk.injEq]
  constructor
  · rintro ⟨rfl, rfl⟩
    exact ⟨t, ⟨rfl, rfl⟩, rfl⟩
  · rintro ⟨_, ⟨rfl, rfl⟩, rfl⟩
    exact ⟨rfl, rfl⟩

theorem draw_bind (d : Draw σ α) (f : α → Draw σ β) :
    draw (d >>= f) = draw d >>= fun a => draw (f a) := by
  funext s
  show (draw (d >>= f)).run s = (draw d >>= fun a => draw (f a)).run s
  rw [run_draw, run_bind, run_bind, run_draw]
  rcases (d.run s.source : Result α × σ) with ⟨_ | a, t⟩
  · rfl
  · rfl

theorem draw_liftM (x : Result α) : draw (liftM x : Draw σ α) = (liftM x : Run σ α) := by
  cases x with
  | ok a => rfl
  | error e => rfl

theorem printLine_returns (word : String) (s : Session σ) :
    Draw.Returns (printLine word) s () { s with out := s.out ++ word ++ "\n" } := rfl

/-- A line is printed before those of the rest of the run. -/
theorem Prints.printLine {rest : Run σ UInt32} (h : Prints rest source printed) (word : String) :
    Prints (do Command.printLine word; rest) source (word :: printed) := by
  intro out err
  obtain ⟨source', run⟩ := h (out ++ word ++ "\n") err
  refine ⟨source', returns_bind_iff.2 ⟨(), _, printLine_returns word _, ?_⟩⟩
  rwa [unlines_cons, ← String.append_assoc, ← String.append_assoc]

theorem Prints.forM_printLine {rest : Run σ UInt32} (h : Prints rest source printed)
    (words : List String) :
    Prints (do words.forM Command.printLine; rest) source (words ++ printed) := by
  induction words with
  | nil => exact h
  | cons word words ih =>
    show Prints ((Command.printLine word >>= fun _ => words.forM Command.printLine) >>= fun _ => rest)
      source (word :: (words ++ printed))
    rw [bind_assoc]
    exact ih.printLine word

theorem print_printLine (text word : String) :
    (do Command.print text; Command.printLine word : Run σ Unit) =
      Command.printLine (text ++ word) := by
  funext s
  show ((Except.ok (), { s with out := s.out ++ text ++ word ++ "\n" }) : Result Unit × Session σ)
    = (Except.ok (), { s with out := s.out ++ (text ++ word) ++ "\n" })
  simp only [String.append_assoc]

/-- Steps that each print a line print the lines. -/
theorem forM_eq_forM_printLine {f : α → Run σ Unit} {xs : List α} {words : List String}
    (h : List.Forall₂ (fun a word => f a = Command.printLine word) xs words) :
    xs.forM f = words.forM Command.printLine := by
  induction h with
  | nil => rfl
  | @cons a word xs words head _ ih =>
    show (f a >>= fun _ => xs.forM f)
      = (Command.printLine word >>= fun _ => words.forM Command.printLine)
    rw [head, ih]

theorem prints_lines (words : List String) :
    Prints (do words.forM Command.printLine; pure 0) source words := by
  have run : Prints (do words.forM Command.printLine; pure 0) source (words ++ []) :=
    prints_pure.forM_printLine words
  rwa [List.append_nil] at run

/-- What cannot fail is done before the rest of the run. -/
theorem prints_lift {x : Result α} {a : α} (hx : x = .ok a) {f : α → Run σ UInt32}
    (h : Prints (f a) source printed) : Prints (liftM x >>= f) source printed := by
  intro out err
  obtain ⟨source', run⟩ := h out err
  exact ⟨source', returns_bind_iff.2 ⟨a, _, returns_liftM_iff.2 ⟨hx, rfl⟩, run⟩⟩

/-- A draw leaves the rest of the run with another source. -/
theorem prints_draw {d : Draw σ α} {a : α} {source' : σ} (drawn : d.Returns source a source')
    {f : α → Run σ UInt32} (h : Prints (f a) source' printed) :
    Prints (draw d >>= f) source printed := by
  intro out err
  obtain ⟨source'', run⟩ := h out err
  exact ⟨source'', returns_bind_iff.2 ⟨a, _, returns_draw_iff.2 ⟨source', drawn, rfl⟩, run⟩⟩

/-! ## Settings -/

/-- A setting with its value, as they stand in front of a command. -/
inductive Flag
  | params (name : String)
  | domain (id : String)
  | threads (count : String)

namespace Flag

def name : Flag → String
  | params _ => "--params"
  | domain _ => "--domain"
  | threads _ => "--threads"

def value : Flag → String
  | params name => name
  | domain id => id
  | threads count => count

def words (flag : Flag) : List String := [flag.name, flag.value]

/-- The settings with this one made. -/
def set (s : Settings) (flag : Flag) : Result Settings := s.assign flag.name (beforeNul flag.value)

theorem isName_name (flag : Flag) : Settings.isName flag.name = true := by
  cases flag
  all_goals rfl

theorem beforeNul_name (flag : Flag) : beforeNul flag.name = flag.name := by
  cases flag with
  | params _ => exact beforeNul_of_notMem (show '\x00' ∉ "--params".toList by decide)
  | domain _ => exact beforeNul_of_notMem (show '\x00' ∉ "--domain".toList by decide)
  | threads _ => exact beforeNul_of_notMem (show '\x00' ∉ "--threads".toList by decide)

/-- A setting is made whatever the command is. -/
theorem set_command {s s' : Settings} {flag : Flag} (h : set s flag = .ok s')
    (command : List String) : set { s with command } flag = .ok { s' with command } := by
  cases flag with
  | params _ =>
    cases h
    rfl
  | domain _ =>
    cases h
    rfl
  | threads count =>
    obtain ⟨threads, read, done⟩ := Result.bind_eq_ok_iff.1
      (show sizeArgument (beforeNul count) >>= _ = Except.ok s' from h)
    cases done
    show sizeArgument (beforeNul count) >>= _ = _
    rw [read]
    rfl

end Flag

/-- The argument is taken as it stands, and not for the name of a setting. -/
def IsPlain (argument : String) : Prop :=
  beforeNul argument = argument ∧ Settings.isName argument = false

instance (argument : String) : Decidable (IsPlain argument) :=
  inferInstanceAs (Decidable (_ ∧ _))

theorem IsWord.isPlain {text : String} (h : IsWord text) : IsPlain text := ⟨h.beforeNul, h.isName⟩

/-- The arguments are the words of a command with flags put anywhere among them. -/
inductive Mixes : List Flag → List String → List String → Prop
  | nil : Mixes [] [] []
  | flag (flag : Flag) {flags : List Flag} {command arguments : List String} :
      Mixes flags command arguments → Mixes (flag :: flags) command (flag.words ++ arguments)
  | word (word : String) {flags : List Flag} {command arguments : List String} :
      Mixes flags command arguments → Mixes flags (word :: command) (word :: arguments)

theorem mixes_nil (command : List String) : Mixes [] command command := by
  induction command with
  | nil => exact .nil
  | cons word _ ih => exact ih.word word

theorem mixes_front (flags : List Flag) (command : List String) :
    Mixes flags command (flags.flatMap Flag.words ++ command) := by
  induction flags with
  | nil => exact mixes_nil command
  | cons flag flags ih =>
    rw [List.flatMap_cons, List.append_assoc]
    exact ih.flag flag

theorem ofArguments_word {word : String} (plain : IsPlain word) (arguments : List String)
    (s : Settings) :
    Settings.ofArguments (word :: arguments) s
      = Settings.ofArguments arguments { s with command := s.command ++ [word] } := by
  cases arguments with
  | nil => rfl
  | cons next rest => rw [Settings.ofArguments, if_neg (by simp [plain.2])]

/-- The flags make settings and leave the command. -/
theorem ofArguments_mixes {flags : List Flag} {command arguments : List String}
    (mixes : Mixes flags command arguments) (plain : ∀ word ∈ command, IsPlain word)
    {s s' : Settings} (set : flags.foldlM Flag.set s = .ok s') (before : List String) :
    Settings.ofArguments (arguments.map beforeNul) { s with command := before }
      = .ok { s' with command := before ++ command } := by
  induction mixes generalizing s before with
  | nil =>
    cases set
    simp [Settings.ofArguments]
  | flag flag _ ih =>
    rw [List.foldlM_cons] at set
    obtain ⟨next, first, others⟩ := Result.bind_eq_ok_iff.1 set
    rw [List.map_append, Flag.words, List.map_cons, List.map_singleton, flag.beforeNul_name,
      List.cons_append, List.singleton_append, Settings.ofArguments, if_pos flag.isName_name]
    exact Result.bind_eq_ok_iff.2 ⟨_, Flag.set_command first before, ih plain others before⟩
  | word word _ ih =>
    obtain ⟨own, others⟩ := List.forall_mem_cons.1 plain
    rw [List.map_cons, own.1, ofArguments_word own, ih others set, List.append_assoc,
      List.singleton_append]

/-- The flags are in order, and they choose the group and the domain. -/
def Selects (G : Group) (domain : Bytes) (flags : List Flag) : Prop :=
  ∃ s, flags.foldlM Flag.set Settings.initial = .ok s ∧ Group.preset s.preset = .ok G ∧
    s.options.domain = domain

/-! ## Calls -/

/-- A call carries out the command that its arguments leave with the settings that they make. -/
theorem perform_of_settings {arguments : List String} {s : Settings}
    (set : Settings.ofArguments arguments Settings.initial = .ok s) {name : String}
    {rest : List String} (named : s.command = name :: rest) {G : Group}
    (loaded : Group.preset s.preset = .ok G) {σ : Type} [Source σ] :
    (perform arguments : Run σ UInt32) = dispatch G s.options name rest := by
  obtain ⟨preset, options, command⟩ := s
  obtain rfl : command = name :: rest := named
  unfold perform
  rw [set]
  show (liftM (Group.preset preset) >>= fun G => dispatch G options name rest) = _
  rw [loaded]
  rfl

/-- A call carries out its command with the settings of its flags. -/
theorem perform_eq {G : Group} {s : Settings} {flags : List Flag}
    (set : flags.foldlM Flag.set Settings.initial = .ok s) (loaded : Group.preset s.preset = .ok G)
    {σ : Type} [Source σ] {name : String} {arguments call : List String}
    (mixes : Mixes flags (name :: arguments) call) (plain : ∀ a ∈ name :: arguments, IsPlain a) :
    (perform (call.map beforeNul) : Run σ UInt32) = dispatch G s.options name arguments :=
  perform_of_settings (s := { s with command := name :: arguments })
    (ofArguments_mixes mixes plain set []) rfl loaded

namespace Outcome

/-- The outcome of a call that prints the lines and remarks nothing. -/
def printing (words : List String) : Outcome := ⟨0, unlines words, ""⟩

/-- The call ended with exit code zero and remarked nothing. -/
def IsClean (out : Outcome) : Prop := out.exit = 0 ∧ out.err = ""

theorem isClean_printing (words : List String) : (printing words).IsClean := ⟨rfl, rfl⟩

end Outcome

theorem call_eq {G : Group} {s : Settings} {flags : List Flag}
    (set : flags.foldlM Flag.set Settings.initial = .ok s) (loaded : Group.preset s.preset = .ok G)
    {σ : Type} [Source σ] {source : σ} {name : String} {arguments words printed : List String}
    (mixes : Mixes flags (name :: arguments) words) (plain : ∀ a ∈ name :: arguments, IsPlain a)
    (prints : Prints (dispatch G s.options name arguments) source printed) :
    call words source = .printing printed := by
  obtain ⟨source', run⟩ := prints "" ""
  rw [String.empty_append] at run
  have same : ((dispatch G s.options name arguments : Run σ UInt32).run ⟨source, "", ""⟩
    : Result UInt32 × Session σ) = (.ok 0, ⟨source', unlines printed, ""⟩) := run
  unfold call
  rw [perform_eq set loaded mixes plain]
  dsimp only
  rw [same]
  rfl

/-- A call for the command leaves the outcome.  Flags among its arguments choose the group and the
domain, and its source answers the draws. -/
def Leaves {α : Type} (G : Group) (domain : Bytes) (draws : (σ : Type) → [Source σ] → Draw σ α)
    (command : List String) (outcome : Outcome) : Prop :=
  ∃ flags words, Selects G domain flags ∧ Mixes flags command words ∧
    ∃ (σ : Type) (_ : Source σ) (source : σ), (∃ a source', (draws σ).Returns source a source') ∧
      call words source = outcome

variable {G : Group} {domain : Bytes} {draws : (σ : Type) → [Source σ] → Draw σ α}
  {outcome : Outcome}

/-- A call with its flags in front. -/
theorem leaves_call {flags : List Flag} (selects : Selects G domain flags) {σ : Type} [Source σ]
    {source : σ} (answered : ∃ a source', (draws σ).Returns source a source')
    (command : List String) :
    Leaves G domain draws command (call (flags.flatMap Flag.words ++ command) source) :=
  ⟨flags, _, selects, mixes_front flags command, σ, inferInstance, source, answered, rfl⟩

/-- What a command prints with any number of threads when its draws are answered, a call for it
prints. -/
theorem Leaves.exists_printed {name : String} {arguments : List String}
    (h : Leaves G domain draws (name :: arguments) outcome) (plain : IsPlain name)
    (words : ∀ a ∈ arguments, IsWord a) {β : Type} (text : β → List String) {P : β → Prop}
    (prints : ∀ (threads : ℕ) (σ : Type) [Source σ] (source : σ) (a : α) (source' : σ),
      (draws σ).Returns source a source' →
        ∃ b, P b ∧ Prints (dispatch G ⟨domain, threads⟩ name arguments) source (text b)) :
    ∃ b, P b ∧ outcome = .printing (text b) := by
  obtain ⟨flags, _, ⟨s, set, loaded, rfl⟩, mixes, σ, _, source, ⟨a, source', drawn⟩, rfl⟩ := h
  obtain ⟨b, holds, run⟩ := prints s.options.threads σ source a source' drawn
  have all : ∀ a ∈ name :: arguments, IsPlain a :=
    List.forall_mem_cons.2 ⟨plain, fun a ha => (words a ha).isPlain⟩
  exact ⟨b, holds, call_eq set loaded mixes all run⟩

end BallotMix.Command
