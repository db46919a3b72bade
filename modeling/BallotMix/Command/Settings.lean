import BallotMix.Command.Numeral
import BallotMix.Shuffle.Basic

/-!
# Settings

Arguments that name a setting and are followed by a value set it, wherever they stand; all others
make up the command.  The last value of a setting counts.
-/

namespace BallotMix.Command

/-- The settings and the command of a call. -/
structure Settings where
  preset : String
  /-- The election and the number of workers. -/
  options : Shuffle.Options
  command : List String

namespace Settings

def initial : Settings := ⟨"256", ⟨[], 1⟩, []⟩

def isName (argument : String) : Bool :=
  argument = "--params" || argument = "--domain" || argument = "--threads"

/-- The settings with one of them set; the number of workers is kept in 32 bits. -/
def assign (s : Settings) (name value : String) : Result Settings :=
  if name = "--params" then .ok { s with preset := value }
  else if name = "--domain" then
    .ok { s with options := { s.options with domain := Bytes.ofText value } }
  else do
    let threads ← sizeArgument value
    pure { s with options := { s.options with threads := threads.toNat % UInt32.size } }

def ofArguments : List String → Settings → Result Settings
  | [], s => .ok s
  | [argument], s => .ok { s with command := s.command ++ [argument] }
  | argument :: value :: rest, s =>
    if isName argument then do ofArguments rest (← s.assign argument value)
    else ofArguments (value :: rest) { s with command := s.command ++ [argument] }

end Settings

end BallotMix.Command
