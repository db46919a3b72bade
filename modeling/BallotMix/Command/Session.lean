import BallotMix.Entropy.Source

/-!
# Sessions

A command runs in a `Session`: it draws from an entropy source and writes to two outputs, one for
results and one for remarks.  What was written stays written when the command fails.
-/

namespace BallotMix.Command

/-- The surroundings of a command. -/
structure Session (σ : Type) where
  source : σ
  out : String
  err : String

/-- A computation in a session. -/
abbrev Run (σ : Type) := ExceptT Error (StateM (Session σ))

variable {σ : Type}

def print (text : String) : Run σ Unit := modify fun s => { s with out := s.out ++ text }

def printLine (line : String) : Run σ Unit :=
  modify fun s => { s with out := s.out ++ line ++ "\n" }

def remark (text : String) : Run σ Unit := modify fun s => { s with err := s.err ++ text }

def draw {α : Type} (d : Draw σ α) : Run σ α := fun s =>
  let drawn := d.run s.source
  (drawn.1, { s with source := drawn.2 })

end BallotMix.Command
