import BallotMix.Command.Interpreter

/-!
# The program

Runs one call with a keystream whose seed comes from the operating system.
-/

open BallotMix

/-- Runs a call, writes what it leaves behind and returns its exit code. -/
def main (arguments : List String) : IO UInt32 := do
  let seed ← IO.getRandomBytes 32
  let outcome := Command.call arguments (Keystream.ofSeed seed.data.toList)
  (← IO.getStdout).putStr outcome.out
  (← IO.getStderr).putStr outcome.err
  pure outcome.exit
