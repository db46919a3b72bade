import BallotMix.Error

/-!
# Decimal arguments

A number argument is read from the front of its text: blanks are skipped, a sign may follow, then
come digits, and what follows the digits is ignored.  The value has to be below `2 ^ 64`; a minus
sign takes it from `2 ^ 64`.
-/

namespace BallotMix.Command

/-- The characters skipped in front of a number. -/
def isBlank (c : Char) : Bool := [' ', '\t', '\n', '\x0b', '\x0c', '\x0d'].contains c

/-- The number that decimal digits write. -/
def decimalValue (digits : List Char) : Nat :=
  digits.foldl (fun n c => n * 10 + (c.toNat - '0'.toNat)) 0

/-- The sign in front of a text, whether it is a minus, and the rest of the text. -/
def splitSign : List Char → Bool × List Char
  | '-' :: rest => (true, rest)
  | '+' :: rest => (false, rest)
  | text => (false, text)

/-- The number at the front of a text; `reader` names the kind of number in the fault. -/
def numeral (reader : String) (text : String) : Result UInt64 :=
  let signed := splitSign (text.toList.dropWhile isBlank)
  let digits := signed.2.takeWhile Char.isDigit
  let value := decimalValue digits
  if digits.isEmpty || decide (UInt64.size ≤ value) then .error (.argument (.numeral reader))
  else .ok (if signed.1 then 0 - UInt64.ofNat value else UInt64.ofNat value)

def sizeArgument (text : String) : Result UInt64 := numeral "stoul" text

def valueArgument (text : String) : Result UInt64 := numeral "stoull" text

end BallotMix.Command
